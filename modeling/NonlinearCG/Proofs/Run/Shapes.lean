import Mathlib
import NonlinearCG.Evaluator
import NonlinearCG.LineSearch.Strategy
import NonlinearCG.Proofs.Run.Invariant
import NonlinearCG.Proofs.Run.Schedule
import NonlinearCG.Proofs.Run.Twins

/-!
# Shapes and evaluators are transparent

A run works on flat vectors. The shape of the caller's arrays comes in at two places: in the
evaluations of the objective, and where a vector is handed out as an array.

* The arrays that a run hands out are read by no part of it. Two runs with different views of the
  same vectors are twins over the relation that their observers were shown the same states, seen
  through the two views (`twins_view`).
* Two objectives with the same evaluations lead to the same runs, however they were put together, if
  the line search does nothing with them but evaluate them (`minimizeFrom_congr`).

Minimizing a function of arrays of any shape is therefore minimizing the function of flat vectors
and reshaping what comes out, and it does not matter how value and gradient were combined.
-/

namespace NonlinearCG

variable {ω α : Type} {n : ℕ}

/-! ## Arrays in reports -/

section Arrays

variable (φ : Tensor α → Tensor α)

def Datum.mapArrays : Datum α → Datum α
  | .array t => .array (φ t)
  | d => d

def State.mapArrays (s : State α) : State α :=
  { s with metadata := s.metadata.map fun (name, d) ↦ (name, d.mapArrays φ) }

def Results.mapArrays (r : Results α) : Results α :=
  { r with
    start := φ r.start
    minimum := φ r.minimum
    trace := r.trace.map (.mapArrays φ) }

def RunError.mapArrays : RunError α → RunError α
  | .breakdown cause => .breakdown cause
  | .optimizer e => .optimizer
      { e with progress := { e.progress with
        x := e.progress.x.map φ
        trace := e.progress.trace.map (.mapArrays φ) } }

def Report.mapArrays (r : Report α) : Report α where
  outcome := (r.outcome.map (.mapArrays φ)).mapError (.mapArrays φ)
  displayed := r.displayed.map (.mapArrays φ)

variable {φ}

theorem Report.exists_of_mapArrays_ok {r : Report α} {x : Results α}
    (h : (r.mapArrays φ).outcome = .ok x) : ∃ y, r.outcome = .ok y ∧ x = y.mapArrays φ := by
  obtain ⟨outcome, displayed⟩ := r
  cases outcome with
  | ok y => exact ⟨y, rfl, (Except.ok.inj h).symm⟩
  | error e => cases h

end Arrays

/-- The entries of an array in another shape, if it has as many. -/
def Tensor.reshaped (s : Shape) (t : Tensor α) : Tensor α :=
  if h : t.shape.size = s.size then ⟨s, t.entries.cast h⟩ else t

/-! ## What observers have been shown -/

/-- The leaf after being shown some states and being finalized some times. -/
def Leaf.watched (states : List (State α)) (ends : ℕ) (l : Leaf α) : Leaf α :=
  { l.shown states with finished := l.finished + ends }

theorem Leaf.shown_watched (s : State α) (states : List (State α)) (ends : ℕ) :
    Leaf.shown [s] ∘ Leaf.watched states ends = Leaf.watched (states ++ [s]) ends := by
  funext l
  simp [watched, shown, dueAt]

theorem Leaf.finish_watched (states : List (State α)) (ends : ℕ) :
    Leaf.finish ∘ Leaf.watched states ends = Leaf.watched states (ends + 1) := rfl

theorem ownSeen_watched (states : List (State α)) (ends : ℕ) (medium : Medium) (brought : Bool) :
    Minimizer.ownSeen (.watched states ends) medium brought =
      if brought then states.toArray else #[] := by
  simp [Minimizer.ownSeen, Leaf.watched, Leaf.shown, Leaf.dueAt]

/-- The sessions agree, but the observers were shown the same states with different arrays. -/
structure Session.Reviewed (O : List (Observer α)) (φ : Tensor α → Tensor α)
    (s t : Session ω α) : Prop where
  world : s.world = t.world
  preconditioner : s.preconditioner = t.preconditioner
  log : s.log = t.log
  observers : ∃ states ends,
    s.observers = Observer.mapAll (.watched (states.map (.mapArrays φ)) ends) O ∧
      t.observers = Observer.mapAll (.watched states ends) O

namespace Session.Reviewed

variable {O : List (Observer α)} {φ : Tensor α → Tensor α}

theorem shares : Shares (Reviewed (ω := ω) O φ) where
  world h := h.world
  log h := h.log
  setWorld _ h := ⟨rfl, h.preconditioner, h.log, h.observers⟩
  setLog _ h := ⟨h.world, h.preconditioner, rfl, h.observers⟩

theorem sharesPreconditioner : SharesPreconditioner (Reviewed (ω := ω) O φ) where
  preconditioner h := h.preconditioner
  setPreconditioner _ h := ⟨h.world, rfl, h.log, h.observers⟩

theorem refl (s : Session ω α) : Reviewed s.observers φ s s := by
  refine ⟨rfl, rfl, rfl, [], 0, ?_⟩
  have hnothing : Leaf.watched ([] : List (State α)) 0 = id := by
    funext l
    simp [Leaf.watched, Leaf.shown]
  rw [List.map_nil, hnothing, Observer.mapAll_id]
  exact ⟨rfl, rfl⟩

end Session.Reviewed

namespace Minimizer

variable [Scalar α] {m : Minimizer ω α} {f : Objective ω α n} {view view' : Vec α n → Tensor α}
  {φ : Tensor α → Tensor α}

theorem state_view (o : Options α Limit) (hview : ∀ u, view u = φ (view' u)) (it : Iterate α n) :
    state o view it = (state o view' it).mapArrays φ := by
  simp only [state, State.mapArrays]
  rcases o.extendedTrace with _ | _
  · rfl
  · simp [Datum.mapArrays, hview]

theorem twins_view (O : List (Observer α)) (hview : ∀ u, view u = φ (view' u)) :
    Twins (Session.Reviewed O φ) m m f f view view' where
  shares := Session.Reviewed.shares
  tolerances := rfl
  eta := rfl
  budget := rfl
  value := rfl
  both := rfl
  search := rfl
  notify it := by
    refine Coupled.modify fun s t hst ↦ ?_
    change (m.notified view it s).Reviewed O φ (m.notified view' it t)
    obtain ⟨states, ends, hs, ht⟩ := hst.observers
    rw [notified_eq, notified_eq]
    refine ⟨hst.world, hst.preconditioner, hst.log, states ++ [state m.options view' it], ends, ?_⟩
    rw [hs, ht, Observer.mapAll_mapAll, Observer.mapAll_mapAll, Leaf.shown_watched,
      Leaf.shown_watched, state_view m.options hview, List.map_append, List.map_singleton]
    exact ⟨rfl, rfl⟩
  prepare := prepare_coupled Session.Reviewed.shares Session.Reviewed.sharesPreconditioner rfl
  closed {s t} h := by
    obtain ⟨states, ends, hs, ht⟩ := h.observers
    refine ⟨h.world, h.preconditioner, h.log, states, ends + 1, ?_, ?_⟩
    · rw [Session.closed, Observer.finalizeAll_eq_mapAll, hs, Observer.mapAll_mapAll,
        Leaf.finish_watched]
    · rw [Session.closed, Observer.finalizeAll_eq_mapAll, ht, Observer.mapAll_mapAll,
        Leaf.finish_watched]

omit [Scalar α] in
theorem ownSeen_mapArrays (states : List (State α)) (ends : ℕ) (medium : Medium) (brought : Bool) :
    ownSeen (.watched (states.map (.mapArrays φ)) ends) medium brought =
      (ownSeen (.watched states ends) medium brought).map (.mapArrays φ) := by
  rw [ownSeen_watched, ownSeen_watched]
  cases brought with
  | false | true => simp

omit [Scalar α] in
theorem reported_mapArrays (hview : ∀ u, view u = φ (view' u)) (x : Vec α n)
    (trace displayed : Array (State α)) (result : Except (Interrupt α n) (Ending α n)) :
    (⟨m.reported view x (trace.map (.mapArrays φ)) result, displayed.map (.mapArrays φ)⟩ :
      Report α) = Report.mapArrays φ ⟨m.reported view' x trace result, displayed⟩ := by
  cases result with
  | ok e =>
    simp only [reported, results, hview]
    rfl
  | error i =>
    cases i with
    | breakdown cause => rfl
    | stopped cause iteration calls x =>
      simp only [reported, error, hview]
      rfl

/-- **The view of vectors as arrays** decides which arrays a run hands out, and nothing else. -/
theorem minimizeFrom_view (hview : ∀ u, view u = φ (view' u)) (x : Vec α n) (σ₀ : Session ω α) :
    (m.minimizeFrom f view x σ₀).1 = (m.minimizeFrom f view' x σ₀).1.mapArrays φ ∧
      Session.Reviewed σ₀.observers φ (m.minimizeFrom f view x σ₀).2
        (m.minimizeFrom f view' x σ₀).2 := by
  obtain ⟨r, s, t, hrun, hrun', hst⟩ := (twins_view (m := m) (f := f) (m.opened σ₀).observers
    hview).exists_run x (.refl (m.opened σ₀))
  obtain ⟨states, ends, hs, ht⟩ := hst.observers
  rw [minimizeFrom_eq hrun hs, minimizeFrom_eq hrun' ht, ownSeen_mapArrays, ownSeen_mapArrays]
  exact ⟨reported_mapArrays hview x _ _ r, hst.world, hst.preconditioner, hst.log, states, ends,
    rfl, rfl⟩

end Minimizer

/-! ## Objectives with the same evaluations -/

variable [Scalar α]

/-- A line search does nothing with an objective but evaluate it. -/
def LineSearch.OnlyEvaluates (l : LineSearch ω α) : Prop :=
  ∀ {n : ℕ} (f f' : Objective ω α n), f.value = f'.value → f.gradient = f'.gradient →
    f.both = f'.both → l.search f = l.search f'

theorem Strategy.onlyEvaluates (s : Strategy α) :
    (s.lineSearch : LineSearch ω α).OnlyEvaluates := by
  intro n f f' hvalue _ hboth
  have hline : LineFunction.ofObjective f = LineFunction.ofObjective f' := by
    funext x d
    simp only [LineFunction.ofObjective, hvalue, hboth]
  cases s with
  | hagerZhang p => simp only [Strategy.lineSearch, HagerZhang.lineSearch, hline]
  | backtracking p => simp only [Strategy.lineSearch, Backtracking.lineSearch, hline]

namespace Minimizer

variable {m : Minimizer ω α}

section Congr

variable {f f' : Objective ω α n} (hm : m.lineSearch.OnlyEvaluates) (hvalue : f.value = f'.value)
  (hgradient : f.gradient = f'.gradient) (hboth : f.both = f'.both) (view : Vec α n → Tensor α)

include hm hvalue hgradient hboth

theorem twins_congr : Twins Eq m m f f' view view where
  shares := ⟨fun h ↦ h ▸ rfl, fun h ↦ h ▸ rfl, fun _ h ↦ h ▸ rfl, fun _ h ↦ h ▸ rfl⟩
  tolerances := rfl
  eta := rfl
  budget := rfl
  value := hvalue
  both := hboth
  search := hm f f' hvalue hgradient hboth
  notify _ := .refl _
  prepare _ := (Coupled.refl _).imp (fun P _ h ↦ h ▸ .refl P) fun _ _ ↦ id
  closed h := h ▸ rfl

/-- Objectives with the same evaluations lead to the same runs. -/
theorem minimizeFrom_congr (x : Vec α n) (σ₀ : Session ω α) :
    m.minimizeFrom f view x σ₀ = m.minimizeFrom f' view x σ₀ := by
  obtain ⟨r, s, t, hrun, hrun', rfl⟩ :=
    (twins_congr hm hvalue hgradient hboth view).exists_run x (s := m.opened σ₀) rfl
  simp only [minimizeFrom, hrun, hrun']

end Congr

theorem minimizeFrom_resize (hm : m.lineSearch.OnlyEvaluates) {k : ℕ} (h : k = n)
    {f : Objective ω α n} {f' : Objective ω α k}
    (hvalue : ∀ u, f'.value u = f.value (u.cast h))
    (hgradient : ∀ u, f'.gradient u = (·.cast h.symm) <$> f.gradient (u.cast h))
    (hboth : ∀ u, f'.both u = Prod.map id (·.cast h.symm) <$> f.both (u.cast h))
    (view : Vec α k → Tensor α) (x : Vec α n) (σ₀ : Session ω α) :
    m.minimizeFrom f' view (x.cast h.symm) σ₀ =
      m.minimizeFrom f (fun u ↦ view (u.cast h.symm)) x σ₀ := by
  subst h
  refine minimizeFrom_congr hm (funext hvalue) (funext fun u ↦ ?_) (funext fun u ↦ ?_) view x σ₀
  · rw [hgradient]
    exact id_map _
  · rw [hboth]
    exact id_map _

end Minimizer

/-! ## Functions of arrays -/

namespace Evaluator

variable (e : Evaluator ω α) (s : Shape)

omit [Scalar α] in
theorem flatten_value : (e.flatten s).value = (e.onShape s).value := by
  rw [flatten]
  split_ifs <;> rfl

omit [Scalar α] in
theorem flatten_gradient : (e.flatten s).gradient = (e.onShape s).gradient := by
  rw [flatten]
  split_ifs <;> rfl

omit [Scalar α] in
theorem flatten_both : (e.flatten s).both = (e.onShape s).both := by
  rw [flatten]
  split_ifs <;> rfl

section OfObjective

variable {f : Objective ω α n} {t : Shape} (h : t.size = n) (u : Vec α t.size)

omit [Scalar α] in
theorem ofObjective_value : ((ofObjective f).onShape t).value u = f.value (u.cast h) := dif_pos h

omit [Scalar α] in
theorem ofObjective_gradient :
    ((ofObjective f).onShape t).gradient u = (·.cast h.symm) <$> f.gradient (u.cast h) := dif_pos h

omit [Scalar α] in
theorem ofObjective_both :
    ((ofObjective f).onShape t).both u = Prod.map id (·.cast h.symm) <$> f.both (u.cast h) := by
  obtain ⟨value, gradient, combined⟩ := f
  cases combined with
  | some combined => exact dif_pos h
  | none =>
    simp only [Objective.both, onShape, ofObjective, Option.map_none, dif_pos h]
    simp [Prod.map]

end OfObjective

section Functions

variable (F : Tensor α → α) (g : (x : Tensor α) → Vec α x.shape.size)

def ofFunctions : Evaluator ω α where
  value x := return F x
  gradient x := return g x

def ofFunctionsJointly : Evaluator ω α :=
  { ofFunctions F g with combined := some fun x ↦ return (F x, g x) }

variable {F g} {grad : Tensor α → Tensor α}

omit [Scalar α] in
theorem onShape_ofGradient
    (hgrad : ∀ x, ∃ h : (grad x).shape.size = x.shape.size, (grad x).entries.cast h = g x) :
    (ofGradient (return F ·) (return grad ·) : Evaluator ω α).onShape s =
      (ofFunctions F g).onShape s := by
  refine congrArg (Objective.mk _ · none) (funext fun v ↦ ?_)
  obtain ⟨h, hentries⟩ := hgrad ⟨s, v⟩
  simp only [ofGradient, pure_bind, dif_pos h, hentries]
  rfl

end Functions

end Evaluator

namespace Minimizer

variable {m : Minimizer ω α}

theorem minimizeArray_eq (hm : m.lineSearch.OnlyEvaluates) (e : Evaluator ω α) (x : Tensor α)
    (σ₀ : Session ω α) :
    m.minimizeArray e x σ₀ = m.minimizeFrom (e.onShape x.shape) (⟨x.shape, ·⟩) x.entries σ₀ :=
  minimizeFrom_congr hm (e.flatten_value _) (e.flatten_gradient _) (e.flatten_both _) _ _ _

theorem minimizeArray_ofVec (hm : m.lineSearch.OnlyEvaluates) (f : Objective ω α n) (x : Vec α n)
    (σ₀ : Session ω α) :
    m.minimizeArray (.ofObjective f) (.ofVec x) σ₀ = m.minimizeFrom f Tensor.ofVec x σ₀ := by
  have hsize : Shape.size [n] = n := Nat.mul_one n
  rw [minimizeArray_eq hm]
  exact minimizeFrom_resize hm hsize (Evaluator.ofObjective_value hsize)
    (Evaluator.ofObjective_gradient hsize) (Evaluator.ofObjective_both hsize) _ x σ₀

omit [Scalar α] in
theorem reshaped_ofVec (s : Shape) (v : Vec α s.size) : (Tensor.ofVec v).reshaped s = ⟨s, v⟩ :=
  dif_pos (Nat.mul_one s.size)

/-- **Shapes and evaluators are transparent.** For all scalars, starting arrays of any shape,
options, preconditioners and line searches that only evaluate the objective:

* For all functions of arrays, with or without a state of their own, the run from an array has the
  same report as the run of the function of flat arrays, which evaluates on the reshaped array, from
  the flat array, but for the arrays in it, which are reshaped. World, preconditioner and log are
  the same afterwards, and the observers of the caller were shown the same states, reshaped.
* For all functions without a state, the runs are the same whether value and gradient are evaluated
  separately or in one evaluation, and whether the gradient is written down at its place or handed
  over as an array of its own with these entries, in any shape. -/
theorem minimizeArray_transparent (hm : m.lineSearch.OnlyEvaluates) (x : Tensor α)
    (σ₀ : Session ω α) :
    (∀ e : Evaluator ω α,
      let shaped := m.minimizeArray e x σ₀
      let flat := m.minimizeArray (.ofObjective (e.onShape x.shape)) (.ofVec x.entries) σ₀
      shaped.1 = flat.1.mapArrays (.reshaped x.shape) ∧
        Session.Reviewed σ₀.observers (.reshaped x.shape) shaped.2 flat.2) ∧
    ∀ (F : Tensor α → α) (g : (x : Tensor α) → Vec α x.shape.size) (grad : Tensor α → Tensor α),
      (∀ x, ∃ h : (grad x).shape.size = x.shape.size, (grad x).entries.cast h = g x) →
      m.minimizeArray (.ofFunctionsJointly F g) x σ₀ = m.minimizeArray (.ofFunctions F g) x σ₀ ∧
      m.minimizeArray (.ofGradient (return F ·) (return grad ·)) x σ₀ =
        m.minimizeArray (.ofFunctions F g) x σ₀ := by
  refine ⟨fun e ↦ ?_, fun F g grad hgrad ↦ ⟨?_, ?_⟩⟩
  · intro shaped flat
    simp only [shaped, flat, minimizeArray_ofVec hm, minimizeArray_eq hm e]
    exact minimizeFrom_view (fun v ↦ (reshaped_ofVec x.shape v).symm) x.entries σ₀
  · rw [minimizeArray_eq hm, minimizeArray_eq hm]
    refine minimizeFrom_congr hm ?_ ?_ ?_ _ _ _ <;> rfl
  · rw [minimizeArray_eq hm, minimizeArray_eq hm, Evaluator.onShape_ofGradient x.shape hgrad]

/-- The run on `x² + y²` from the array `[[3, 1]]` takes one iteration. It is the run from `[3, 1]`,
and the run with a gradient that hands over a flat array. -/
theorem minimizeArray_transparent_row :
    let F (t : Tensor (Exact Grid.rational)) := Vec.dot t.entries t.entries
    let g (t : Tensor (Exact Grid.rational)) := t.entries.map (2.0 * ·)
    let grad (t : Tensor (Exact Grid.rational)) := Tensor.ofVec (g t)
    let e : Evaluator Unit (Exact Grid.rational) := .ofFunctions F g
    let x : Tensor (Exact Grid.rational) := ⟨[1, 2], Vec.num ![3, 1]⟩
    let σ₀ : Session Unit (Exact Grid.rational) := { world := (), preconditioner := .identity }
    ∃ r r', (defaultMinimizer.minimizeArray e x σ₀).1.outcome = .ok r ∧
      (defaultMinimizer.minimizeArray (.ofObjective (e.onShape [1, 2])) (.ofVec x.entries)
        σ₀).1.outcome = .ok r' ∧
      (defaultMinimizer.minimizeArray (.ofGradient (return F ·) (return grad ·)) x
        σ₀).1.outcome = .ok r ∧
      r.iterations = 1 ∧ r = r'.mapArrays (.reshaped [1, 2]) := by
  intro F g grad e x σ₀
  have hrun : (defaultMinimizer.minimizeArray e x σ₀).1.outcome.toOption.map Results.iterations =
      some 1 := by
    decide +kernel
  obtain ⟨r, hr, hiterations⟩ := exists_ok_of_map_toOption hrun
  obtain ⟨hshape, hbuild⟩ := minimizeArray_transparent (m := defaultMinimizer)
    (Strategy.onlyEvaluates (.hagerZhang .default)) x σ₀
  obtain ⟨-, hgradient⟩ := hbuild F g grad fun t ↦ ⟨Nat.mul_one _, rfl⟩
  obtain ⟨hreport, -⟩ := hshape e
  rw [hreport] at hr
  obtain ⟨r', hr', heq⟩ := Report.exists_of_mapArrays_ok hr
  rw [← hreport] at hr
  refine ⟨r, r', hr, hr', ?_, hiterations, heq⟩
  rw [hgradient]
  exact hr

end Minimizer

end NonlinearCG
