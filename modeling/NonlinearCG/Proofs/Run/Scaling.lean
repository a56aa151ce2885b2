import Mathlib
import NonlinearCG.Proofs.Exact.Quadratic
import NonlinearCG.Proofs.LineSearch.Scaling
import NonlinearCG.Proofs.Run.Descent

/-!
# Runs in another unit of values

Multiplying an objective and its gradient by a positive number does not change the path of a run. At
the iterates of the two runs all quantities agree up to the powers of the number that are their
degrees: points and counters are the same, values, gradients and directions are multiplied, steps
are divided.

Only the convergence test compares a quantity with a tolerance of another degree, so that one of the
runs may end before the other one. An iteration is therefore followed as far as both runs return
from it (`advance_scaled`), and the runs for as many iterations as both perform (`Visits.scaled`).
The restart test and the line search have no such freedom. They end in the same way in both.
-/

namespace NonlinearCG

variable {ω K A B : Type} [Field K] [LinearOrder K] {G : Grid K} {n : ℕ} {t : Scale K}

/-- From every state of the world, the evaluations of an objective return the value and the gradient
of two functions. -/
structure Objective.Evaluates {α : Type} (f : Objective ω α n) (F : Vec α n → α)
    (g : Vec α n → Vec α n) : Prop where
  value (x : Vec α n) : Returns (f.value x) (F x)
  both (x : Vec α n) : Returns (f.both x) (F x, g x)

theorem Objective.evaluates_ofFunctions {α : Type} (F : Vec α n → α) (g : Vec α n → Vec α n) :
    (ofFunctions F g : Objective ω α n).Evaluates F g :=
  ⟨fun _ ↦ .pure _, fun _ ↦ .pure _⟩

/-- Both sessions hold a preconditioner. -/
structure Session.BothHold {α : Type} (P₀ : Preconditioner α) (s s' : Session ω α) : Prop where
  first : s.preconditioner = P₀
  second : s'.preconditioner = P₀

namespace Minimizer

variable {P₀ : Preconditioner (Exact G)} {m : Minimizer ω (Exact G)}
  {f f' : Objective ω (Exact G) n} {F : Vec (Exact G) n → Exact G}
  {g : Vec (Exact G) n → Vec (Exact G) n} {p : Backtracking (Exact G)}
  {it it' : Iterate (Exact G) n}

/-! ## Parts of a run that do not compare values -/

section Parts

variable {α : Type} {P₀ : Preconditioner α}

theorem Yields.matched {x : Run ω α n A} {y : Run ω α n B} {Q : A → Prop} {Q' : B → Prop}
    (hx : Yields P₀ x Q) (hy : Yields P₀ y Q') :
    Matched (Session.BothHold P₀) (fun a b ↦ Q a ∧ Q' b) x y := by
  intro s s' hs a σ b σ' hrun hrun'
  obtain ⟨_, _, hyields, ha, hσ⟩ := hx s hs.first
  obtain ⟨_, _, hyields', hb, hσ'⟩ := hy s' hs.second
  cases hrun.symm.trans hyields
  cases hrun'.symm.trans hyields'
  exact ⟨⟨ha, hb⟩, hσ, hσ'⟩

theorem report_yields (e : Event α) :
    Yields P₀ (Run.report e : Run ω α n Unit) fun _ ↦ True :=
  fun _ hσ ↦ ⟨(), _, rfl, trivial, hσ⟩

theorem lift_matched {Q : A → B → Prop} {r : Except Breakdown A} {r' : Except Breakdown B}
    (h : ∀ a b, r = .ok a → r' = .ok b → Q a b) :
    Matched (Session.BothHold P₀) Q (Run.lift r : Run ω α n A) (Run.lift r' : Run ω α n B) := by
  intro s s' hs a _ b _ hrun hrun'
  cases r with
  | error cause => cases hrun
  | ok a =>
    cases r' with
    | error cause => cases hrun'
    | ok b =>
      cases hrun
      cases hrun'
      exact ⟨h _ _ rfl rfl, hs⟩

end Parts

/-! ## The search -/

/-- Two runs are interrupted for the same reason. -/
inductive Interrupt.ScaledBy (t : Scale K) : Interrupt (Exact G) n → Interrupt (Exact G) n → Prop
  | breakdown (cause : Breakdown) : ScaledBy t (.breakdown cause) (.breakdown cause)
  | search {e e' : SearchError (Exact G)} (k : ℕ) (calls : Calls) (x : Vec (Exact G) n) :
      Fault.ScaledBy t (.search e) (.search e') →
      ScaledBy t (.stopped (.search e) k calls x) (.stopped (.search e') k calls x)

/-- The second iterate is the first one in the new unit. Where the gradient vanishes at the start, a
run takes 1 for its first step in any unit. It does not come to use it. -/
structure Iterate.ScaledBy (t : Scale K) (it it' : Iterate (Exact G) n) : Prop where
  iteration : it'.iteration = it.iteration
  x : it'.x = it.x
  value : it'.value = it.value.scaled t 1
  gradient : it'.gradient = it.gradient.scaled t 1
  direction : it'.direction = it.direction.scaled t 1
  alpha : 0 < it.iteration ∨ (Vec.infNorm it.gradient == 0.0) = false →
    it'.alpha = it.alpha.scaled t (-1)
  calls : it'.calls = it.calls

theorem Iterate.ScaledBy.interrupt (hit : it.ScaledBy t it') (calls : Calls)
    {e e' : Fault (Exact G)} (h : e.ScaledBy t e') :
    Interrupt.ScaledBy t (it.interrupt calls e) (it'.interrupt calls e') := by
  cases h with
  | breakdown cause => exact .breakdown cause
  | stepNotPositive u =>
    rw [Iterate.interrupt, Iterate.interrupt, hit.x, hit.iteration]
    exact .search _ _ _ (.stepNotPositive u)
  | tooManyReductions =>
    rw [Iterate.interrupt, Iterate.interrupt, hit.x, hit.iteration]
    exact .search _ _ _ .tooManyReductions

theorem searching_scaled {Q : A → B → Prop} {act : Search (Trial ω (Exact G) n) (Exact G) A}
    {act' : Search (Trial ω (Exact G) n) (Exact G) B}
    (h : Coupled (Bench.ScaledBy t) Q (Fault.ScaledBy t) act act') (hit : it.ScaledBy t it')
    (calls : Calls) (cache : Cache (Exact G)) :
    Coupled (Session.BothHold P₀) (fun r r' ↦ Q r.1 r'.1 ∧ r'.2 = r.2.scaled t)
      (Interrupt.ScaledBy t) (Run.searching it calls cache act)
      (Run.searching it' calls (cache.scaled t) act') := by
  intro s s' hs
  have hpaired := h (it.bench s cache) (it'.bench s' (cache.scaled t)) ⟨rfl, rfl⟩
  rcases hrun : act.run (it.bench s cache) with ⟨e | a, b⟩ <;>
    rcases hrun' : act'.run (it'.bench s' (cache.scaled t)) with ⟨e' | a', b'⟩ <;>
    rw [hrun, hrun'] at hpaired
  · rw [run_searching_error hrun, run_searching_error hrun']
    cases hpaired with
    | error hfault => exact .error (hit.interrupt calls hfault) ⟨hs.first, hs.second⟩
  · cases hpaired
  · cases hpaired
  · rw [run_searching hrun, run_searching hrun']
    cases hpaired with
    | ok hab hb => exact .ok ⟨hab, hb.cache⟩ ⟨hs.first, hs.second⟩

variable [IsStrictOrderedRing K]

theorem ofObjective_scaled (hf : f.Evaluates F g)
    (hf' : f'.Evaluates (fun x ↦ (F x).scaled t 1) fun x ↦ (g x).scaled t 1)
    (x s : Vec (Exact G) n) :
    (LineFunction.ofObjective f x s).ScaledBy t (.ofObjective f' x (s.scaled t 1)) := by
  intro u
  refine ⟨F (Vec.along x s u), LineFunction.value_returns (hf.value _), ?_⟩
  refine LineFunction.value_returns ?_
  rw [Vec.along_scaled]
  exact hf'.value _

/-- The search finds a step of degree `-1` with the same evaluations, or gives up. -/
theorem searchStep_scaled (hm : m.lineSearch = p.lineSearch) (hf : f.Evaluates F g)
    (hf' : f'.Evaluates (fun x ↦ (F x).scaled t 1) fun x ↦ (g x).scaled t 1)
    (hit : it.ScaledBy t it') (halpha : it'.alpha = it.alpha.scaled t (-1))
    (s : Vec (Exact G) n) (slope : Exact G) :
    Coupled (Session.BothHold P₀) (fun r r' ↦ r' = (r.1.scaled t (-1), r.2))
      (Interrupt.ScaledBy t) (m.searchStep f it s slope)
      (m.searchStep f' it' (s.scaled t 1) (slope.scaled t 2)) := by
  have hφ := ofObjective_scaled hf hf' it.x s
  have hcache : Cache.seeded ⟨0.0, it'.value, slope.scaled t 2⟩ =
      (Cache.seeded ⟨0.0, it.value, slope⟩).scaled t := by
    simp [Cache.seeded, Cache.scaled, Sample.scaled, hit.value]
  unfold searchStep predict
  rw [hm, hit.x, hit.calls, hcache, halpha]
  refine Coupled.bind (Q := fun q q' ↦ q' =
    ⟨q.trial.scaled t (-1), q.mayAccept, q.cache.scaled t, q.calls⟩) ?_ ?_
  · -- the predictions correspond
    refine (searching_scaled (TrialStep.propose_scaled hφ rfl it.alpha) hit it.calls _).bind ?_
    rintro ⟨⟨_, calls⟩, cache⟩ ⟨_, _⟩ ⟨rfl, rfl⟩
    exact .pure rfl
  · rintro q _ rfl
    -- from predictions that correspond, the searches do
    have hsearch := Backtracking.step_scaled p hφ q.trial
    refine (searching_scaled hsearch hit q.calls q.cache).bind ?_
    rintro ⟨r, _⟩ ⟨_, _⟩ ⟨rfl, -⟩
    exact .pure rfl

/-! ## One iteration -/

/-- Both runs have no direction, or move to iterates that correspond. The verdicts may differ. -/
inductive Advance.ScaledBy (t : Scale K) : Advance (Exact G) n → Advance (Exact G) n → Prop
  | stuck : ScaledBy t .stuck .stuck
  | moved {it it' : Iterate (Exact G) n} (verdict verdict' : Verdict) :
      it.ScaledBy t it' → ScaledBy t (.moved it verdict) (.moved it' verdict')

/-- A direction is left only where the gradient does not vanish. -/
theorem infNorm_of_recovered {a s : Vec (Exact G) n} (h : (descentRestart a s).recovered = true) :
    (Vec.infNorm a == 0.0) = false := by
  by_contra hzero
  rw [Bool.not_eq_false] at hzero
  rw [Vec.eq_zero_of_infNorm hzero, recovered_eq_false_iff.mpr rfl] at h
  cases h

theorem Iterate.ScaledBy.step (h : it.ScaledBy t it')
    (hrecovered : (descentRestart it.gradient it.direction).recovered = true) :
    it'.alpha = it.alpha.scaled t (-1) :=
  h.alpha (.inr (infNorm_of_recovered hrecovered))

theorem Iterate.ScaledBy.descent (h : it.ScaledBy t it') :
    descentRestart it'.gradient it'.direction =
      (descentRestart it.gradient it.direction).scaled t := by
  rw [h.gradient, h.direction, descentRestart_scaled]

section Steady

variable {P : Operator (Exact G) n} (hP : m.Steady P₀ P) (hf : f.Evaluates F g)
  (hf' : f'.Evaluates (fun x ↦ (F x).scaled t 1) fun x ↦ (g x).scaled t 1)
  (view : Vec (Exact G) n → Tensor (Exact G))

include hP hf hf'

/-- The first iterates correspond, unless both the starting point and the value there are zero. -/
theorem start_scaled {x : Vec (Exact G) n} (hx : x ≠ Vec.num 0 ∨ F x ≠ 0.0) :
    Matched (Session.BothHold P₀) (Iterate.ScaledBy t) (m.start f view x) (m.start f' view x) := by
  have hsize : (Vec.infNorm x == 0.0) = false ∨ (F x == 0.0) = false :=
    hx.imp (fun h ↦ Bool.eq_false_iff.mpr fun hzero ↦ h (Vec.eq_zero_of_infNorm hzero))
      fun h ↦ Bool.eq_false_iff.mpr fun hzero ↦ h (Exact.eq_of_beq hzero)
  unfold start
  refine ((evaluate_yields (hf.both x)).matched (evaluate_yields (hf'.both x))).bind ?_
  rintro _ _ ⟨rfl, rfl⟩
  refine Matched.ite (by rw [Exact.isFinite_scaled]) (fun _ ↦ ?_) fun _ ↦ .throw
  refine Matched.ite (by rw [Vec.allFinite_scaled]) (fun _ ↦ ?_) fun _ ↦ .throw
  refine (lift_matched (Q := fun u u' ↦ (Vec.infNorm (g x) == 0.0) = false →
    u' = u.scaled t (-1)) fun u u' hu hu' hgradient ↦ ?_).bind fun u u' hu ↦ ?_
  · rw [TrialStep.initial_scaled t _ hgradient hsize, hu] at hu'
    exact (Except.ok.inj hu').symm
  refine ((m.notify_yields view _).matched (m.notify_yields view _)).bind fun _ _ _ ↦ ?_
  refine ((hP.prepare_yields x).matched (hP.prepare_yields x)).bind ?_
  rintro _ _ ⟨rfl, rfl⟩
  refine .pure ⟨rfl, rfl, rfl, rfl, ?_, fun h ↦ hu (h.resolve_left (lt_irrefl 0)), rfl⟩
  simp only [Operator.forward_scaled, Vec.neg_scaled]

theorem advance_scaled (hm : m.lineSearch = p.lineSearch) (hit : it.ScaledBy t it') :
    Matched (Session.BothHold P₀) (Advance.ScaledBy t) (m.advance f view it)
      (m.advance f' view it') := by
  unfold advance
  rw [hit.descent, hit.x, hit.iteration, hit.value, hit.gradient]
  refine ((announce_yields _).matched (announce_yields _)).bind fun _ _ _ ↦ ?_
  refine Matched.ite Iff.rfl (fun hrecovered ↦ ?_) fun _ ↦ ?_
  · refine (Matched.of_coupled
      (searchStep_scaled hm hf hf' hit (hit.step hrecovered) _ _)).bind ?_
    rintro ⟨alpha, calls⟩ _ rfl
    refine ((evaluate_yields (hf.both _)).matched (evaluate_yields (hf'.both _))).bind ?_
    rintro _ _ ⟨rfl, rfl⟩
    simp only [Descent.scaled, Vec.moved_scaled]
    refine Matched.ite (by rw [Exact.isFinite_scaled]) (fun _ ↦ ?_) fun _ ↦ .throw
    refine (lift_matched (Q := fun _ _ ↦ True) fun _ _ _ _ ↦ trivial).bind
      fun verdict verdict' _ ↦ ?_
    refine ((hP.prepare_yields _).matched (hP.prepare_yields _)).bind ?_
    rintro _ _ ⟨rfl, rfl⟩
    refine ((m.notify_yields view _).matched (m.notify_yields view _)).bind fun _ _ _ ↦
      .pure (.moved verdict verdict' ?_)
    exact ⟨rfl, rfl, rfl, rfl, updateDirection_scaled .., fun _ ↦ rfl, rfl⟩
  · exact ((report_yields _).matched (report_yields _)).bind fun _ _ _ ↦ .pure .stuck

/-! ## Whole runs -/

/-- Runs that have visited equally many iterates have visited corresponding ones. -/
theorem Visits.scaled (hm : m.lineSearch = p.lineSearch) {x : Vec (Exact G) n}
    (hx : x ≠ Vec.num 0 ∨ F x ≠ 0.0) {σ₀ σ₀' σ σ' : Session ω (Exact G)}
    (hσ₀ : σ₀.preconditioner = P₀) (hσ₀' : σ₀'.preconditioner = P₀)
    {path path' : List (Iterate (Exact G) n)} {verdict verdict' : Verdict}
    (h : Visits m f view x σ₀ path verdict σ) (h' : Visits m f' view x σ₀' path' verdict' σ')
    (hlength : path.length = path'.length) :
    List.Forall₂ (Iterate.ScaledBy t) path path' ∧ Session.BothHold P₀ σ σ' := by
  induction h generalizing path' verdict' σ' with
  | start hstart =>
    cases h' with
    | start hstart' =>
      have hopened : Session.BothHold P₀ (m.opened σ₀) (m.opened σ₀') := ⟨hσ₀, hσ₀'⟩
      obtain ⟨hit, hσ⟩ := start_scaled hP hf hf' view hx _ _ hopened _ _ _ _ hstart hstart'
      exact ⟨.cons hit .nil, hσ⟩
    | move => simp at hlength
  | move hvisits _ _ hrun ih =>
    cases h' with
    | start => simp at hlength
    | move hvisits' _ _ hrun' =>
      obtain ⟨hpath, hσ⟩ := ih hvisits' (Nat.succ.inj hlength)
      obtain ⟨hmoved, hσ'⟩ := advance_scaled hP hf hf' view hm (List.forall₂_cons.mp hpath).1 _ _ hσ
        _ _ _ _ hrun hrun'
      cases hmoved with
      | moved _ _ hit => exact ⟨.cons hit hpath, hσ'⟩

end Steady

/-- What two runs have in common at iterates of which the second one is `t` times as high: the
point, the evaluations and the outcome of the restart test. The gradient and the direction, before
the test and after it, are multiplied by `t`, and the step that led there is divided by `t`. -/
structure Iterate.Rescaled (t : K) (it it' : Iterate (Exact G) n) : Prop where
  iteration : it'.iteration = it.iteration
  x : it'.x = it.x
  calls : it'.calls = it.calls
  value : it'.value = .num t * it.value
  gradient : it'.gradient = it.gradient.map (.num t * ·)
  direction : it'.direction = it.direction.map (.num t * ·)
  alpha : 0 < it.iteration → it'.alpha = it.alpha / .num t
  searched : (descentRestart it'.gradient it'.direction).direction =
    (descentRestart it.gradient it.direction).direction.map (.num t * ·)
  restarted : (descentRestart it'.gradient it'.direction).replaced.isSome =
    (descentRestart it.gradient it.direction).replaced.isSome
  recovered : (descentRestart it'.gradient it'.direction).recovered =
    (descentRestart it.gradient it.direction).recovered

theorem Iterate.ScaledBy.rescaled (h : it.ScaledBy t it') : it.Rescaled t.1 it' where
  iteration := h.iteration
  x := h.x
  calls := h.calls
  value := h.value.trans (Exact.scaled_one t _)
  gradient := h.gradient.trans (Vec.scaled_one t _)
  direction := h.direction.trans (Vec.scaled_one t _)
  alpha := fun hlt ↦ (h.alpha (.inl hlt)).trans (Exact.scaled_neg_one t _)
  searched := by rw [h.descent, Descent.scaled, Vec.scaled_one]
  restarted := by rw [h.descent, Descent.scaled, Option.isSome_map]
  recovered := by rw [h.descent, Descent.scaled]

/-- **Multiplying an objective by a positive number does not change the path of a run.** In exact
arithmetic, for an objective without a state of its own, a preconditioner that refreshing leaves
alone and a backtracking line search, from a starting point that is not zero or has a value that is
not zero:

* as many iterates as both runs visit correspond to each other. They are the same points, reached
  with the same evaluations and with steps that are divided by the number. They have the same
  restarts, and values, gradients and directions that are multiplied by the number;
* the line searches from such iterates either both find a step, one divided by the number, or both
  fail for the same reason with the same counters. -/
theorem visits_rescaled {P : Operator (Exact G) n} {t : K} (hm : m.lineSearch = p.lineSearch)
    (hP : m.Steady P₀ P) (hf : f.Evaluates F g) (ht : 0 < t)
    (hf' : f'.Evaluates (fun x ↦ .num t * F x) fun x ↦ (g x).map (.num t * ·))
    {x : Vec (Exact G) n} (hx : x ≠ Vec.num 0 ∨ F x ≠ 0.0)
    (view : Vec (Exact G) n → Tensor (Exact G)) {σ₀ σ₀' : Session ω (Exact G)}
    (hσ₀ : σ₀.preconditioner = P₀) (hσ₀' : σ₀'.preconditioner = P₀) :
    (∀ path path' verdict verdict' σ σ', Visits m f view x σ₀ path verdict σ →
      Visits m f' view x σ₀' path' verdict' σ' → path.length = path'.length →
      List.Forall₂ (Iterate.Rescaled t) path path') ∧
    ∀ it it' past past' verdict verdict' σ σ', Visits m f view x σ₀ (it :: past) verdict σ →
      Visits m f' view x σ₀' (it' :: past') verdict' σ' → past.length = past'.length →
      let d := descentRestart it.gradient it.direction
      let d' := descentRestart it'.gradient it'.direction
      d.recovered = true →
      Coupled (Session.BothHold P₀) (fun r r' ↦ r' = (r.1 / .num t, r.2))
        (Interrupt.ScaledBy ⟨t, ht⟩) (m.searchStep f it d.direction d.slope)
        (m.searchStep f' it' d'.direction d'.slope) := by
  let unit : Scale K := ⟨t, ht⟩
  have hscaled : f'.Evaluates (fun x ↦ (F x).scaled unit 1) fun x ↦ (g x).scaled unit 1 := by
    simp only [Exact.scaled_one, Vec.scaled_one]
    exact hf'
  constructor
  · intro path path' verdict verdict' σ σ' h h' hlength
    have hpath := (Visits.scaled hP hf hscaled view hm hx hσ₀ hσ₀' h h' hlength).1
    exact hpath.imp fun _ _ ↦ Iterate.ScaledBy.rescaled
  · intro it it' past past' verdict verdict' σ σ' h h' hlength d d' hrecovered
    have hscaledBy := Visits.scaled hP hf hscaled view hm hx hσ₀ hσ₀' h h'
    have hit := (List.forall₂_cons.mp (hscaledBy (congrArg (· + 1) hlength)).1).1
    have hd : d' = d.scaled unit := hit.descent
    rw [hd]
    refine (searchStep_scaled hm hf hscaled hit (hit.step hrecovered) _ _).imp ?_ fun _ _ ↦ id
    rintro r _ rfl
    rw [Exact.scaled_neg_one]

omit [IsStrictOrderedRing K] in
theorem exists_visits_of_iterations {view : Vec (Exact G) n → Tensor (Exact G)}
    {x : Vec (Exact G) n} {σ₀ : Session ω (Exact G)} {k : ℕ}
    (h : (m.minimizeFrom f view x σ₀).1.outcome.toOption.map Results.iterations = some k) :
    ∃ it past verdict σ, Visits m f view x σ₀ (it :: past) verdict σ ∧ past.length = k := by
  obtain ⟨r, hr, hiterations⟩ := exists_ok_of_map_toOption h
  obtain ⟨it, past, verdict, σ, hvisits, -, -, hlast, -⟩ := exists_last_of_ok hr
  refine ⟨it, past, verdict, σ, hvisits, ?_⟩
  rw [← hvisits.iteration_eq_length, ← hlast, hiterations]

/-- Two iterations on `½ (x² + 3 y²)` and on `x² + 3 y²` from `(3, 1)`. -/
theorem visits_rescaled_plane :
    let q : Quadratic (Exact Grid.rational) 2 := .num (Matrix.diagonal ![1, 3]) 0
    let f : Objective Unit (Exact Grid.rational) 2 := .ofFunctions q.value q.gradient
    let f' : Objective Unit (Exact Grid.rational) 2 :=
      .ofFunctions (.num 2 * q.value ·) fun x ↦ (q.gradient x).map (.num 2 * ·)
    let m := backtrackingMinimizer
    let σ₀ : Session Unit (Exact Grid.rational) := { world := (), preconditioner := .identity }
    ∃ it past it' past', past.length = 2 ∧ past'.length = 2 ∧
      List.Forall₂ (Iterate.Rescaled 2) (it :: past) (it' :: past') ∧
      (∃ verdict σ, Visits m f (⟨[2], ·⟩) (Vec.num ![3, 1]) σ₀ (it :: past) verdict σ) ∧
      ∃ verdict σ, Visits m f' (⟨[2], ·⟩) (Vec.num ![3, 1]) σ₀ (it' :: past') verdict σ := by
  intro q f f' m σ₀
  have hrun : (m.minimizeFrom f (⟨[2], ·⟩) (Vec.num ![3, 1]) σ₀).1.outcome.toOption.map
      Results.iterations = some 2 := by
    decide +kernel
  have hrun' : (m.minimizeFrom f' (⟨[2], ·⟩) (Vec.num ![3, 1]) σ₀).1.outcome.toOption.map
      Results.iterations = some 2 := by
    decide +kernel
  obtain ⟨it, past, verdict, σ, h, hlength⟩ := exists_visits_of_iterations hrun
  obtain ⟨it', past', verdict', σ', h', hlength'⟩ := exists_visits_of_iterations hrun'
  have hsteady : m.Steady .identity (.identity : Operator (Exact Grid.rational) 2) :=
    ⟨fun _ ↦ .pure _, rfl⟩
  have hx : (Vec.num ![3, 1] : Vec (Exact Grid.rational) 2) ≠ Vec.num 0 :=
    Vec.num_injective.ne (by decide)
  have hheld : σ₀.preconditioner = .identity := rfl
  have hrescaled := (visits_rescaled (p := .default) rfl hsteady
    (Objective.evaluates_ofFunctions q.value q.gradient) zero_lt_two
    (Objective.evaluates_ofFunctions _ _) (.inl hx) (⟨[2], ·⟩) hheld hheld).1
  refine ⟨it, past, it', past', hlength, hlength', ?_, ⟨_, _, h⟩, _, _, h'⟩
  exact hrescaled _ _ _ _ _ _ h h' (by rw [List.length_cons, List.length_cons, hlength, hlength'])

end Minimizer

end NonlinearCG
