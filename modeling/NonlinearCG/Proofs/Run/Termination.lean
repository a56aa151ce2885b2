import Mathlib
import NonlinearCG.Proofs.Direction.Conjugacy
import NonlinearCG.Proofs.Exact.Quadratic
import NonlinearCG.Proofs.Run.Invariant

/-!
# Finite termination on quadratic functions

In exact arithmetic, with a constant preconditioner and a Hager–Zhang search without a largest step,
a run on a quadratic function of `n` variables is the linear method of conjugate gradients: every
search goes to the minimizer along its direction, no direction is replaced and no weight is
truncated. So the gradients of the iterates are orthogonal in the inner product of the
preconditioner, and there are at most `n` iterations.

`Conjugating` is the invariant. An iteration from a point that is not stationary preserves it
(`Conjugating.advance_yields`), hence all iterates of a run have it (`Visits.conjugating`).
-/

namespace NonlinearCG

open Matrix

variable {ω K : Type} [Field K] [LinearOrder K] {G : Grid K} {n : ℕ}
  {A M : Matrix (Fin n) (Fin n) K} {b : Fin n → K} {f : Objective ω (Exact G) n}
  {P₀ : Preconditioner (Exact G)} {P : Operator (Exact G) n} {m : Minimizer ω (Exact G)}

namespace Minimizer

/-- A minimizer with a constant preconditioner and an objective that is a quadratic function. -/
structure OnQuadratic (m : Minimizer ω (Exact G)) (P₀ : Preconditioner (Exact G))
    (f : Objective ω (Exact G) n) (A M : Matrix (Fin n) (Fin n) K) (b : Fin n → K) : Prop where
  spd : SPD A
  objective : f.IsQuadratic A b
  /-- The preconditioner acts as the matrix `M`, and refreshing leaves it alone. -/
  preconditioner : ∃ P : Operator (Exact G) n, m.Steady P₀ P ∧ P.Acts M
  eta : ∃ eta, 0 < eta ∧ m.options.eta = .num eta
  ftol : ∃ ftol, 0 < ftol ∧ m.options.ftol = .num ftol
  lineSearch : ∃ p : HagerZhang (Exact G), p.Unbounded ∧ m.lineSearch = p.lineSearch
  /-- The gap at a positive number is smaller than the number. -/
  gap : ∀ x, 0 < x → G.spacing x < x

/-! ## Iterates as stages -/

def Iterate.stage (it : Iterate (Exact G) n) : Stage K n :=
  ⟨Vec.numbers it.gradient, Vec.numbers it.direction⟩

/-- The gradient and the direction of an iterate are vectors of numbers. -/
def Iterate.Numeric (it : Iterate (Exact G) n) : Prop :=
  it.gradient = Vec.num it.stage.gradient ∧ it.direction = Vec.num it.stage.direction

/-- What holds of an iterate of a run on a quadratic function, after earlier ones. -/
structure Conjugating (A M : Matrix (Fin n) (Fin n) K) (b : Fin n → K) (it : Iterate (Exact G) n)
    (past : List (Iterate (Exact G) n)) : Prop where
  point : ∃ x, it.x = Vec.num x ∧ it.value = .num (quadraticValue A b x) ∧
    it.stage.gradient = A *ᵥ x - b
  alpha : ∃ a, 0 < a ∧ it.alpha = .num a
  numeric : ∀ i ∈ it :: past, i.Numeric
  conjugate : Conjugate A M it.stage (past.map Iterate.stage)

namespace Conjugating

variable {it : Iterate (Exact G) n} {past : List (Iterate (Exact G) n)}

theorem of_numbers {x s : Fin n → K} {a : K} (ha : 0 < a) (hpast : ∀ i ∈ past, i.Numeric)
    (h : Conjugate A M ⟨A *ᵥ x - b, s⟩ (past.map Iterate.stage)) (k : ℕ) (calls : Calls) :
    Conjugating A M b ⟨k, Vec.num x, .num (quadraticValue A b x), Vec.num (A *ᵥ x - b), Vec.num s,
      .num a, calls⟩ past := by
  refine ⟨⟨x, rfl, rfl, Vec.numbers_num _⟩, ⟨a, ha, rfl⟩, List.forall_mem_cons.mpr ⟨?_, hpast⟩, ?_⟩
  · simp [Iterate.Numeric, Iterate.stage]
  · simpa [Iterate.stage] using h

theorem gradients (h : Conjugating A M b it past) :
    (it :: past).Pairwise fun i j ↦ Vec.Orthogonal M i.gradient j.gradient := by
  have hpairs := h.conjugate.orthogonal
  rw [← List.map_cons, List.pairwise_map] at hpairs
  exact hpairs.imp_of_mem fun hi hj hij ↦ ⟨_, _, (h.numeric _ hi).1, (h.numeric _ hj).1, hij⟩

theorem directions (h : Conjugating A M b it past) :
    (it :: past).Pairwise fun i j ↦ Vec.Orthogonal A i.direction j.direction := by
  have hpairs := h.conjugate.conjugate
  rw [← List.map_cons, List.pairwise_map] at hpairs
  exact hpairs.imp_of_mem fun hi hj hij ↦ ⟨_, _, (h.numeric _ hi).2, (h.numeric _ hj).2, hij⟩

theorem length_le (hM : SPD M) (h : Conjugating A M b it past) : past.length ≤ n := by
  have hlength := h.conjugate.length_past_le hM
  rwa [List.length_map] at hlength

theorem length_lt (hM : SPD M) (h : Conjugating A M b it past) (hg : it.stage.gradient ≠ 0) :
    past.length < n := by
  have hlength := h.conjugate.length_past_lt hM hg
  rwa [List.length_map] at hlength

variable [IsStrictOrderedRing K]

/-- The restart test fails only where the gradient vanishes. -/
theorem not_recovered_iff (h : Conjugating A M b it past) :
    (descentRestart it.gradient it.direction).recovered = false ↔ it.stage.gradient = 0 := by
  rw [(h.numeric it List.mem_cons_self).1]
  exact recovered_eq_false_iff

theorem restart_direction (hM : SPD M) (h : Conjugating A M b it past) :
    (descentRestart it.gradient it.direction).direction = it.direction := by
  obtain ⟨hgradient, hdirection⟩ := h.numeric it List.mem_cons_self
  rw [hgradient, hdirection]
  by_cases hg : it.stage.gradient = 0
  · -- the direction has vanished with the gradient, and is replaced by itself
    rw [h.conjugate.stationary hg, hg, descentRestart_of_not_lt (Vec.not_dot_zero_neg _),
      Vec.neg_num, neg_zero]
  · rw [descentRestart_num_of_neg (h.conjugate.slope_neg hM hg)]

end Conjugating

end Minimizer

variable [IsStrictOrderedRing K]

/-! ## The start of a run -/

theorem Tolerances.exists_assess (tol : Tolerances (Exact G)) {ftol : K} (hftol : 0 < ftol)
    (htol : tol.ftol = .num ftol) (move norm : Exact G) (v v' : K) :
    ∃ verdict, tol.assess move (.num v) (.num v') norm = .ok verdict := by
  have hne : |v| + ftol ≠ 0 := (add_pos_of_nonneg_of_pos (abs_nonneg v) hftol).ne'
  rw [assess, htol, Exact.num_sub, Exact.abs_num, Exact.abs_num, Exact.num_add,
    Exact.divide_num hne]
  exact ⟨_, rfl⟩

namespace Minimizer

theorem OnQuadratic.start_yields (h : m.OnQuadratic P₀ f A M b)
    (view : Vec (Exact G) n → Tensor (Exact G)) (x : Fin n → K) :
    Yields P₀ (m.start f view (Vec.num x)) fun it ↦ Conjugating A M b it [] := by
  obtain ⟨P, hP, hM⟩ := h.preconditioner
  obtain ⟨a, ha, halpha⟩ := TrialStep.exists_initial (G := G) x (A *ᵥ x - b) (quadraticValue A b x)
  have hstart := Minimizer.start_yields view (h.objective.both x) rfl
    (Vec.allFinite_iff.mpr ⟨_, rfl⟩) halpha hP
  refine hstart.imp ?_
  rintro _ rfl
  rw [hM.forward, Vec.neg_num]
  exact .of_numbers ha (by simp) (.steepest A M _) 0 .ofBoth

/-! ## One iteration -/

theorem predict_yields {it : Iterate (Exact G) n} {s : Vec (Exact G) n} {c : Valley K} {a : K}
    (h : (LineFunction.ofObjective f it.x s).Follows c) (hvalue : it.value = .num c.value)
    (ha : 0 < a) (halpha : it.alpha = .num a) :
    Yields P₀ (predict f it s (.num c.slope)) fun q ↦
      c.Predicts (1 / 5 * a) (q.trial, q.mayAccept) ∧ q.cache = .seeded (c.sample 0) := by
  have hseed : (⟨0.0, it.value, .num c.slope⟩ : Sample (Exact G)) = c.sample 0 := by
    rw [Valley.sample_zero, hvalue, Exact.zero_eq]
  rw [predict, hseed, halpha]
  have htest : 0 < 1 / 5 * a := by positivity
  refine Yields.bind (Q := fun r ↦ c.Predicts (1 / 5 * a) r.1.1 ∧ r.2 = .seeded (c.sample 0))
    (searching_yields fun b hb ↦ ?_) ?_
  · obtain ⟨r, b', hrun, hr, hcache⟩ := TrialStep.run_propose rfl h htest
      (TrialStep.default_test a) (b := b) (by rw [hb]; rfl)
    exact ⟨_, b', hrun, hr, hcache.trans hb⟩
  · rintro ⟨⟨⟨trial, mayAccept⟩, calls⟩, cache⟩ ⟨hr, hcache⟩
    exact .pure ⟨hr, hcache⟩

theorem searchStep_yields {p : HagerZhang (Exact G)} (hp : p.Unbounded)
    (hm : m.lineSearch = p.lineSearch) (hgap : ∀ x, 0 < x → G.spacing x < x)
    {it : Iterate (Exact G) n} {s : Vec (Exact G) n} {c : Valley K} {a : K}
    (h : (LineFunction.ofObjective f it.x s).Follows c) (hvalue : it.value = .num c.value)
    (ha : 0 < a) (halpha : it.alpha = .num a) :
    Yields P₀ (m.searchStep f it s (.num c.slope)) fun r ↦ r.1 = .num c.bottom := by
  rw [searchStep]
  refine (predict_yields h hvalue ha halpha).bind ?_
  rintro ⟨trial, mayAccept, cache, calls⟩ ⟨hr, hcache⟩
  refine Yields.bind (Q := fun r ↦ r.1.alpha = .num c.bottom) (searching_yields fun b hb ↦ ?_) ?_
  · have htest : 0 < 1 / 5 * a := by positivity
    obtain ⟨calls', b', hrun⟩ := HagerZhang.run_step hp hgap h htest hr (b := b)
      (by rw [hb, hcache]; rfl)
    rw [hm]
    exact ⟨⟨.num c.bottom, calls'⟩, b', hrun, rfl⟩
  · rintro ⟨step, cache'⟩ halpha'
    exact .pure halpha'

/-- An iteration from a point that is not stationary goes to the minimizer along the direction, and
preserves the invariant. -/
theorem Conjugating.advance_yields (h : m.OnQuadratic P₀ f A M b)
    (view : Vec (Exact G) n → Tensor (Exact G)) {it : Iterate (Exact G) n}
    {past : List (Iterate (Exact G) n)} (hit : Conjugating A M b it past)
    (hg : it.stage.gradient ≠ 0) :
    Yields P₀ (m.advance f view it) fun r ↦ ∃ it' verdict, r = .moved it' verdict ∧
      Conjugating A M b it' (it :: past) := by
  obtain ⟨hA, hf, ⟨P, hP, hM⟩, ⟨eta, heta, hmeta⟩, ⟨ftol, hftol, hmftol⟩, ⟨p, hp, hm⟩, hgap⟩ := h
  obtain ⟨⟨x, hx, hvalue, hgradient⟩, ⟨a, ha, halpha⟩, hnumeric, hconjugate⟩ := hit
  obtain ⟨hitg, hits⟩ := hnumeric it List.mem_cons_self
  have hslope := hconjugate.slope_neg hM.spd hg
  have hrestart := descentRestart_num_of_neg (G := G) hslope
  rw [← hitg, ← hits] at hrestart
  -- along the direction the objective is a parabola, and the search goes to its minimizer
  let c : Valley K := ⟨quadraticValue A b x, it.stage.gradient ⬝ᵥ it.stage.direction,
    it.stage.direction ⬝ᵥ A *ᵥ it.stage.direction, hslope, hconjugate.curvature_pos hA hM.spd hg⟩
  have hfollows : (LineFunction.ofObjective f it.x it.direction).Follows c := by
    rw [hx, hits]
    exact hf.follows hA rfl (by rw [← hgradient]) rfl
  have hstep : Yields P₀ (m.searchStep f it it.direction (.num c.slope)) fun r ↦
      r.1 = .num c.bottom :=
    searchStep_yields hp hm hgap hfollows hvalue ha halpha
  let x' := x + it.stage.exactStep A • it.stage.direction
  have hmoved : Vec.moved it.x it.direction (.num c.bottom) = Vec.num x' := by
    rw [hx, hits, Vec.moved_num]
    rfl
  have hnext : A *ᵥ x' - b = it.stage.nextGradient A := by
    rw [gradient_along, ← hgradient, Stage.nextGradient]
  obtain ⟨verdict, hverdict⟩ := m.options.tolerances.exists_assess hftol hmftol
    (Vec.maxDiff (Vec.num x') it.x) (Vec.infNorm (Vec.num (A *ᵥ x' - b))) (quadraticValue A b x')
    (quadraticValue A b x)
  rw [← hvalue] at hverdict
  -- at the minimizer the update is that of the linear method
  have hdirection := hconjugate.updateDirection_eq hA hM.spd hg hM heta
  rw [← hnext, ← hmeta, ← hits, ← hitg] at hdirection
  have hmoves :=
    Minimizer.advance_yields view hrestart rfl hstep hmoved (hf.both x') rfl hverdict hP
  refine hmoves.imp ?_
  rintro _ ⟨calls, rfl⟩
  refine ⟨_, verdict, rfl, ?_⟩
  rw [hdirection]
  refine .of_numbers (hconjugate.exactStep_pos hA hM.spd hg) hnumeric ?_ _ _
  rw [hnext]
  exact hconjugate.next hA hM.spd hg

/-! ## The whole run -/

section Run

variable {view : Vec (Exact G) n → Tensor (Exact G)} {x₀ : Fin n → K} {σ₀ σ : Session ω (Exact G)}
  {it : Iterate (Exact G) n} {past : List (Iterate (Exact G) n)} {verdict : Verdict}

/-- Every iterate of a run on a quadratic function satisfies the invariant. -/
theorem Visits.conjugating (h : m.OnQuadratic σ₀.preconditioner f A M b)
    (hvisits : Visits m f view (Vec.num x₀) σ₀ (it :: past) verdict σ) :
    Conjugating A M b it past ∧ σ.preconditioner = σ₀.preconditioner := by
  induction hvisits using Visits.head_induction with
  | start hstart =>
    obtain ⟨_, _, hrun, hit, hσ⟩ := h.start_yields view x₀ (m.opened σ₀) rfl
    cases hrun.symm.trans hstart
    exact ⟨hit, hσ⟩
  | @move it₀ _ _ _ _ σ _ _ _ _ hrun ih =>
    obtain ⟨hit, hσ⟩ := ih
    have hg : it₀.stage.gradient ≠ 0 := by
      -- otherwise the iteration would have been stuck
      intro hzero
      obtain ⟨_, hstuck⟩ :=
        run_advance_of_not_recovered m f view σ (hit.not_recovered_iff.mpr hzero)
      cases hstuck.symm.trans hrun
    obtain ⟨_, _, hadvance, ⟨it'', verdict'', rfl, hit'⟩, hσ'⟩ := hit.advance_yields h view hg σ hσ
    cases hadvance.symm.trans hrun
    exact ⟨hit', hσ'⟩

theorem OnQuadratic.exists_ending (h : m.OnQuadratic σ₀.preconditioner f A M b)
    (view : Vec (Exact G) n → Tensor (Exact G)) (x₀ : Fin n → K) :
    ∃ e σ', (m.run f view (Vec.num x₀)).run (m.opened σ₀) = (.ok e, σ') := by
  obtain ⟨it, σ, hstart, -, -⟩ := h.start_yields view x₀ (m.opened σ₀) rfl
  refine Minimizer.exists_ending hstart ?_
  rintro it past σ ⟨verdict, hvisits, -, -⟩
  obtain ⟨hit, hσ⟩ := hvisits.conjugating h
  by_cases hg : it.stage.gradient = 0
  · obtain ⟨σ', hrun⟩ := run_advance_of_not_recovered m f view σ (hit.not_recovered_iff.mpr hg)
    exact ⟨_, σ', hrun⟩
  · obtain ⟨r, σ', hrun, -, -⟩ := hit.advance_yields h view hg σ hσ
    exact ⟨r, σ', hrun⟩

/-- **Finite termination.** A run on a quadratic function `½ xᵀ A x - bᵀ x` of `n` variables, with a
constant preconditioner that acts as `M` and an unbounded Hager–Zhang search:

* it returns after at most `n` iterations, with a convergence flag or at a point where the gradient
  vanishes, unless its budget is less than `n` and used up;
* the gradients of all its iterates are orthogonal in the inner product of `M`, their directions in
  that of `A`, and the restart test leaves the directions alone. -/
theorem minimizeFrom_quadratic (h : m.OnQuadratic σ₀.preconditioner f A M b)
    (view : Vec (Exact G) n → Tensor (Exact G)) (x₀ : Fin n → K) :
    (∃ r x, (m.minimizeFrom f view (Vec.num x₀) σ₀).1.outcome = .ok r ∧ r.iterations ≤ n ∧
      r.minimum = view (Vec.num x) ∧
      (r.converged = true ∨ A *ᵥ x - b = 0 ∨
        r.termination = .iterationLimit ∧ r.iterations = m.budget ∧ m.budget < n)) ∧
    ∀ it past verdict σ, Visits m f view (Vec.num x₀) σ₀ (it :: past) verdict σ →
      it.iteration ≤ n ∧
      ((it :: past).Pairwise fun i j ↦ Vec.Orthogonal M i.gradient j.gradient) ∧
      ((it :: past).Pairwise fun i j ↦ Vec.Orthogonal A i.direction j.direction) ∧
      (descentRestart it.gradient it.direction).direction = it.direction := by
  obtain ⟨P, -, hM⟩ := h.preconditioner
  constructor
  · obtain ⟨e, σ', hrun⟩ := h.exists_ending view x₀
    obtain ⟨trace, houtcome⟩ := exists_ok_of_ending hrun
    obtain ⟨it, past, verdict, σ, hvisits, hends⟩ := exists_last hrun
    obtain ⟨hit, -⟩ := hvisits.conjugating h
    obtain ⟨x, hx, -, hgradient⟩ := hit.point
    have hlength := hvisits.iteration_eq_length
    refine ⟨_, x, houtcome, ?_, ?_, ?_⟩
    · change e.last.iteration ≤ n
      rw [hends.last_eq, hlength]
      exact hit.length_le hM.spd
    · change view e.last.x = _
      rw [hends.last_eq, hx]
    · cases hends with
      | converged hverdict => exact Or.inl hverdict
      | exhausted _ hbudget =>
        by_cases hg : it.stage.gradient = 0
        · rw [hgradient] at hg
          exact Or.inr (Or.inl hg)
        · -- one gradient more than iterations, all of them independent
          refine Or.inr (Or.inr ⟨rfl, hbudget, ?_⟩)
          rw [← hbudget, hlength]
          exact hit.length_lt hM.spd hg
      | stuck _ _ hrecovered =>
        have hg := hit.not_recovered_iff.mp hrecovered
        rw [hgradient] at hg
        exact Or.inr (Or.inl hg)
  · intro it past verdict σ hvisits
    obtain ⟨hit, -⟩ := hvisits.conjugating h
    refine ⟨?_, hit.gradients, hit.directions, hit.restart_direction hM.spd⟩
    rw [hvisits.iteration_eq_length]
    exact hit.length_le hM.spd

end Run

theorem default_onQuadratic (limit : ℕ → Limit) :
    ({ defaultMinimizer with options := .default limit } :
      Minimizer Unit (Exact Grid.rational)).OnQuadratic .identity
      (.ofFunctions (Quadratic.num (Matrix.diagonal ![1, 3]) 0).value
        (Quadratic.num (Matrix.diagonal ![1, 3]) 0).gradient)
      (Matrix.diagonal (![1, 3] : Fin 2 → ℚ)) 1 0 where
  spd := Operator.spd_diagonal fun i ↦ by fin_cases i <;> norm_num
  objective := Quadratic.isQuadratic_ofFunctions _ 0
  preconditioner := ⟨.identity, ⟨fun _ ↦ .pure _, rfl⟩, Operator.identity_acts⟩
  eta := ⟨2 / 5, by norm_num, Options.default_eta limit⟩
  ftol := ⟨1 / 10 ^ 8, by norm_num, Options.default_ftol limit⟩
  lineSearch := ⟨_, HagerZhang.default_unbounded, rfl⟩
  gap _ := Grid.rational_spacing_lt

/-- Two iterations are enough for two variables. -/
theorem minimizeFrom_quadratic_default :
    let A : Matrix (Fin 2) (Fin 2) ℚ := Matrix.diagonal ![1, 3]
    let q : Quadratic (Exact Grid.rational) 2 := .num A 0
    let σ₀ : Session Unit (Exact Grid.rational) := { world := (), preconditioner := .identity }
    ∃ r x, (defaultMinimizer.minimizeFrom (.ofFunctions q.value q.gradient) (⟨[2], ·⟩)
        (Vec.num ![3, 1]) σ₀).1.outcome = .ok r ∧ r.iterations ≤ 2 ∧
      r.minimum = ⟨[2], Vec.num x⟩ ∧ (r.converged = true ∨ A *ᵥ x - 0 = 0) := by
  intro A q σ₀
  have h : defaultMinimizer.OnQuadratic σ₀.preconditioner (.ofFunctions q.value q.gradient) A 1 0 :=
    default_onQuadratic _
  obtain ⟨⟨r, x, hr, hiterations, hminimum, hends⟩, -⟩ :=
    minimizeFrom_quadratic h (⟨[2], ·⟩) ![3, 1]
  refine ⟨r, x, hr, hiterations, hminimum, ?_⟩
  rcases hends with hconverged | hzero | ⟨-, -, hbudget⟩
  · exact Or.inl hconverged
  · exact Or.inr hzero
  · exact absurd hbudget (by decide)

/-- With a budget of one iteration the run ends before the gradient vanishes, and without a
convergence flag. -/
theorem minimizeFrom_quadratic_exhausted :
    let A : Matrix (Fin 2) (Fin 2) ℚ := Matrix.diagonal ![1, 3]
    let q : Quadratic (Exact Grid.rational) 2 := .num A 0
    let m : Minimizer Unit (Exact Grid.rational) :=
      { defaultMinimizer with options := .default fun _ ↦ ⟨1, true⟩ }
    let σ₀ : Session Unit (Exact Grid.rational) := { world := (), preconditioner := .identity }
    m.OnQuadratic σ₀.preconditioner (.ofFunctions q.value q.gradient) A 1 0 ∧
    ∃ r x, (m.minimizeFrom (.ofFunctions q.value q.gradient) (⟨[2], ·⟩) (Vec.num ![3, 1])
        σ₀).1.outcome = .ok r ∧
      r.minimum = ⟨[2], Vec.num x⟩ ∧ r.converged = false ∧ A *ᵥ x - 0 ≠ 0 := by
  intro A q m σ₀
  refine ⟨default_onQuadratic _, ?_⟩
  have hrun : ((m.minimizeFrom (.ofFunctions q.value q.gradient) (⟨[2], ·⟩) (Vec.num ![3, 1])
      σ₀).1.outcome.toOption.map fun r ↦ (r.converged, r.minimum.entries.toList)) =
      some (false, [.num (3 / 2), .num (-1 / 2)]) := by
    decide +kernel
  rcases houtcome : (m.minimizeFrom (.ofFunctions q.value q.gradient) (⟨[2], ·⟩) (Vec.num ![3, 1])
      σ₀).1.outcome with i | r
  · rw [houtcome] at hrun
    cases hrun
  · obtain ⟨e, _, trace, -, rfl⟩ := exists_ending_of_ok houtcome
    rw [houtcome] at hrun
    obtain ⟨hconverged, hlist⟩ := Prod.mk.inj (Option.some.inj hrun)
    have hx : e.last.x = Vec.num ![3 / 2, -1 / 2] := Vector.toList_inj.mp hlist
    refine ⟨_, _, rfl, congrArg (Tensor.mk [2]) hx, hconverged, ?_⟩
    intro hzero
    have hfirst := congrFun hzero 0
    norm_num [A, mulVec_diagonal] at hfirst

end Minimizer

end NonlinearCG
