import Mathlib
import NonlinearCG.Proofs.Direction.SufficientDescent
import NonlinearCG.Proofs.Exact.Quadratic
import NonlinearCG.Proofs.LineSearch.Prediction
import NonlinearCG.Proofs.Run.Descent

/-!
# What breaks a run down

A run with backtracking divides in four places: for its first step, in the quadratic fit of a
prediction, in the interpolation of the line search and in the convergence test. On an objective
whose values and gradients are numbers, and with a positive definite preconditioner, three of them
are safe. The first step is divided by the gradient only where this is not zero, a fit is made at a
positive step, and an interpolation at a value above the tangent. The convergence test divides by
`|f| + ftol`. It breaks down where a value is zero and `ftol` is, which the options allow.

`OnNumbers` is the invariant of the iterates. It needs a slope that has changed along the direction
that was searched, since the update divides by the change without a guard.
-/

namespace NonlinearCG

open Matrix

theorem Options.of_check {α κ : Type} [Scalar α] {limit? : κ → Option Limit} {o : Options α κ}
    {o' : Options α Limit} (h : o.check limit? = .ok o') : ¬o'.ftol < 0.0 ∧ ¬o'.eta ≤ 0.0 := by
  rw [check] at h
  rcases hlimit : limit? o.iterations with _ | limit
  · rw [hlimit] at h
    split_ifs at h
  · simp only [hlimit] at h
    split_ifs at h with _ hftol _ heta
    cases h
    exact ⟨hftol, heta⟩

variable {ω K : Type} [Field K] [LinearOrder K] {G : Grid K} {n : ℕ}
  {f : Objective ω (Exact G) n} {F : (Fin n → K) → K} {g : (Fin n → K) → Fin n → K}

/-- At points of numbers the objective returns the value and the gradient of a function, which are
numbers. -/
structure Objective.Everywhere (f : Objective ω (Exact G) n) (F : (Fin n → K) → K)
    (g : (Fin n → K) → Fin n → K) : Prop where
  value (x : Fin n → K) : Returns (f.value (Vec.num x)) (.num (F x))
  both (x : Fin n → K) : Returns (f.both (Vec.num x)) (.num (F x), Vec.num (g x))

theorem Objective.Everywhere.valued (hf : f.Everywhere F g) (x s : Fin n → K) :
    (LineFunction.ofObjective f (Vec.num x) (Vec.num s)).Valued := by
  intro t
  have hreturns := hf.value (x + t • s)
  rw [← Vec.along_num] at hreturns
  exact ⟨_, LineFunction.value_returns hreturns⟩

omit [LinearOrder K] in
theorem Objective.IsQuadratic.everywhere {A : Matrix (Fin n) (Fin n) K} {c : Fin n → K}
    (hf : f.IsQuadratic A c) : f.Everywhere (quadraticValue A c) fun x ↦ A *ᵥ x - c :=
  ⟨hf.value, hf.both⟩

variable [IsStrictOrderedRing K]

/-- The convergence test on numbers breaks down where the value and `ftol` are zero. -/
theorem Tolerances.assess_eq_error_iff (tol : Tolerances (Exact G)) (htol : ¬tol.ftol < 0.0)
    (move norm : Exact G) (v v' : K) (cause : Breakdown) :
    tol.assess move (.num v) (.num v') norm = .error cause ↔
      cause = .divisionByZero ∧ tol.ftol = .num 0 ∧ v = 0 := by
  have hdivisor : (.num |v| + tol.ftol == (.num 0 : Exact G)) = true ↔
      tol.ftol = .num 0 ∧ v = 0 := by
    rw [Exact.zero_eq] at htol
    cases hftol : tol.ftol with
    | num t =>
      rw [hftol, Exact.num_lt, not_lt] at htol
      rw [Exact.num_add, Exact.num_beq, decide_eq_true_eq, Exact.num_inj]
      constructor
      · intro h
        have habs := abs_nonneg v
        exact ⟨by linarith, abs_eq_zero.mp (by linarith)⟩
      · rintro ⟨rfl, rfl⟩
        rw [abs_zero, add_zero]
    | top | bot | nan => exact iff_of_false Bool.false_ne_true (by rintro ⟨⟨⟩, -⟩)
  rw [assess, Scalar.divide, Exact.zero_eq, Exact.abs_num]
  split_ifs with hzero
  · refine ⟨?_, ?_⟩
    · rintro ⟨⟩
      exact ⟨rfl, hdivisor.mp hzero⟩
    · rintro ⟨rfl, -⟩
      rfl
  · refine iff_of_false (by rintro ⟨⟩) ?_
    rintro ⟨-, hzeros⟩
    exact hzero (hdivisor.mpr hzeros)

namespace Minimizer

variable {m : Minimizer ω (Exact G)} {I : Preconditioner (Exact G) → Prop}
  {p : Backtracking (Exact G)} {it : Iterate (Exact G) n}

/-- The preconditioners of a class act as symmetric positive definite matrices, and refreshing leads
from each of them to one of the class. -/
structure KeepsPositive (m : Minimizer ω (Exact G)) (n : ℕ)
    (I : Preconditioner (Exact G) → Prop) : Prop where
  refresh {P : Preconditioner (Exact G)} (hP : I P) (x : Fin n → K) (w : ω) :
    ∃ P' w', (m.refresh P (Vec.num x).toArray).run w = (.ok P', w') ∧ I P'
  sized {P : Preconditioner (Exact G)} (hP : I P) :
    ∃ (Q : Operator (Exact G) n) (M : Matrix (Fin n) (Fin n) K),
      P.weighting.sized n = .ok Q ∧ Q.Acts M

/-! ## Parts of an iteration -/

omit [Field K] [LinearOrder K] [IsStrictOrderedRing K] in
theorem exists_run_evaluate (hf : f.Everywhere F g) (σ : Session ω (Exact G)) (x : Fin n → K) :
    ∃ w, (Run.evaluate (f.both (Vec.num x)) : Run ω (Exact G) n _).run σ =
      (.ok (.num (F x), Vec.num (g x)), { σ with world := w }) := by
  obtain ⟨w, hboth⟩ := hf.both x σ.world
  exact ⟨w, run_evaluate σ hboth⟩

omit [IsStrictOrderedRing K] in
theorem exists_run_prepare (hI : m.KeepsPositive n I) {σ : Session ω (Exact G)}
    (hσ : I σ.preconditioner) (x : Fin n → K) :
    ∃ (P : Operator (Exact G) n) (M : Matrix (Fin n) (Fin n) K) (σ' : Session ω (Exact G)),
      (m.prepare (Vec.num x)).run σ = (.ok P, σ') ∧ P.Acts M ∧ I σ'.preconditioner := by
  obtain ⟨P, w, hrefresh, hP⟩ := hI.refresh hσ x σ.world
  obtain ⟨Q, M, hQ, hM⟩ := hI.sized hP
  rcases hprepare : (m.prepare (Vec.num x)).run σ with ⟨i | Q', σ'⟩
  · obtain ⟨cause, -, -, ⟨_, hbroken⟩ | ⟨P', _, hrefresh', hbroken⟩⟩ :=
      (meets_prepare σ m _).of_run_error hprepare
    · cases hrefresh.symm.trans hbroken
    · cases hrefresh.symm.trans hrefresh'
      cases hQ.symm.trans hbroken
  · obtain ⟨P', w', hrefresh', hQ', rfl⟩ := (meets_prepare σ m _).of_run_ok hprepare
    cases hrefresh.symm.trans hrefresh'
    cases hQ.symm.trans hQ'
    exact ⟨Q, M, _, rfl, hM, hP⟩

/-! ## Iterates of numbers -/

/-- The data of an iterate are numbers: those of the function at its point, a positive step, and the
direction that is searched. -/
structure Iterate.OnNumbers (F : (Fin n → K) → K) (g : (Fin n → K) → Fin n → K)
    (it : Iterate (Exact G) n) : Prop where
  point : ∃ x, it.x = Vec.num x ∧ it.value = .num (F x) ∧ it.gradient = Vec.num (g x)
  alpha : ∃ a, 0 < a ∧ it.alpha = .num a
  searched : ∃ s : Fin n → K, it.searched = Vec.num s

theorem Iterate.OnNumbers.slope_neg (h : it.OnNumbers F g)
    (hrecovered : (descentRestart it.gradient it.direction).recovered = true) :
    ∃ d, (.num d : Exact G) < 0.0 ∧ it.slope = .num d := by
  obtain ⟨x, -, -, hgradient⟩ := h.point
  obtain ⟨s, hs⟩ := h.searched
  have hslope : it.slope = .num (g x ⬝ᵥ s) := by
    rw [Iterate.slope, descentRestart_slope, ← Iterate.searched, hs, hgradient, Vec.dot_num]
  exact ⟨_, hslope ▸ descentRestart_slope_neg hrecovered, hslope⟩

theorem Iterate.OnNumbers.exists_searched_ne_zero (h : it.OnNumbers F g)
    (hrecovered : (descentRestart it.gradient it.direction).recovered = true) :
    ∃ s, s ≠ 0 ∧ it.searched = Vec.num s := by
  obtain ⟨d, hd, hslope⟩ := h.slope_neg hrecovered
  obtain ⟨x, -, -, hgradient⟩ := h.point
  obtain ⟨s, hs⟩ := h.searched
  refine ⟨s, ?_, hs⟩
  rintro rfl
  rw [Iterate.slope, descentRestart_slope, ← Iterate.searched, hs, hgradient, Vec.dot_num,
    dotProduct_zero, Exact.num_inj] at hslope
  rw [← hslope, Exact.zero_eq, Exact.num_lt] at hd
  exact hd.false

section Searching

variable (hf : f.Everywhere F g) (hit : it.OnNumbers F g)
  (hrecovered : (descentRestart it.gradient it.direction).recovered = true)
  {b b' : Bench (Trial ω (Exact G) n) (Exact G)}
  (hsamples : b.cache.samples = #[⟨0.0, it.value, it.slope⟩])

include hf hit hrecovered hsamples

theorem Iterate.OnNumbers.exists_proposal :
    ∃ c mayAccept calls b', 0 < c ∧ (it.proposal f it.searched).run b =
      (.ok ((.num c, mayAccept), calls), b') := by
  obtain ⟨d, hneg, hd⟩ := hit.slope_neg hrecovered
  obtain ⟨x, hx, hvalue, -⟩ := hit.point
  obtain ⟨a, ha, halpha⟩ := hit.alpha
  obtain ⟨s, hs⟩ := hit.searched
  rw [hvalue, hd] at hsamples
  rw [Exact.zero_eq, Exact.num_lt] at hneg
  rw [Iterate.proposal, hx, hs, halpha]
  obtain ⟨c, mayAccept, b', hc, hrun⟩ := TrialStep.exists_run_propose (hf.valued x s) ha hneg
    (Cache.get?_zero_of_samples_eq hsamples)
  exact ⟨c, mayAccept, _, b', hc, hrun⟩

variable (hp : p.defect? = none) {trial : Exact G} {mayAccept : Bool}

include hp

omit hf in
theorem Iterate.OnNumbers.step_pos {r : Step (Exact G)}
    (hrun : (p.lineSearch.search f it.x it.searched trial mayAccept).run b = (.ok r, b')) :
    ∃ a, 0 < a ∧ r.alpha = .num a := by
  obtain ⟨d, hd, hslope⟩ := hit.slope_neg hrecovered
  obtain ⟨x, -, hvalue, -⟩ := hit.point
  rw [hvalue, hslope] at hsamples
  obtain ⟨-, -, hpos | ⟨hbot, -⟩, -⟩ := Backtracking.accepted_of_run hp hd
    (Cache.get?_zero_of_samples_eq hsamples) hrun
  · exact hpos
  · cases hbot

theorem Iterate.OnNumbers.gaveUp {e : Fault (Exact G)}
    (hrun : (p.lineSearch.search f it.x it.searched trial mayAccept).run b = (.error e, b')) :
    GaveUp e := by
  obtain ⟨d, hd, hslope⟩ := hit.slope_neg hrecovered
  obtain ⟨x, hx, hvalue, -⟩ := hit.point
  obtain ⟨s, hs⟩ := hit.searched
  rw [hvalue, hslope] at hsamples
  rw [hx, hs] at hrun
  exact Backtracking.gaveUp_of_run hp hd (Cache.get?_zero_of_samples_eq hsamples)
    (hf.valued x s) rfl hrun

end Searching

section Steps

variable (hf : f.Everywhere F g) (hit : it.OnNumbers F g)
  (hrecovered : (descentRestart it.gradient it.direction).recovered = true)
  {σ σ' : Session ω (Exact G)}

include hf hit hrecovered

theorem Iterate.OnNumbers.exists_prediction (σ : Session ω (Exact G)) :
    ∃ q σ' c, (predict f it it.searched it.slope).run σ = (.ok q, σ') ∧ 0 < c ∧
      q.trial = .num c := by
  obtain ⟨c, mayAccept, calls, b, hc, hpropose⟩ := hit.exists_proposal hf hrecovered
    (b := it.bench σ (.seeded ⟨0.0, it.value, it.slope⟩)) rfl
  exact ⟨_, _, c, run_predict hpropose, hc, rfl⟩

variable (hp : p.defect? = none) (hm : m.lineSearch = p.lineSearch)

include hp hm

omit hf in
theorem Iterate.OnNumbers.step_pos_of_searchStep {r : Exact G × Calls}
    (h : (m.searchStep f it it.searched it.slope).run σ = (.ok r, σ')) :
    ∃ a, 0 < a ∧ r.1 = .num a := by
  obtain ⟨q, σ₁, step, b, hpredict, hsearch, rfl, -⟩ := (meets_searchStep ..).of_run_ok h
  rw [hm] at hsearch
  exact hit.step_pos hrecovered (samples_of_run_predict hpredict) hp hsearch

theorem Iterate.OnNumbers.ne_breakdown_of_searchStep {i : Interrupt (Exact G) n}
    (h : (m.searchStep f it it.searched it.slope).run σ = (.error i, σ')) (cause : Breakdown) :
    i ≠ .breakdown cause := by
  rcases (meets_searchStep ..).of_run_error h with
    hpredict | ⟨q, σ₁, e, b, hpredict, hsearch, rfl, -⟩
  · obtain ⟨_, _, _, hok, -⟩ := hit.exists_prediction hf hrecovered σ
    cases hok.symm.trans hpredict
  · rw [hm] at hsearch
    obtain ⟨e, rfl⟩ := hit.gaveUp hf hrecovered (samples_of_run_predict hpredict) hp hsearch
    rintro ⟨⟩

end Steps

/-! ## From the start on -/

section Starts

variable (hf : f.Everywhere F g) (hI : m.KeepsPositive n I) {σ σ' : Session ω (Exact G)}
  (hσ : I σ.preconditioner) (view : Vec (Exact G) n → Tensor (Exact G)) (x : Fin n → K)

include hf hI hσ

theorem exists_run_start : ∃ it σ', (m.start f view (Vec.num x)).run σ = (.ok it, σ') := by
  obtain ⟨w, hevaluate⟩ := exists_run_evaluate hf σ x
  obtain ⟨a, -, halpha⟩ := TrialStep.exists_initial (G := G) x (g x) (F x)
  rcases hstart : (m.start f view (Vec.num x)).run σ with ⟨i | it, σ'⟩
  · cases halted_of_run hstart with
    | evaluation hbroken => cases hevaluate.symm.trans hbroken
    | value hevaluated hinfinite =>
      cases hevaluate.symm.trans hevaluated
      cases hinfinite
    | gradient hevaluated _ hinfinite =>
      cases hevaluate.symm.trans hevaluated
      exact absurd (Vec.allFinite_iff.mpr ⟨_, rfl⟩) (Bool.eq_false_iff.mp hinfinite)
    | step hevaluated hbroken =>
      cases hevaluate.symm.trans hevaluated
      cases halpha.symm.trans hbroken
    | @preconditioner it _ σ₁ _ hevaluated hbroken =>
      have hkept : I (m.notified view it σ₁).preconditioner := by
        rw [notified_preconditioner, ← (Prod.mk.inj (hevaluate.symm.trans hevaluated)).2]
        exact hσ
      obtain ⟨_, _, _, hprepare, -⟩ := exists_run_prepare hI hkept x
      cases hprepare.symm.trans hbroken
  · exact ⟨it, σ', rfl⟩

variable {view x}

theorem Begins.onNumbers (h : m.Begins f view (Vec.num x) σ it σ') :
    I σ'.preconditioner ∧ it.OnNumbers F g := by
  cases h with
  | @intro P σ₁ _ _ _ hpoint hevaluated _ _ hinitial hprepared hdirection =>
    obtain ⟨w, hevaluate⟩ := exists_run_evaluate hf σ x
    obtain ⟨hresult, rfl⟩ := Prod.mk.inj (hevaluate.symm.trans hevaluated)
    obtain ⟨hvalue, hgradient⟩ := Prod.mk.inj (Except.ok.inj hresult)
    have hkept : I (m.notified view { it with direction := it.gradient }
        { σ with world := w }).preconditioner := by
      rw [notified_preconditioner]
      exact hσ
    obtain ⟨_, M, _, hprepare, hM, hσ'⟩ := exists_run_prepare hI hkept x
    cases hprepare.symm.trans hprepared
    rw [← hvalue, ← hgradient] at hinitial
    obtain ⟨a, ha, halpha⟩ := TrialStep.exists_initial (G := G) x (g x) (F x)
    refine ⟨hσ', ⟨x, hpoint, hvalue.symm, hgradient.symm⟩,
      ⟨a, ha, Except.ok.inj (hinitial.symm.trans halpha)⟩, ?_⟩
    rw [Iterate.searched, hdirection, ← hgradient, hM.forward, Vec.neg_num]
    exact exists_restart_num _ _

end Starts

omit [IsStrictOrderedRing K] in
theorem Iterate.OnNumbers.exists_moved (hit : it.OnNumbers F g) {t : Exact G}
    (ht : ∃ a, 0 < a ∧ t = .num a) : ∃ x, Vec.moved it.x it.searched t = Vec.num x := by
  obtain ⟨x, hx, -, -⟩ := hit.point
  obtain ⟨s, hs⟩ := hit.searched
  obtain ⟨a, -, rfl⟩ := ht
  exact ⟨_, by rw [hx, hs, Vec.moved_num]⟩

/-- An update from numbers, along a direction in which the slope has changed, leads to numbers. -/
theorem Iterate.OnNumbers.next {it' : Iterate (Exact G) n} {P : Operator (Exact G) n}
    {M : Matrix (Fin n) (Fin n) K} {eta : Exact G} (hit : it.OnNumbers F g)
    (hrecovered : (descentRestart it.gradient it.direction).recovered = true) (hP : P.Acts M)
    (heta : ¬eta ≤ 0.0)
    (hpoint : ∃ x, it'.x = Vec.num x ∧ it'.value = .num (F x) ∧ it'.gradient = Vec.num (g x))
    (halpha : ∃ a, 0 < a ∧ it'.alpha = .num a)
    (hdirection : it'.direction =
      (updateDirection P eta it.searched it'.gradient it.gradient).direction)
    (hchange : Vec.dot (Vec.sub it'.gradient it.gradient) it.searched ≠ 0.0) :
    it'.OnNumbers F g := by
  refine ⟨hpoint, halpha, ?_⟩
  obtain ⟨x, -, -, hgradient⟩ := hit.point
  obtain ⟨x', -, -, hgradient'⟩ := hpoint
  obtain ⟨s, hs⟩ := hit.searched
  -- the descent test has left a slope that is negative
  obtain ⟨d, hd, hslope⟩ := hit.slope_neg hrecovered
  rw [Iterate.slope, descentRestart_slope, ← Iterate.searched, hs, hgradient, Vec.dot_num,
    Exact.num_inj, dotProduct_comm] at hslope
  rw [Exact.zero_eq, Exact.num_lt, ← hslope] at hd
  rw [hgradient, hgradient', hs, Vec.sub_num, Vec.dot_num, Exact.zero_eq, ne_eq,
    Exact.num_inj] at hchange
  rw [Iterate.searched, hdirection, hgradient, hgradient', hs]
  exact exists_direction_of_update hP heta hd hchange

section Iterations

variable (hf : f.Everywhere F g) (hp : p.defect? = none) (hm : m.lineSearch = p.lineSearch)
  (hit : it.OnNumbers F g) {σ σ' : Session ω (Exact G)} (hσ : I σ.preconditioner)

include hf hp hm hit hσ

theorem Finds.exists_evaluated {r : Exact G × Calls} (h : m.Finds f it σ r σ') :
    ∃ (y : Fin n → K) (σ'' : Session ω (Exact G)), Vec.moved it.x it.searched r.1 = Vec.num y ∧
      (∃ a, 0 < a ∧ r.1 = .num a) ∧
      (Run.evaluate (f.both (Vec.num y)) : Run ω (Exact G) n _).run σ' =
        (.ok (.num (F y), Vec.num (g y)), σ'') ∧ I σ''.preconditioner := by
  obtain ⟨hrecovered, σ₁, -, hsearch⟩ := id h
  have hpos := hit.step_pos_of_searchStep hrecovered hp hm hsearch
  obtain ⟨y, hy⟩ := hit.exists_moved hpos
  obtain ⟨w, hevaluate⟩ := exists_run_evaluate hf σ' y
  refine ⟨y, _, hy, hpos, hevaluate, ?_⟩
  obtain ⟨_, _, rfl⟩ := h.exists_session
  exact hσ

/-- An iteration goes on with numbers, unless the slope has not changed along the direction. -/
theorem Advances.onNumbers (hI : m.KeepsPositive n I) (heta : ¬m.options.eta ≤ 0.0)
    {view : Vec (Exact G) n → Tensor (Exact G)} {it' : Iterate (Exact G) n} {verdict : Verdict}
    (h : m.Advances f view it σ (.moved it' verdict) σ') :
    I σ'.preconditioner ∧
      (Vec.dot (Vec.sub it'.gradient it.gradient) it.searched ≠ 0.0 → it'.OnNumbers F g) := by
  cases h with
  | moved hfinds _ _ hmoved hevaluated _ _ hprepared hdirection =>
    obtain ⟨y, σ₂, hy, hpos, hevaluate, hσ₂⟩ := hfinds.exists_evaluated hf hp hm hit hσ
    have hx := hmoved.trans hy
    rw [hx] at hevaluated hprepared
    obtain ⟨hresult, rfl⟩ := Prod.mk.inj (hevaluate.symm.trans hevaluated)
    obtain ⟨hvalue, hgradient⟩ := Prod.mk.inj (Except.ok.inj hresult)
    obtain ⟨_, M, _, hprepare, hM, hσ₃⟩ := exists_run_prepare hI hσ₂ y
    cases hprepare.symm.trans hprepared
    rw [notified_preconditioner]
    exact ⟨hσ₃, fun hchange ↦ hit.next hfinds.1 hM heta
      ⟨y, hx, hvalue.symm, hgradient.symm⟩ hpos hdirection hchange⟩

end Iterations

/-! ## Iterations that break down -/

/-- In a session, the search from an iterate leads to a point. -/
def LeadsTo {α : Type} [Scalar α] (m : Minimizer ω α) (f : Objective ω α n) (it : Iterate α n)
    (σ : Session ω α) (y : Vec α n) : Prop :=
  ∃ r σ', m.Finds f it σ r σ' ∧ y = Vec.moved it.x it.searched r.1

variable {view : Vec (Exact G) n → Tensor (Exact G)} {σ σ' : Session ω (Exact G)} {y : Fin n → K}

/-- With `ftol` zero, an iteration that leads to the value zero breaks down. -/
theorem LeadsTo.run_advance (view : Vec (Exact G) n → Tensor (Exact G)) (hf : f.Everywhere F g)
    (hit : it.OnNumbers F g) (h : m.LeadsTo f it σ (Vec.num y)) (hftol : m.options.ftol = .num 0)
    (hzero : F y = 0) :
    ∃ σ', (m.advance f view it).run σ = (.error (.breakdown .divisionByZero), σ') := by
  obtain ⟨⟨alpha, calls⟩, σ₂, ⟨hrecovered, σ₁, hannounce, hsearch⟩, hy⟩ := h
  obtain ⟨x, -, hvalue, -⟩ := hit.point
  obtain ⟨w, hevaluate⟩ := exists_run_evaluate hf σ₂ y
  have hassess : m.options.tolerances.assess (Vec.maxDiff (Vec.num y) it.x) (.num (F y)) it.value
      (Vec.infNorm (Vec.num (g y))) = .error .divisionByZero := by
    rw [hvalue, Tolerances.assess_eq_error_iff]
    · exact ⟨rfl, hftol, hzero⟩
    · rw [Options.tolerances, hftol, Exact.zero_eq, Exact.num_lt]
      exact lt_irrefl 0
  rw [Iterate.searched] at hy
  rw [advance, run_bind_ok hannounce]
  simp only [hrecovered, if_true]
  rw [run_bind_ok hsearch]
  simp only [← hy]
  rw [run_bind_ok hevaluate]
  simp only [Exact.isFinite_num, if_true, hassess]
  exact ⟨_, rfl⟩

section Backtracking

variable (hf : f.Everywhere F g) (hp : p.defect? = none) (hm : m.lineSearch = p.lineSearch)
  (hit : it.OnNumbers F g) (hσ : I σ.preconditioner)

include hf hp hm hit hσ

/-- An iteration breaks down only where it leads to the value zero, with `ftol` zero. -/
theorem Interrupted.of_breakdown (hI : m.KeepsPositive n I) (htol : ¬m.options.ftol < 0.0)
    {cause : Breakdown} (h : m.Interrupted f it σ (.breakdown cause) σ') :
    cause = .divisionByZero ∧ m.options.ftol = .num 0 ∧
      ∃ y, m.LeadsTo f it σ (Vec.num y) ∧ F y = 0 := by
  cases h with
  | search hrecovered _ hsearch =>
    exact absurd rfl (hit.ne_breakdown_of_searchStep hf hrecovered hp hm hsearch cause)
  | evaluation hfinds hx hbroken =>
    -- numbers are evaluated without a failure
    obtain ⟨y, σ₂, hy, -, hevaluate, -⟩ := hfinds.exists_evaluated hf hp hm hit hσ
    obtain rfl := hx.trans hy
    cases hevaluate.symm.trans hbroken
  | verdict hfinds hx hevaluated _ hassess =>
    obtain ⟨y, σ₂, hy, -, hevaluate, -⟩ := hfinds.exists_evaluated hf hp hm hit hσ
    obtain rfl := hx.trans hy
    cases hevaluate.symm.trans hevaluated
    obtain ⟨x, -, hvalue, -⟩ := hit.point
    rw [hvalue] at hassess
    obtain ⟨hcause, hftol, hzero⟩ := (Tolerances.assess_eq_error_iff _ htol ..).mp hassess
    exact ⟨hcause, hftol, y, ⟨_, _, hfinds, hx⟩, hzero⟩
  | preconditioner hfinds hx hevaluated hbroken =>
    obtain ⟨y, σ₂, hy, -, hevaluate, hσ₂⟩ := hfinds.exists_evaluated hf hp hm hit hσ
    obtain rfl := hx.trans hy
    cases hevaluate.symm.trans hevaluated
    obtain ⟨P, M, σ₃, hprepare, -⟩ := exists_run_prepare hI hσ₂ y
    cases hprepare.symm.trans hbroken

end Backtracking

/-! ## Runs that break down -/

section Run

variable {x₀ : Fin n → K} {σ₀ : Session ω (Exact G)} {past : List (Iterate (Exact G) n)}
  {verdict : Verdict}

omit [IsStrictOrderedRing K] in
theorem outcome_eq_breakdown_iff {x : Vec (Exact G) n} {cause : Breakdown} :
    (m.minimizeFrom f view x σ₀).1.outcome = .error (.breakdown cause) ↔
      ∃ σ', (m.run f view x).run (m.opened σ₀) = (.error (.breakdown cause), σ') := by
  rcases hrun : (m.run f view x).run (m.opened σ₀) with ⟨(cause' | _) | r, σ'⟩
  · simp only [minimizeFrom, hrun]
    constructor
    · rintro ⟨⟩
      exact ⟨σ', rfl⟩
    · rintro ⟨_, ⟨⟩⟩
      rfl
  · simp only [minimizeFrom, hrun]
    refine iff_of_false (by rintro ⟨⟩) (by rintro ⟨_, ⟨⟩⟩)
  · simp only [minimizeFrom, hrun]
    refine iff_of_false (by rintro ⟨⟩) (by rintro ⟨_, ⟨⟩⟩)

variable (hf : f.Everywhere F g) (hI : m.KeepsPositive n I) (hσ₀ : I σ₀.preconditioner)
  (hp : p.defect? = none) (hm : m.lineSearch = p.lineSearch)

include hf hI hσ₀ hp hm

theorem Visits.onNumbers (heta : ¬m.options.eta ≤ 0.0)
    (hchange : ∀ it' it past verdict σ,
      Visits m f view (Vec.num x₀) σ₀ (it' :: it :: past) verdict σ → it.OnNumbers F g →
        Vec.dot (Vec.sub it'.gradient it.gradient) it.searched ≠ 0.0)
    (h : Visits m f view (Vec.num x₀) σ₀ (it :: past) verdict σ) :
    I σ.preconditioner ∧ it.OnNumbers F g := by
  induction h using Visits.head_induction with
  | start hstart =>
    have hopened : I (m.opened σ₀).preconditioner := hσ₀
    exact (begins_of_run hstart).onNumbers hf hI hopened
  | move hvisits hverdict hlt hrun ih =>
    obtain ⟨hσ, hit⟩ := ih
    obtain ⟨hσ', hit'⟩ := (advances_of_run hrun).onNumbers hf hp hm hit hσ hI heta
    exact ⟨hσ', hit' (hchange _ _ _ _ _ (hvisits.move hverdict hlt hrun) hit)⟩

variable (hchange : ∀ it' it past verdict σ,
  Visits m f view (Vec.num x₀) σ₀ (it' :: it :: past) verdict σ →
    Vec.dot (Vec.sub it'.gradient it.gradient) it.searched ≠ 0.0)

include hchange

theorem exists_leadsTo_of_breakdown (htol : ¬m.options.ftol < 0.0) (heta : ¬m.options.eta ≤ 0.0)
    {cause : Breakdown}
    (h : (m.minimizeFrom f view (Vec.num x₀) σ₀).1.outcome = .error (.breakdown cause)) :
    cause = .divisionByZero ∧ m.options.ftol = .num 0 ∧
      ∃ it past σ y, m.GoesOn f view (Vec.num x₀) σ₀ it past σ ∧
        m.LeadsTo f it σ (Vec.num y) ∧ F y = 0 := by
  have hopened : I (m.opened σ₀).preconditioner := hσ₀
  obtain ⟨σ', hrun⟩ := outcome_eq_breakdown_iff.mp h
  obtain ⟨it₀, σ₁, hstart⟩ := exists_run_start hf hI hopened view x₀
  obtain ⟨it, past, σ, σ₂, hgoes, hadvance⟩ := exists_interrupted hstart hrun
  obtain ⟨_, hvisits, -, -⟩ := id hgoes
  obtain ⟨hσ, hit⟩ := hvisits.onNumbers hf hI hσ₀ hp hm heta
    fun _ _ _ _ _ h _ ↦ hchange _ _ _ _ _ h
  obtain ⟨hcause, hftol, y, hleads, hzero⟩ :=
    (interrupted_of_run hadvance).of_breakdown hf hp hm hit hσ hI htol
  exact ⟨hcause, hftol, it, past, σ, y, hgoes, hleads, hzero⟩

/-- **What breaks a run down.** On an objective whose values and gradients are numbers, with
backtracking, positive definite preconditioners and options that have passed the check, in a run
that changes the slope along every direction that it searches:

* a run that does not return stops with an optimizer error, or divides by zero;
* it divides by zero if and only if `ftol` is zero and the run comes to an iterate, from which it is
  to go on, whose search leads to a point where the value is zero. -/
theorem minimizeFrom_breaks_down_iff {κ : Type} {limit? : κ → Option Limit}
    {o : Options (Exact G) κ} (ho : o.check limit? = .ok m.options) :
    (∀ e, (m.minimizeFrom f view (Vec.num x₀) σ₀).1.outcome = .error e →
      (∃ e', e = .optimizer e') ∨ e = .breakdown .divisionByZero) ∧
    ((m.minimizeFrom f view (Vec.num x₀) σ₀).1.outcome = .error (.breakdown .divisionByZero) ↔
      m.options.ftol = .num 0 ∧ ∃ it past σ y, m.GoesOn f view (Vec.num x₀) σ₀ it past σ ∧
        m.LeadsTo f it σ (Vec.num y) ∧ F y = 0) := by
  obtain ⟨htol, heta⟩ := Options.of_check ho
  refine ⟨fun e he ↦ ?_, fun h ↦ ?_, ?_⟩
  · cases e with
    | optimizer e' => exact Or.inl ⟨e', rfl⟩
    | breakdown cause =>
      obtain ⟨rfl, -⟩ := exists_leadsTo_of_breakdown hf hI hσ₀ hp hm hchange htol heta he
      exact Or.inr rfl
  · exact (exists_leadsTo_of_breakdown hf hI hσ₀ hp hm hchange htol heta h).2
  · rintro ⟨hftol, it, past, σ, y, hgoes, hleads, hzero⟩
    obtain ⟨_, hvisits, -, -⟩ := id hgoes
    obtain ⟨-, hit⟩ := hvisits.onNumbers hf hI hσ₀ hp hm heta
      fun _ _ _ _ _ h _ ↦ hchange _ _ _ _ _ h
    obtain ⟨σ', hadvance⟩ := hleads.run_advance view hf hit hftol hzero
    exact outcome_eq_breakdown_iff.mpr (hgoes.run_of_interrupted hadvance)

end Run

/-! ## Quadratic functions

On a quadratic function with a positive definite matrix the slope changes along every direction,
since all steps are positive. -/

section Quadratic

variable {A : Matrix (Fin n) (Fin n) K} {c : Fin n → K}
  {σ₀ : Session ω (Exact G)} {past : List (Iterate (Exact G) n)} {verdict : Verdict}

/-- On a quadratic function the slope changes along every direction that is searched. -/
theorem Visits.change_ne_zero (hq : f.IsQuadratic A c) (hA : SPD A) (hp : p.defect? = none)
    (hm : m.lineSearch = p.lineSearch) {it' : Iterate (Exact G) n} {x₀ : Vec (Exact G) n}
    (h : Visits m f view x₀ σ₀ (it' :: it :: past) verdict σ)
    (hit : it.OnNumbers (quadraticValue A c) fun x ↦ A *ᵥ x - c) :
    Vec.dot (Vec.sub it'.gradient it.gradient) it.searched ≠ 0.0 := by
  have hmoves := h.moves
  obtain ⟨σ₁, σ₂, calls, hsearch⟩ := hmoves.searched
  obtain ⟨a, ha, (halpha : it'.alpha = .num a)⟩ :=
    hit.step_pos_of_searchStep hmoves.recovered hp hm hsearch
  obtain ⟨x, hx, -, hgradient⟩ := hit.point
  obtain ⟨s, hne, hs⟩ := hit.exists_searched_ne_zero hmoves.recovered
  obtain ⟨w, w', hevaluated⟩ := hmoves.evaluated
  have hmoved : it'.x = Vec.num (x + a • s) := by
    rw [hmoves.moved, halpha, hx, ← Iterate.searched, hs, Vec.moved_num]
  rw [hmoved] at hevaluated
  have hgradient' := (Prod.mk.inj ((hq.both (x + a • s)).eq_of_run hevaluated)).2
  have hcurved : a * (A *ᵥ s ⬝ᵥ s) ≠ 0 := by
    rw [dotProduct_comm]
    exact (mul_pos ha (hA.pos s hne)).ne'
  rw [hgradient, hgradient', hs, gradient_along, Vec.sub_num, add_sub_cancel_left, Vec.dot_num,
    smul_dotProduct, smul_eq_mul, Exact.zero_eq, ne_eq, Exact.num_inj]
  exact hcurved

theorem Visits.onNumbers_of_isQuadratic {I : Preconditioner (Exact G) → Prop} {x₀ : Fin n → K}
    (hq : f.IsQuadratic A c) (hA : SPD A) (hI : m.KeepsPositive n I) (hσ₀ : I σ₀.preconditioner)
    (hp : p.defect? = none) (hm : m.lineSearch = p.lineSearch) (heta : ¬m.options.eta ≤ 0.0)
    (h : Visits m f view (Vec.num x₀) σ₀ (it :: past) verdict σ) :
    I σ.preconditioner ∧ it.OnNumbers (quadraticValue A c) fun x ↦ A *ᵥ x - c :=
  h.onNumbers hq.everywhere hI hσ₀ hp hm heta fun _ _ _ _ _ hvisits hit ↦
    hvisits.change_ne_zero hq hA hp hm hit

end Quadratic

def exactingMinimizer : Minimizer Unit (Exact Grid.rational) where
  options := { backtrackingMinimizer.options with xtol := 0.0, ftol := 0.0, grtol := 0.0 }
  lineSearch := Backtracking.default.lineSearch
  refresh _ _ := pure .identity

theorem exactingMinimizer_keepsPositive {n : ℕ} :
    exactingMinimizer.KeepsPositive n (· = .identity) where
  refresh _ _ w := ⟨.identity, w, rfl, rfl⟩
  sized hP := ⟨.identity, 1, by rw [hP]; rfl, Operator.identity_acts⟩

theorem exactingMinimizer_checked :
    exactingMinimizer.options.check some = .ok exactingMinimizer.options := by
  have heta : ¬exactingMinimizer.options.eta ≤ 0.0 :=
    Options.not_default_eta_le_zero fun k ↦ (⟨k, true⟩ : Limit)
  have htol : ¬(0.0 : Exact Grid.rational) < 0.0 := by
    rw [Exact.zero_eq, Exact.num_lt]
    exact lt_irrefl 0
  rw [Options.check, exactingMinimizer, if_neg htol, if_neg htol, if_neg htol]
  exact if_neg heta

/-- The second iteration on `½ (x² + 3 y²)` leads to the minimum, where the value is zero. -/
theorem minimizeFrom_breaks_down_iff_quadratic :
    let A : Matrix (Fin 2) (Fin 2) ℚ := Matrix.diagonal ![1, 3]
    let q : Quadratic (Exact Grid.rational) 2 := .num A 0
    let f : Objective Unit (Exact Grid.rational) 2 := .ofFunctions q.value q.gradient
    let σ₀ : Session Unit (Exact Grid.rational) := { world := (), preconditioner := .identity }
    (exactingMinimizer.minimizeFrom f (⟨[2], ·⟩) (Vec.num ![3, 1]) σ₀).1.outcome =
        .error (.breakdown .divisionByZero) ∧
      ∃ it past σ y, exactingMinimizer.GoesOn f (⟨[2], ·⟩) (Vec.num ![3, 1]) σ₀ it past σ ∧
        exactingMinimizer.LeadsTo f it σ (Vec.num y) ∧ quadraticValue A 0 y = 0 := by
  intro A q f σ₀
  have hbroken : (match (exactingMinimizer.minimizeFrom f (⟨[2], ·⟩) (Vec.num ![3, 1])
      σ₀).1.outcome with
      | .error (.breakdown .divisionByZero) => true
      | _ => false) = true := by
    decide +kernel
  have hbreaks : (exactingMinimizer.minimizeFrom f (⟨[2], ·⟩) (Vec.num ![3, 1]) σ₀).1.outcome =
      .error (.breakdown .divisionByZero) := by
    split at hbroken
    · assumption
    · cases hbroken
  have hq : f.IsQuadratic A 0 := Quadratic.isQuadratic_ofFunctions A 0
  have hA : SPD A := Operator.spd_diagonal fun i ↦ by fin_cases i <;> norm_num
  obtain ⟨-, heta⟩ := Options.of_check exactingMinimizer_checked
  have hchange : ∀ it' it past verdict σ, Visits exactingMinimizer f (⟨[2], ·⟩) (Vec.num ![3, 1])
      σ₀ (it' :: it :: past) verdict σ →
      Vec.dot (Vec.sub it'.gradient it.gradient) it.searched ≠ 0.0 := by
    intro it' it past verdict σ hvisits
    refine hvisits.change_ne_zero hq hA default_defect? rfl ?_
    cases hvisits with
    | move hbefore _ _ _ =>
      exact (hbefore.onNumbers_of_isQuadratic hq hA exactingMinimizer_keepsPositive rfl
        default_defect? rfl heta).2
  have hiff := minimizeFrom_breaks_down_iff hq.everywhere exactingMinimizer_keepsPositive rfl
    default_defect? rfl hchange exactingMinimizer_checked
  exact ⟨hbreaks, (hiff.2.mp hbreaks).2⟩

end Minimizer

end NonlinearCG
