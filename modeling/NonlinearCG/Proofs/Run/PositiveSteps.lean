import Mathlib
import NonlinearCG.Proofs.LineSearch.FirstFinite
import NonlinearCG.Proofs.LineSearch.Returned
import NonlinearCG.Proofs.Run.History
import NonlinearCG.Proofs.Run.TrialSteps

/-!
# Predictions start from positive steps

A prediction divides by its test step, which is a fraction of the step that led to the iterate. The
guard is not where the division is. The first step of a run is positive by its three-way choice;
every later one was returned by a line search. Backtracking returns positive steps only. The
Hager–Zhang search may return the zero step, but then nothing moves, the value does not change, and
the convergence test ends the run before there is another prediction.

Values may be infinite or undefined, at test steps and in the line search. What is asked of the
preconditioners is that they take numbers to numbers and that no divisor of an update vanishes: then
the directions that are searched consist of numbers.
-/

namespace NonlinearCG

open Matrix

variable {ω K : Type} [Field K] [LinearOrder K] {G : Grid K} {n : ℕ}

/-! ## Objectives, preconditioners and line searches -/

/-- The objective returns the value and the gradient of a function. At points of numbers the
gradient is finite where the value is. -/
structure Objective.Determined (f : Objective ω (Exact G) n) (V : Vec (Exact G) n → Exact G)
    (D : Vec (Exact G) n → Vec (Exact G) n) : Prop where
  value (x : Vec (Exact G) n) : Returns (f.value x) (V x)
  both (x : Vec (Exact G) n) : Returns (f.both x) (V x, D x)
  gradient_finite (x : Fin n → K) : Scalar.isFinite (V (Vec.num x)) = true →
    Vec.allFinite (D (Vec.num x)) = true

theorem Objective.Determined.answers {f : Objective ω (Exact G) n} {V : Vec (Exact G) n → Exact G}
    {D : Vec (Exact G) n → Vec (Exact G) n} (hf : f.Determined V D) :
    f.Answers fun x w ↦ (V x, ((f.value x).run w).2) := by
  intro x w
  obtain ⟨_, hvalue⟩ := hf.value x w
  simp only [hvalue]

def Operator.KeepsNumbers (P : Operator (Exact G) n) : Prop :=
  ∀ v : Fin n → K, ∃ u, P.forward (Vec.num v) = Vec.num u

def Strategy.Proper : Strategy (Exact G) → Prop
  | hagerZhang p => p.Proper
  | backtracking p => p.defect? = none

theorem TrialStep.Rule.default_proper [IsStrictOrderedRing K] :
    (Rule.default : Rule (Exact G)).Proper := by
  constructor
  case attempts => exact (by decide : (2 : ℤ) ≤ 52)
  case alphamax => trivial
  all_goals
    simp only [Rule.default, Exact.ofScientific_eq, Exact.num_lt]
    norm_num

section Update

variable [IsStrictOrderedRing K] {P : Operator (Exact G) n} {s g g' : Fin n → K} {eta : K}

theorem Exact.div_num_or_nan (x : K) {y : Exact G} (hy : y ≠ 0.0) :
    (∃ b, num x / y = num b) ∨ num x / y = nan := by
  cases y with
  | num b =>
    have hb : b ≠ 0 := fun h ↦ hy (by rw [h, zero_eq])
    exact .inl ⟨x / b, num_div hb⟩
  | top | bot => exact .inl ⟨0, rfl⟩
  | nan => exact .inr rfl

/-- Where nothing is divided by zero, the weight of the last direction is a number, or none at
all. -/
theorem beta_of_divisors (hP : P.KeepsNumbers)
    (hnorm : P.inverseDot (Vec.num s) (Vec.num s) ≠ 0.0) (hy : (g - g') ⬝ᵥ s ≠ 0) :
    (∃ b, (updateDirection P (.num eta) (Vec.num s) (Vec.num g) (Vec.num g')).beta = .num b) ∨
      (updateDirection P (.num eta) (Vec.num s) (Vec.num g) (Vec.num g')).beta = .nan := by
  obtain ⟨u, hu⟩ := hP g
  obtain ⟨w, hw⟩ := hP (g - g')
  simp only [updateDirection, Operator.forwardDot, Vec.sub_num, Vec.dot_num, hu, hw,
    Exact.num_mul, Exact.num_sub, Exact.num_div hy]
  rcases Exact.div_num_or_nan (eta * (s ⬝ᵥ g')) hnorm with ⟨b, hb⟩ | hnan
  · rw [hb, Exact.maximum_num]
    exact .inl ⟨_, rfl⟩
  · rw [hnan]
    exact .inr rfl

end Update

namespace Minimizer

/-! ## The preconditioner of a session -/

section Sessions

variable {α : Type} [Scalar α] {m : Minimizer ω α} {f : Objective ω α n}
  {view : Vec α n → Tensor α} {x : Vec α n} {it it' : Iterate α n} {verdict : Verdict}
  {σ σ' : Session ω α}

omit [Scalar α] in
theorem fits_of_prepare {Q : Operator α n} (h : (m.prepare x).run σ = (.ok Q, σ')) :
    σ'.preconditioner.weighting.sized n = .ok Q := by
  obtain ⟨P, w, -, hsized, rfl⟩ := (meets_prepare σ m x).of_run_ok h
  exact hsized

theorem Begins.fits (h : m.Begins f view x σ it σ') :
    ∃ Q, σ'.preconditioner.weighting.sized n = .ok Q ∧
      it.direction = Vec.neg (Q.forward it.gradient) := by
  cases h with
  | intro _ _ _ _ _ _ _ hprepare hdirection => exact ⟨_, fits_of_prepare hprepare, hdirection⟩

theorem Advances.fits (h : m.Advances f view it σ (.moved it' verdict) σ') :
    ∃ Q, σ'.preconditioner.weighting.sized n = .ok Q ∧ it'.direction =
      (updateDirection Q m.options.eta it.searched it'.gradient it.gradient).direction := by
  cases h with
  | moved _ _ _ _ _ _ _ hprepare hdirection =>
    rw [notified_preconditioner]
    exact ⟨_, fits_of_prepare hprepare, hdirection⟩

end Sessions

variable {m : Minimizer ω (Exact G)} {f : Objective ω (Exact G) n} {V : Vec (Exact G) n → Exact G}
  {D : Vec (Exact G) n → Vec (Exact G) n} {view : Vec (Exact G) n → Tensor (Exact G)}
  {it it' : Iterate (Exact G) n} {verdict verdict' : Verdict} {σ σ' : Session ω (Exact G)}

/-- The preconditioner of a session takes numbers to numbers. -/
def KeepsNumbers (n : ℕ) (σ : Session ω (Exact G)) : Prop :=
  ∀ Q : Operator (Exact G) n, σ.preconditioner.weighting.sized n = .ok Q → Q.KeepsNumbers

/-- The divisors of the update that led from the direction of an iterate to that of the next one are
not zero, with the preconditioner of the session after it. -/
def DivisorsNonzero (it it' : Iterate (Exact G) n) (σ : Session ω (Exact G)) : Prop :=
  ∀ Q : Operator (Exact G) n, σ.preconditioner.weighting.sized n = .ok Q →
    Q.inverseDot it.searched it.searched ≠ 0.0 ∧
      Vec.dot (Vec.sub it'.gradient it.gradient) it.searched ≠ 0.0

/-! ## Iterates of numbers -/

/-- An iterate with the verdict on it: a point of numbers, and a step that is zero only if the value
has settled. Unless the run stops there, the direction that is searched consists of numbers. -/
structure Iterate.Regular (it : Iterate (Exact G) n) (verdict : Verdict) : Prop where
  point : ∃ x, it.x = Vec.num x
  alpha : IsStep it.alpha
  settled : it.alpha = .num 0 → verdict.f = true
  searched : verdict.converged = false → ∃ s, it.searched = Vec.num s

section Iterates

variable {x₀ : Fin n → K} {σ₀ : Session ω (Exact G)} {past : List (Iterate (Exact G) n)}
  {S : Strategy (Exact G)} {v eta : K} {g : Fin n → K}

theorem Visits.determined (hf : f.Determined V D) {y : Vec (Exact G) n}
    (h : Visits m f view y σ₀ (it :: past) verdict σ) : it.Consistent V D :=
  h.consistent fun _ _ _ _ _ hboth ↦ Prod.mk.inj ((hf.both _).eq_of_run hboth)

theorem Iterate.Consistent.exists_num (hf : f.Determined V D) (hit : it.Consistent V D)
    (hx : ∃ x, it.x = Vec.num x) : ∃ v g, it.value = .num v ∧ it.gradient = Vec.num g := by
  obtain ⟨x, hx⟩ := hx
  obtain ⟨v, hv⟩ := Exact.isFinite_iff.mp hit.finite
  have hfinite := hit.finite
  rw [hit.value, hx] at hfinite
  obtain ⟨g, hg⟩ := Vec.allFinite_iff.mp (hf.gradient_finite x hfinite)
  exact ⟨v, g, hv, by rw [hit.gradient, hx, hg]⟩

/-- An iterate at which the run does not stop has a positive step. -/
theorem Iterate.Regular.onNumbers (hf : f.Determined V D) (hit : it.Consistent V D)
    (h : it.Regular verdict) (hverdict : verdict.converged = false) :
    ∃ v g, it.OnNumbers (fun _ ↦ v) fun _ ↦ g := by
  obtain ⟨v, g, hv, hg⟩ := hit.exists_num hf h.point
  obtain ⟨x, hx⟩ := h.point
  obtain ⟨a, ha, halpha⟩ := h.alpha
  have hne : a ≠ 0 := by
    rintro rfl
    exact Bool.false_ne_true (hverdict.symm.trans (converged_of_settled (h.settled halpha)))
  exact ⟨v, g, ⟨x, hx, hv, hg⟩, ⟨a, ha.lt_of_ne' hne, halpha⟩, h.searched hverdict⟩

theorem exists_searched_of_forward {P : Operator (Exact G) n} (hP : P.KeepsNumbers)
    (hg : ∃ g, it.gradient = Vec.num g) (h : it.direction = Vec.neg (P.forward it.gradient)) :
    ∃ s, it.searched = Vec.num s := by
  obtain ⟨g, hg⟩ := hg
  obtain ⟨u, hu⟩ := hP g
  rw [Iterate.searched, h, hg, hu, Vec.neg_num]
  exact exists_restart_num _ _

variable [IsStrictOrderedRing K]

theorem Iterate.OnNumbers.isStep_of_search (hit : it.OnNumbers (fun _ ↦ v) fun _ ↦ g)
    (hrecovered : (descentRestart it.gradient it.direction).recovered = true) (hS : S.Proper)
    (hm : m.lineSearch = S.lineSearch) {r : Exact G × Calls}
    (h : (m.searchStep f it it.searched it.slope).run σ = (.ok r, σ')) : IsStep r.1 := by
  obtain ⟨trial, mayAccept, b, b', step, hsearch, halpha, hsamples⟩ := exists_search_of_run h
  rw [hm] at hsearch
  rw [← halpha]
  cases S with
  | hagerZhang p =>
    obtain ⟨d, hd, hslope⟩ := hit.slope_neg hrecovered
    obtain ⟨x, -, hvalue, -⟩ := hit.point
    rw [hvalue, hslope, Exact.zero_eq] at hsamples
    rw [Exact.zero_eq, Exact.num_lt] at hd
    exact HagerZhang.isStep_of_returned hS hd hsamples hsearch
  | backtracking p =>
    obtain ⟨a, ha, hstep⟩ := hit.step_pos hrecovered hsamples hS hsearch
    exact ⟨a, ha.le, hstep⟩

theorem exists_searched_of_update {P : Operator (Exact G) n} (hP : P.KeepsNumbers)
    (hs : ∃ s, it.searched = Vec.num s) (hg : ∃ g, it.gradient = Vec.num g)
    (hg' : ∃ g, it'.gradient = Vec.num g)
    (hnorm : P.inverseDot it.searched it.searched ≠ 0.0)
    (hchange : Vec.dot (Vec.sub it'.gradient it.gradient) it.searched ≠ 0.0)
    (h : it'.direction =
      (updateDirection P (.num eta) it.searched it'.gradient it.gradient).direction) :
    ∃ s, it'.searched = Vec.num s := by
  obtain ⟨s, hs⟩ := hs
  obtain ⟨g, hg⟩ := hg
  obtain ⟨g', hg'⟩ := hg'
  obtain ⟨u, hu⟩ := hP g'
  rw [hs] at hnorm
  rw [hs, hg, hg', Vec.sub_num, Vec.dot_num, Exact.zero_eq, ne_eq, Exact.num_inj] at hchange
  rw [Iterate.searched, h, hs, hg, hg']
  exact exists_direction_of_beta hu (beta_of_divisors hP hnorm hchange)

theorem Moves.exists_num (hS : S.Proper) (hm : m.lineSearch = S.lineSearch)
    (hit : it.OnNumbers (fun _ ↦ v) fun _ ↦ g) (h : m.Moves f it it' verdict') :
    ∃ x a, 0 ≤ a ∧ it'.x = Vec.num x ∧ it'.alpha = .num a ∧ (a = 0 → it'.x = it.x) := by
  obtain ⟨_, _, _, hsearch⟩ := h.searched
  obtain ⟨a, ha, (halpha : it'.alpha = .num a)⟩ := hit.isStep_of_search h.recovered hS hm hsearch
  obtain ⟨x, hx, -⟩ := hit.point
  obtain ⟨s, hs⟩ := hit.searched
  have hpoint : it'.x = Vec.num (x + a • s) := by
    rw [h.moved, ← Iterate.searched, hs, hx, halpha, Vec.moved_num]
  refine ⟨x + a • s, a, ha, hpoint, halpha, fun hzero ↦ ?_⟩
  rw [hpoint, hx, hzero, zero_smul, add_zero]

omit [IsStrictOrderedRing K] in
/-- An iteration that does not move finds the value settled. -/
theorem Moves.settled (hup : ∀ v, v ≤ G.nextUp v) (hit : it.Consistent V D)
    (hit' : it'.Consistent V D) (h : m.Moves f it it' verdict') (hstays : it'.x = it.x) :
    verdict'.f = true := by
  have hassessed := h.assessed
  obtain ⟨v, hv⟩ := Exact.isFinite_iff.mp hit.finite
  rw [hit'.value, hstays, ← hit.value, hv] at hassessed
  exact settled_of_assess hup hassessed

variable (hf : f.Determined V D) (hup : ∀ v, v ≤ G.nextUp v) (hS : S.Proper)
  (hm : m.lineSearch = S.lineSearch) (heta : m.options.eta = .num eta)
  (hkeeps : ∀ it past verdict σ, Visits m f view (Vec.num x₀) σ₀ (it :: past) verdict σ →
    KeepsNumbers n σ)
  (hdivides : ∀ it' it past verdict σ,
    Visits m f view (Vec.num x₀) σ₀ (it' :: it :: past) verdict σ → verdict.converged = false →
      DivisorsNonzero it it' σ)

include hf hup hS hm heta hkeeps hdivides

/-- All iterates consist of numbers, and the steps to them are not negative. -/
theorem Visits.regular (h : Visits m f view (Vec.num x₀) σ₀ (it :: past) verdict σ) :
    it.Regular verdict := by
  induction h using Visits.head_induction with
  | start hstart =>
    have hvisits : Visits m f view (Vec.num x₀) σ₀ [_] _ _ := .start hstart
    have hstarts := starts_of_run hstart
    obtain ⟨v, g, hv, hg⟩ := (hvisits.determined hf).exists_num hf ⟨x₀, hstarts.point⟩
    obtain ⟨a, ha, hinitial⟩ := TrialStep.exists_initial (G := G) x₀ g v
    have halpha := hstarts.alpha
    rw [hv, hg, hinitial] at halpha
    obtain ⟨Q, hQ, hdirection⟩ := (begins_of_run hstart).fits
    exact
      { point := ⟨x₀, hstarts.point⟩
        alpha := ⟨a, ha.le, (Except.ok.inj halpha).symm⟩
        settled hzero := absurd (Exact.num_inj.mp ((Except.ok.inj halpha).trans hzero)) ha.ne'
        searched _ := exists_searched_of_forward (hkeeps _ _ _ _ hvisits Q hQ) ⟨g, hg⟩ hdirection }
  | move hbefore hverdict hlt hrun ih =>
    have hvisits := hbefore.move hverdict hlt hrun
    have hmoves := moves_of_run hrun
    have hit := hbefore.determined hf
    have hit' := hvisits.determined hf
    obtain ⟨v, g, hon⟩ := ih.onNumbers hf hit hverdict
    obtain ⟨x', a, ha, hx', halpha, hstays⟩ := hmoves.exists_num hS hm hon
    refine ⟨⟨x', hx'⟩, ⟨a, ha, halpha⟩, fun hzero ↦ ?_, fun hverdict' ↦ ?_⟩
    · -- the zero step leads back to the point before
      exact hmoves.settled hup hit hit' (hstays (Exact.num_inj.mp (halpha.symm.trans hzero)))
    · obtain ⟨Q, hQ, hdirection⟩ := (advances_of_run hrun).fits
      obtain ⟨hnorm, hchange⟩ := hdivides _ _ _ _ _ hvisits hverdict' Q hQ
      obtain ⟨x, -, -, hg⟩ := hon.point
      obtain ⟨_, g', -, hg'⟩ := hit'.exists_num hf ⟨x', hx'⟩
      rw [heta] at hdirection
      exact exists_searched_of_update (hkeeps _ _ _ _ hvisits Q hQ) hon.searched ⟨g, hg⟩
        ⟨g', hg'⟩ hnorm hchange hdirection

theorem GoesOn.exists_onNumbers (h : m.GoesOn f view (Vec.num x₀) σ₀ it past σ) :
    ∃ v g, it.OnNumbers (fun _ ↦ v) fun _ ↦ g := by
  obtain ⟨_, hvisits, hverdict, -⟩ := h
  exact (hvisits.regular hf hup hS hm heta hkeeps hdivides).onNumbers hf (hvisits.determined hf)
    hverdict

end Iterates

/-! ## Predictions -/

section Predictions

variable [IsStrictOrderedRing K] {v : K} {g : Fin n → K} (hf : f.Determined V D)
  (hit : it.OnNumbers (fun _ ↦ v) fun _ ↦ g)
  (hrecovered : (descentRestart it.gradient it.direction).recovered = true)

include hf hit hrecovered

theorem Iterate.OnNumbers.exists_nonneg_proposal {b : Bench (Trial ω (Exact G) n) (Exact G)}
    (hsamples : b.cache.samples = #[⟨0.0, it.value, it.slope⟩]) :
    ∃ c mayAccept calls b', (it.proposal f it.searched).run b =
      (.ok ((c, mayAccept), calls), b') ∧ (c = 0.0 ∨ 0.0 < c) := by
  obtain ⟨d, hneg, hd⟩ := hit.slope_neg hrecovered
  obtain ⟨-, -, hvalue, -⟩ := hit.point
  have hpos : 0.0 < it.alpha := Exact.pos_iff.mpr (.inl hit.alpha)
  rw [hvalue, hd] at hsamples
  rw [Exact.zero_eq, Exact.num_lt] at hneg
  exact TrialStep.exists_run_propose_of_answers TrialStep.Rule.default_proper
    (hf.answers.along it.x it.searched) hpos hneg (Cache.get?_zero_of_samples_eq hsamples)

theorem Iterate.OnNumbers.exists_nonneg_prediction (σ : Session ω (Exact G)) :
    ∃ q σ', Predicts f it σ q σ' ∧ (q.trial = 0.0 ∨ 0.0 < q.trial) := by
  obtain ⟨σ₁, hannounce⟩ := announce_returns (descentRestart it.gradient it.direction) σ
  obtain ⟨c, mayAccept, calls, b, hpropose, hc⟩ := hit.exists_nonneg_proposal hf hrecovered
    (b := it.bench σ₁ (.seeded ⟨0.0, it.value, it.slope⟩)) rfl
  exact ⟨_, _, ⟨hrecovered, σ₁, hannounce, run_predict hpropose⟩, hc⟩

end Predictions

/-! ## The zero step -/

section Zero

variable [IsStrictOrderedRing K] {v : K} {g : Fin n → K}

theorem exists_settled (hup : ∀ v, v ≤ G.nextUp v) (tol : Tolerances (Exact G))
    (hftol : 0.0 < tol.ftol) (move norm : Exact G) :
    ∃ verdict, tol.assess move (.num v) (.num v) norm = .ok verdict ∧ verdict.f = true := by
  have hftol : tol.ftol ≠ .num 0 ∧ ¬tol.ftol < 0.0 := by
    rcases Exact.pos_iff.mp hftol with ⟨a, ha, h⟩ | h
    · rw [h, Exact.zero_eq, ne_eq, Exact.num_inj, Exact.num_lt]
      exact ⟨ha.ne', ha.not_gt⟩
    · rw [h]
      exact ⟨by rintro ⟨⟩, id⟩
  rcases hassess : tol.assess move (.num v) (.num v) norm with cause | verdict
  · exact absurd ((Tolerances.assess_eq_error_iff tol hftol.2 ..).mp hassess).2.1 hftol.1
  · exact ⟨verdict, rfl, settled_of_assess hup hassess⟩

/-- An iteration whose search returns the zero step stays where it is and finds the value settled,
unless the preconditioner fails there. -/
theorem Finds.run_advance_of_zero (hf : f.Determined V D) (hup : ∀ v, v ≤ G.nextUp v)
    (hftol : 0.0 < m.options.ftol) (hcons : it.Consistent V D)
    (hit : it.OnNumbers (fun _ ↦ v) fun _ ↦ g) {r : Exact G × Calls} (h : m.Finds f it σ r σ')
    (hzero : r.1 = 0.0) (view : Vec (Exact G) n → Tensor (Exact G)) :
    (∃ it' verdict σ'', (m.advance f view it).run σ = (.ok (.moved it' verdict), σ'') ∧
      it'.x = it.x ∧ verdict.f = true) ∨
    ∃ i σ₁ σ₂, (m.prepare it.x).run σ₁ = (.error i, σ₂) ∧
      ∃ σ'', (m.advance f view it).run σ = (.error i, σ'') := by
  obtain ⟨hrecovered, σ₁, hannounce, hsearch⟩ := h
  obtain ⟨x, hx, hvalue, -⟩ := hit.point
  obtain ⟨s, hs⟩ := hit.searched
  have hstays : Vec.moved it.x it.searched r.1 = it.x := by
    rw [hzero, hx, hs, Exact.zero_eq, Vec.moved_num, zero_smul, add_zero]
  rw [Iterate.searched] at hstays
  obtain ⟨_, σ₂, hevaluate, rfl, -⟩ := evaluate_yields (n := n) (hf.both it.x) σ' rfl
  rw [← hcons.value, hvalue] at hevaluate
  obtain ⟨verdict, hassess, hsettled⟩ := exists_settled (v := v) hup m.options.tolerances
    hftol (Vec.maxDiff it.x it.x) (Vec.infNorm (D it.x))
  rw [advance, run_bind_ok hannounce]
  simp only [hrecovered, if_true]
  rw [run_bind_ok hsearch]
  simp only [hstays]
  rw [run_bind_ok hevaluate]
  simp only [Exact.isFinite_num, if_true, hvalue, hassess]
  rcases hprepare : (m.prepare it.x).run σ₂ with ⟨i | P, σ₃⟩
  · exact .inr ⟨i, σ₂, σ₃, hprepare, σ₃, (run_bind_ok rfl).trans (run_bind_error hprepare)⟩
  · exact .inl ⟨_, verdict, _, (run_bind_ok rfl).trans (run_bind_ok hprepare), rfl, hsettled⟩

end Zero

/-! ## Runs -/

section Run

variable [IsStrictOrderedRing K] {S : Strategy (Exact G)} {eta : K} {x₀ : Fin n → K}
  {σ₀ : Session ω (Exact G)} {past : List (Iterate (Exact G) n)}

/-- **Predictions start from positive steps.** In a run with one of the two line searches, on an
objective with finite gradients where its values are finite, with preconditioners that take numbers
to numbers and without a vanishing divisor of an update:

* the first step of a run is positive, whatever the start, and the value and the gradient there;
* from every iterate from which the run goes on along a direction that leads downhill, the step that
  led there is positive, and so is every test step of the prediction, which therefore returns;
* where the search returns the zero step, the run stops in that iteration, at the same point, with
  the value settled, unless the preconditioner fails there. -/
theorem minimizeFrom_positive_steps (hf : f.Determined V D) (hup : ∀ v, v ≤ G.nextUp v)
    (hS : S.Proper) (hm : m.lineSearch = S.lineSearch) (heta : m.options.eta = .num eta)
    (hftol : 0.0 < m.options.ftol)
    (hkeeps : ∀ it past verdict σ, Visits m f view (Vec.num x₀) σ₀ (it :: past) verdict σ →
      KeepsNumbers n σ)
    (hdivides : ∀ it' it past verdict σ,
      Visits m f view (Vec.num x₀) σ₀ (it' :: it :: past) verdict σ → verdict.converged = false →
        DivisorsNonzero it it' σ) :
    (∀ (x g : Fin n → K) v, ∃ a, 0 < a ∧ TrialStep.initial Scalar.nan (Vec.num x) (Vec.num g)
      (.num v) TrialStep.initialShare = .ok (.num a : Exact G)) ∧
    (∀ it past σ, m.GoesOn f view (Vec.num x₀) σ₀ it past σ →
      (descentRestart it.gradient it.direction).recovered = true →
      (∃ a, 0 < a ∧ it.alpha = .num a) ∧
      (∀ (answer : Exact G → Trial ω (Exact G) n → Exact G × Trial ω (Exact G) n) w j,
        0.0 < (TrialStep.Rule.default.tests answer it.alpha w j).step) ∧
      ∃ q σ', Predicts f it σ q σ' ∧ (q.trial = 0.0 ∨ 0.0 < q.trial)) ∧
    ∀ it past σ r σ', m.GoesOn f view (Vec.num x₀) σ₀ it past σ → m.Finds f it σ r σ' →
      r.1 = 0.0 →
      (∃ res, (m.minimizeFrom f view (Vec.num x₀) σ₀).1.outcome = .ok res ∧
        res.verdict.f = true ∧ res.termination = .converged ∧
        res.iterations = it.iteration + 1 ∧ res.minimum = view it.x) ∨
      ∃ i σ₁ σ₂ σ₃, (m.prepare it.x).run σ₁ = (.error i, σ₂) ∧
        (m.run f view (Vec.num x₀)).run (m.opened σ₀) = (.error i, σ₃) := by
  refine ⟨TrialStep.exists_initial, fun it past σ hgoes hrecovered ↦ ?_,
    fun it past σ r σ' hgoes hfinds hzero ↦ ?_⟩
  · obtain ⟨v, g, hit⟩ := hgoes.exists_onNumbers hf hup hS hm heta hkeeps hdivides
    have hpos : 0.0 < it.alpha := Exact.pos_iff.mpr (.inl hit.alpha)
    exact ⟨hit.alpha, fun _ ↦ TrialStep.tests_pos TrialStep.Rule.default_proper hpos,
      hit.exists_nonneg_prediction hf hrecovered σ⟩
  · obtain ⟨v, g, hit⟩ := hgoes.exists_onNumbers hf hup hS hm heta hkeeps hdivides
    obtain ⟨_, hvisits, hverdict, hbudget⟩ := id hgoes
    rcases hfinds.run_advance_of_zero hf hup hftol (hvisits.determined hf) hit hzero view with
      ⟨it', verdict, σ₁, hadvance, hx, hsettled⟩ | ⟨i, σ₁, σ₂, hprepare, σ₃, hadvance⟩
    · have hconverged := converged_of_settled hsettled
      obtain ⟨_, hresults⟩ := exists_ok_of_ending
        ((hvisits.move hverdict hbudget hadvance).run_of_converged hconverged)
      refine .inl ⟨_, hresults, hsettled, rfl, (moves_of_run hadvance).iteration, ?_⟩
      rw [results, hx]
    · obtain ⟨σ₄, hrun⟩ := hgoes.run_of_interrupted hadvance
      exact .inr ⟨i, σ₁, σ₂, σ₄, hprepare, hrun⟩

end Run

theorem backtrackingMinimizer_keepsPositive {n : ℕ} :
    backtrackingMinimizer.KeepsPositive n (· = .identity) where
  refresh _ _ w := ⟨.identity, w, rfl, rfl⟩
  sized hP := ⟨.identity, 1, by rw [hP]; rfl, Operator.identity_acts⟩

section Quadratic

variable {f : Objective Unit (Exact Grid.rational) n} {A : Matrix (Fin n) (Fin n) ℚ}
  {c x₀ : Fin n → ℚ} {view : Vec (Exact Grid.rational) n → Tensor (Exact Grid.rational)}
  {σ₀ σ : Session Unit (Exact Grid.rational)} {it it' : Iterate (Exact Grid.rational) n}
  {past : List (Iterate (Exact Grid.rational) n)} {verdict : Verdict} (hq : f.IsQuadratic A c)
  (hA : SPD A) (hσ₀ : σ₀.preconditioner = .identity)

include hq hA hσ₀

theorem backtrackingMinimizer_onNumbers
    (h : Visits backtrackingMinimizer f view (Vec.num x₀) σ₀ (it :: past) verdict σ) :
    σ.preconditioner = .identity ∧ it.OnNumbers (quadraticValue A c) fun x ↦ A *ᵥ x - c :=
  h.onNumbers_of_isQuadratic hq hA backtrackingMinimizer_keepsPositive hσ₀ default_defect? rfl
    (Options.not_default_eta_le_zero _)

theorem backtrackingMinimizer_keepsNumbers
    (h : Visits backtrackingMinimizer f view (Vec.num x₀) σ₀ (it :: past) verdict σ) :
    KeepsNumbers n σ := by
  intro Q hQ v
  rw [(backtrackingMinimizer_onNumbers hq hA hσ₀ h).1] at hQ
  cases hQ
  exact ⟨v, rfl⟩

theorem backtrackingMinimizer_divisorsNonzero
    (h : Visits backtrackingMinimizer f view (Vec.num x₀) σ₀ (it' :: it :: past) verdict σ) :
    DivisorsNonzero it it' σ := by
  intro Q hQ
  obtain ⟨_, _, hbefore⟩ := h.exists_of_isSuffix (List.suffix_cons it' _) (by simp)
  obtain ⟨-, hit⟩ := backtrackingMinimizer_onNumbers hq hA hσ₀ hbefore
  obtain ⟨s, hne, hs⟩ := hit.exists_searched_ne_zero h.moves.recovered
  have hchange := h.change_ne_zero hq hA default_defect? rfl hit
  rw [(backtrackingMinimizer_onNumbers hq hA hσ₀ h).1] at hQ
  cases hQ
  have hnorm : Vec.dot it.searched it.searched ≠ 0.0 := by
    rw [hs, Vec.dot_num, Exact.zero_eq, ne_eq, Exact.num_inj, dotProduct_self_eq_zero]
    exact hne
  exact ⟨hnorm, hchange⟩

end Quadratic

/-- A run on `½ (x² + 3 y²)` goes on after its first iteration. -/
theorem minimizeFrom_positive_steps_quadratic :
    let A : Matrix (Fin 2) (Fin 2) ℚ := Matrix.diagonal ![1, 3]
    let q : Quadratic (Exact Grid.rational) 2 := .num A 0
    let f : Objective Unit (Exact Grid.rational) 2 := .ofFunctions q.value q.gradient
    let σ₀ : Session Unit (Exact Grid.rational) := { world := (), preconditioner := .identity }
    ∃ it past σ, backtrackingMinimizer.GoesOn f (⟨[2], ·⟩) (Vec.num ![3, 1]) σ₀ it past σ ∧
      it.iteration = 1 ∧ (∃ a, 0 < a ∧ it.alpha = .num a) ∧
      ∃ q σ', Predicts f it σ q σ' ∧ (q.trial = 0.0 ∨ 0.0 < q.trial) := by
  intro A q f σ₀
  have hq : f.IsQuadratic A 0 := Quadratic.isQuadratic_ofFunctions A 0
  have hA : SPD A := Operator.spd_diagonal fun i ↦ by fin_cases i <;> norm_num
  have heta : backtrackingMinimizer.options.eta = .num (2 / 5) := Options.default_eta _
  have hftol : 0.0 < backtrackingMinimizer.options.ftol :=
    Exact.pos_iff.mpr (.inl ⟨1 / 10 ^ 8, by norm_num, Options.default_ftol _⟩)
  have hσ₀ : σ₀.preconditioner = .identity := rfl
  have hf : f.Determined q.value q.gradient := by
    refine ⟨fun x ↦ .pure _, fun x ↦ .pure _, fun x _ ↦ ?_⟩
    rw [Quadratic.gradient_num]
    exact Vec.allFinite_iff.mpr ⟨_, rfl⟩
  obtain ⟨-, hsteps, -⟩ := minimizeFrom_positive_steps (S := .backtracking .default) hf
    Grid.rational_le_nextUp default_defect? rfl heta hftol
    (fun _ _ _ _ hvisits ↦ backtrackingMinimizer_keepsNumbers hq hA hσ₀ hvisits)
    fun _ _ _ _ _ hvisits _ ↦ backtrackingMinimizer_divisorsNonzero hq hA hσ₀ hvisits
  have hrun : ((backtrackingMinimizer.minimizeFrom f (⟨[2], ·⟩) (Vec.num ![3, 1])
      σ₀).1.outcome.toOption.map Results.iterations) = some 2 := by
    decide +kernel
  obtain ⟨r, hr, htwo⟩ := exists_ok_of_map_toOption hrun
  obtain ⟨it₂, past, verdict, σ₂, hvisits, -, -, hiterations, -⟩ := exists_last_of_ok hr
  have hlength := hvisits.iteration_eq_length
  rw [← hiterations, htwo] at hlength
  cases hvisits with
  | start => cases hlength
  | @move it₁ _ past _ _ σ₁ _ hbefore hverdict hbudget hadvance =>
    have hgoes : backtrackingMinimizer.GoesOn f (⟨[2], ·⟩) (Vec.num ![3, 1]) σ₀ it₁ past σ₁ :=
      ⟨_, hbefore, hverdict, hbudget⟩
    obtain ⟨halpha, -, hpredicts⟩ := hsteps it₁ past σ₁ hgoes (moves_of_run hadvance).recovered
    refine ⟨it₁, past, σ₁, hgoes, ?_, halpha, hpredicts⟩
    rw [hbefore.iteration_eq_length]
    exact (Nat.succ.inj hlength).symm

/-- Where a value is a number at the start and at the test step only, the search returns the zero
step, and the run stops with the value settled. -/
example :
    let f : Objective Unit (Exact Grid.rational) 1 := .ofFunctions
      (fun x ↦ if x[0] == 1.0 then 1.0 else if x[0] == 0.998 then 0.9985 else Scalar.infinity)
      fun _ ↦ #v[1.0]
    ((defaultMinimizer.minimizeFrom f (⟨[1], ·⟩) #v[1.0]
      { world := (), preconditioner := .identity }).1.outcome.toOption.map fun r ↦
        (r.iterations, r.verdict.f, r.minimum.entries.toList)) = some (1, true, [1.0]) := by
  decide +kernel

end Minimizer

end NonlinearCG
