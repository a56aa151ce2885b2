import Mathlib
import NonlinearCG.Proofs.LineSearch.Attempts
import NonlinearCG.Proofs.Exact.Number

/-!
# Predictions use the first test step with a finite value

A prediction evaluates a share of the last step and reduces it until the value there is finite. Of
`k` attempts it looks at the values of the first `k - 1` only: if none of these is finite, the last
one is evaluated, and the zero step is the answer whatever its value is. Otherwise the prediction is
the fit through the first finite value. It is positive, it is admissible, and it may be accepted at
once only where it minimizes a parabola through what was evaluated.
-/

namespace NonlinearCG

/-! ## Positive scalars -/

namespace Exact

variable {K : Type} [Field K] [LinearOrder K] [IsStrictOrderedRing K] {G : Grid K} {x y : Exact G}

theorem pos_iff : 0.0 < x ↔ (∃ a, 0 < a ∧ x = .num a) ∨ x = .top := by
  rw [zero_eq]
  constructor
  · intro h
    cases x with
    | num a => exact Or.inl ⟨a, h, rfl⟩
    | top => exact Or.inr rfl
    | bot | nan => exact h.elim
  · rintro (⟨a, ha, rfl⟩ | rfl)
    · exact ha
    · exact trivial

theorem mul_pos_of_pos (hx : 0.0 < x) (hy : 0.0 < y) : 0.0 < x * y := by
  rcases pos_iff.mp hx with ⟨a, ha, rfl⟩ | rfl
  · rcases pos_iff.mp hy with ⟨b, hb, rfl⟩ | rfl
    · exact pos_iff.mpr (Or.inl ⟨a * b, mul_pos ha hb, rfl⟩)
    · exact pos_iff.mpr (Or.inr (infinityOf_of_pos ha))
  · rcases pos_iff.mp hy with ⟨b, hb, rfl⟩ | rfl
    · exact pos_iff.mpr (Or.inr (infinityOf_of_pos hb))
    · exact pos_iff.mpr (Or.inr rfl)

theorem le_self_of_pos (hx : 0.0 < x) : x ≤ x := by
  rcases pos_iff.mp hx with ⟨a, -, rfl⟩ | rfl
  · exact num_le.mpr le_rfl
  · exact trivial

omit [IsStrictOrderedRing K] in
theorem lesser_pos (hx : 0.0 < x) (hy : 0.0 < y) : 0.0 < Scalar.lesser x y := by
  rw [Scalar.lesser]
  split_ifs
  · exact hy
  · exact hx

theorem lesser_le_left (hx : 0.0 < x) : Scalar.lesser x y ≤ x := by
  rw [Scalar.lesser]
  split_ifs with h
  · exact Exact.le_of_lt h
  · exact le_self_of_pos hx

omit [IsStrictOrderedRing K] in
theorem lesser_of_num_le {a : K} (h : .num a ≤ x) : Scalar.lesser x (.num a) = .num a := by
  cases x with
  | num b => rw [lesser_num, min_eq_right (num_le.mp h)]
  | top => exact lesser_infinity
  | bot | nan => exact h.elim

end Exact

namespace TrialStep

variable {ω α : Type} {n : ℕ}

/-! ## Test steps -/

/-- The test steps of a prediction from a step. -/
def Rule.tests [Scalar α] (rule : Rule α) (answer : α → ω → α × ω) (alpha : α) (w : ω) :
    ℕ → Attempt ω α :=
  Attempt.sequence answer (fun t _ ↦ rule.psi3 * t)
    (Attempt.start answer (Scalar.lesser (rule.psi1 * alpha) rule.alphamax) w)

variable {K : Type} [Field K] [LinearOrder K] {G : Grid K}

/-- The parameters of a prediction are in their ranges. -/
structure Rule.Proper (rule : Rule (Exact G)) : Prop where
  psi1 : 0.0 < rule.psi1
  psi2 : 1.0 < rule.psi2
  psi3 : 0.0 < rule.psi3 ∧ rule.psi3 < 1.0
  attempts : 2 ≤ rule.attempts
  alphamax : 0.0 < rule.alphamax

section Reduction

variable {φ : LineFunction ω (Exact G)} {rule : Rule (Exact G)} {alpha : Exact G}
  {answer : Exact G → ω → Exact G × ω}

theorem tests_pos [IsStrictOrderedRing K] (hrule : rule.Proper) (halpha : 0.0 < alpha) (w : ω)
    (j : ℕ) : 0.0 < (rule.tests answer alpha w j).step := by
  induction j with
  | zero => exact Exact.lesser_pos (Exact.mul_pos_of_pos hrule.psi1 halpha) hrule.alphamax
  | succ j ih =>
    rw [Rule.tests, Attempt.step_sequence_succ]
    exact Exact.mul_pos_of_pos hrule.psi3.1 ih

theorem run_reduce_of_forall_infinite (hφ : φ.Answers answer) (reductions j : ℕ) (calls : Calls)
    {w : ω} {b : Bench ω (Exact G)} (hworld : b.world = (rule.tests answer alpha w 0).world)
    (hinfinite : ∀ i < j, Scalar.isFinite (rule.tests answer alpha w i).value = false) :
    (reduce rule φ (reductions + j) calls (rule.tests answer alpha w 0).step
        (rule.tests answer alpha w 0).value).run b =
      (reduce rule φ reductions (calls + ⟨j, 0⟩) (rule.tests answer alpha w j).step
        (rule.tests answer alpha w j).value).run
        { b with
          world := (rule.tests answer alpha w j).world
          cache := b.cache.fail j
          made := b.made + ⟨j, 0⟩ } := by
  induction j generalizing reductions with
  | zero =>
    rw [← hworld]
    rfl
  | succ j ih =>
    have hlast := Bool.eq_false_iff.mp (hinfinite j (by omega))
    have hbudget : reductions + (j + 1) = reductions + 1 + j := by omega
    have hnext : rule.tests answer alpha w (j + 1) =
        Attempt.start answer (rule.psi3 * (rule.tests answer alpha w j).step)
          (rule.tests answer alpha w j).world := Attempt.sequence_succ ..
    rw [hbudget, ih (reductions + 1) fun i hi ↦ hinfinite i (by omega), reduce, if_neg hlast,
      run_bind_ok (hφ.run_valueAt _ _), hnext]
    rfl

end Reduction

/-! ## The fit -/

section Fit

variable [IsStrictOrderedRing K] {rule : Rule (Exact G)} {alpha t z : Exact G} {v d w : K}

/-- The quadratic coefficient of the fit is a number. It is positive only where the test step is a
number as well. -/
theorem exists_curvature (ht : 0.0 < t) :
    ∃ a, curvature ⟨z, .num v, .num d⟩ t (.num w) = .ok (.num a) ∧
      (0 < a → ∃ u, 0 < u ∧ t = .num u ∧ w = v + d * u + a * u ^ 2) := by
  rcases Exact.pos_iff.mp ht with ⟨u, hu, rfl⟩ | rfl
  · refine ⟨((w - v) / u - d) / u, ?_, fun _ ↦ ⟨u, hu, rfl, ?_⟩⟩
    · rw [curvature, Exact.num_sub, Exact.divide_num hu.ne']
      change Scalar.divide _ _ = _
      rw [Exact.num_sub, Exact.divide_num hu.ne']
    · field_simp
      ring
  · -- no slope is left over an infinite step
    have hquotient (y : K) : Scalar.divide (.num y : Exact G) .top = .ok (.num 0) := by
      rw [Scalar.divide, Exact.zero_eq]
      rfl
    refine ⟨0, ?_, fun h ↦ absurd h (lt_irrefl 0)⟩
    rw [curvature, Exact.num_sub, hquotient]
    change Scalar.divide (.num 0 - .num d : Exact G) .top = _
    rw [Exact.num_sub, hquotient]

/-- A step minimizes the parabola with a value and a slope at zero and with a value at another
step. -/
def MinimizesFit (v d u w c : K) : Prop :=
  ∃ a, 0 < a ∧ w = v + d * u + a * u ^ 2 ∧ ∀ y, v + d * c + a * c ^ 2 ≤ v + d * y + a * y ^ 2

theorem minimizesFit_vertex {a u : K} (ha : 0 < a)
    (hw : w = v + d * u + a * u ^ 2) : MinimizesFit v d u w (-d / 2 / a) := by
  refine ⟨a, ha, hw, fun y ↦ ?_⟩
  have hsquare : 0 ≤ a * (y - -d / 2 / a) ^ 2 := by positivity
  have hcomplete : v + d * y + a * y ^ 2 =
      v + d * (-d / 2 / a) + a * (-d / 2 / a) ^ 2 + a * (y - -d / 2 / a) ^ 2 := by
    field_simp
    ring
  calc v + d * (-d / 2 / a) + a * (-d / 2 / a) ^ 2
      ≤ v + d * (-d / 2 / a) + a * (-d / 2 / a) ^ 2 + a * (y - -d / 2 / a) ^ 2 :=
        le_add_of_nonneg_right hsquare
    _ = v + d * y + a * y ^ 2 := hcomplete.symm

theorem exists_fitted_pos (hrule : rule.Proper) (hd : d < 0) (halpha : 0.0 < alpha)
    (ht : 0.0 < t) :
    ∃ c mayAccept, fitted rule ⟨z, .num v, .num d⟩ alpha t (.num w) = .ok (c, mayAccept) ∧
      0.0 < c ∧ c ≤ rule.alphamax ∧
      (mayAccept = true →
        ∃ u c', t = .num u ∧ c = .num c' ∧ MinimizesFit v d u w c') := by
  obtain ⟨a, hcurvature, hparabola⟩ := exists_curvature (z := z) (v := v) (d := d) (w := w) ht
  have hadmissible {c : Exact G} (hc : 0.0 < c) :
      0.0 < Scalar.lesser rule.alphamax c ∧ Scalar.lesser rule.alphamax c ≤ rule.alphamax :=
    ⟨Exact.lesser_pos hrule.alphamax hc, Exact.lesser_le_left hrule.alphamax⟩
  simp only [fitted, hcurvature]
  change ∃ c mayAccept, (if (_ : Bool) then _ else _) = _ ∧ _
  by_cases hconvex : 0 < a ∧ w ≤ v
  · -- a convex fit that is not above the start
    have hvertex : -Exact.num d / 2.0 / .num a = (.num (-d / 2 / a) : Exact G) := by
      rw [Exact.num_neg, Exact.two_eq, Exact.num_div two_ne_zero, Exact.num_div hconvex.1.ne']
    have hpos : 0.0 < (.num (-d / 2 / a) : Exact G) := by
      rw [Exact.zero_eq, Exact.num_lt]
      exact div_pos (by linarith) hconvex.1
    rw [if_pos (by simp [hconvex.1, hconvex.2]), hvertex]
    by_cases hle : .num (-d / 2 / a) ≤ rule.alphamax
    · obtain ⟨u, -, rfl, hw⟩ := hparabola hconvex.1
      rw [if_pos hle, Exact.lesser_of_num_le hle]
      exact ⟨_, _, rfl, hpos, hle, fun _ ↦ ⟨u, _, rfl, rfl, minimizesFit_vertex hconvex.1 hw⟩⟩
    · obtain ⟨hc, hcmax⟩ := hadmissible hrule.alphamax
      rw [if_neg hle]
      exact ⟨_, _, rfl, hc, hcmax, fun h ↦ by cases h⟩
  rw [if_neg (by simpa using hconvex)]
  by_cases hlow : v < w
  · obtain ⟨hc, hcmax⟩ := hadmissible ht
    rw [if_pos (Exact.num_lt.mpr hlow)]
    exact ⟨_, _, rfl, hc, hcmax, fun h ↦ by cases h⟩
  · have hpsi2 : 0.0 < rule.psi2 := by
      have hone : (0.0 : Exact G) ≤ 1.0 := by
        rw [Exact.zero_eq, Exact.one_eq]
        exact zero_le_one' K
      exact Exact.lt_of_le_of_lt hone hrule.psi2
    obtain ⟨hc, hcmax⟩ := hadmissible (Exact.mul_pos_of_pos halpha hpsi2)
    rw [if_neg (Exact.num_lt.not.mpr hlow)]
    exact ⟨_, _, rfl, hc, hcmax, fun h ↦ by cases h⟩

end Fit

/-! ## Predictions -/

section Prediction

variable {φ : LineFunction ω (Exact G)} {rule : Rule (Exact G)} {alpha z : Exact G}
  {v d : K} {answer : Exact G → ω → Exact G × ω} {b : Bench ω (Exact G)}

/-- Where the values that are looked at are not finite, the prediction is the zero step. -/
theorem run_propose_of_infinite (hattempts : 2 ≤ rule.attempts) (hφ : φ.Answers answer)
    {start : Sample (Exact G)} (hstart : b.cache.get? 0 = some start)
    (hinfinite : ∀ i < rule.attempts.toNat - 1,
      Scalar.isFinite (rule.tests answer alpha b.world i).value = false) :
    (propose rule φ alpha).run b =
      (.ok ((0.0, true), ⟨rule.attempts.toNat, 0⟩),
        { b with
          world := (rule.tests answer alpha b.world (rule.attempts.toNat - 1)).world
          cache := b.cache.fail (rule.attempts.toNat - 1)
          made := b.made + ⟨rule.attempts.toNat, 0⟩ }) := by
  have hreductions : (max 1 (rule.attempts - 1)).toNat = 0 + (rule.attempts.toNat - 1) := by omega
  have hcalls : rule.attempts.toNat = rule.attempts.toNat - 1 + 1 := by omega
  have hreduce := run_reduce_of_forall_infinite hφ 0 (rule.attempts.toNat - 1) .ofValue
    (b := { b with
      world := (rule.tests answer alpha b.world 0).world
      made := b.made + Calls.ofValue }) rfl hinfinite
  rw [propose, run_bind_ok (Search.run_cached hstart), run_bind_ok (hφ.run_valueAt _ b),
    hreductions]
  refine (run_bind_ok hreduce).trans ?_
  rw [Calls.ofValue_add, Calls.ofValue_eq_add, ← hcalls]
  rfl

/-- The prediction is the fit through the first finite value, if it is looked at. -/
theorem run_propose_of_finite {j : ℕ} (hφ : φ.Answers answer) {start : Sample (Exact G)}
    (hstart : b.cache.get? 0 = some start) (hj : j < rule.attempts.toNat - 1)
    (hinfinite : ∀ i < j, Scalar.isFinite (rule.tests answer alpha b.world i).value = false)
    (hfinite : Scalar.isFinite (rule.tests answer alpha b.world j).value = true)
    {r : Exact G × Bool}
    (hfitted : fitted rule start alpha (rule.tests answer alpha b.world j).step
      (rule.tests answer alpha b.world j).value = .ok r) :
    (propose rule φ alpha).run b =
      (.ok (r, ⟨j + 1, 0⟩),
        { b with
          world := (rule.tests answer alpha b.world j).world
          cache := b.cache.fail j
          made := b.made + ⟨j + 1, 0⟩ }) := by
  obtain ⟨k, hk⟩ : ∃ k, (max 1 (rule.attempts - 1)).toNat = k + 1 + j :=
    ⟨rule.attempts.toNat - 2 - j, by omega⟩
  have hreduce := run_reduce_of_forall_infinite hφ (k + 1) j .ofValue
    (b := { b with
      world := (rule.tests answer alpha b.world 0).world
      made := b.made + Calls.ofValue }) rfl hinfinite
  conv at hreduce => rhs; rw [reduce, if_pos hfinite]
  rw [propose, run_bind_ok (Search.run_cached hstart), run_bind_ok (hφ.run_valueAt _ b), hk]
  refine (run_bind_ok hreduce).trans ?_
  simp only [hfitted, Calls.ofValue_add, Calls.ofValue_eq_add]
  rfl

theorem exists_run_propose_of_answers [IsStrictOrderedRing K] (hrule : rule.Proper)
    (hφ : φ.Answers answer) (halpha : 0.0 < alpha) (hd : d < 0)
    (hstart : b.cache.get? 0 = some ⟨z, .num v, .num d⟩) :
    ∃ c mayAccept calls b', (propose rule φ alpha).run b = (.ok ((c, mayAccept), calls), b') ∧
      (c = 0.0 ∨ 0.0 < c) := by
  by_cases hsome : ∃ j, j < rule.attempts.toNat - 1 ∧
      Scalar.isFinite (rule.tests answer alpha b.world j).value = true
  · -- the first test step with a finite value decides
    obtain ⟨hj, hfinite⟩ := Nat.find_spec hsome
    have hinfinite : ∀ i < Nat.find hsome,
        Scalar.isFinite (rule.tests answer alpha b.world i).value = false := fun i hi ↦
      Bool.eq_false_iff.mpr fun h ↦ Nat.find_min hsome hi ⟨hi.trans hj, h⟩
    obtain ⟨w, hw⟩ := Exact.isFinite_iff.mp hfinite
    obtain ⟨c, mayAccept, hfitted, hc, -⟩ := exists_fitted_pos (z := z) (v := v) (w := w) hrule hd
      halpha (tests_pos hrule halpha b.world (Nat.find hsome))
    rw [← hw] at hfitted
    exact ⟨c, mayAccept, _, _, run_propose_of_finite hφ hstart hj hinfinite hfinite hfitted,
      .inr hc⟩
  · have hinfinite : ∀ i < rule.attempts.toNat - 1,
        Scalar.isFinite (rule.tests answer alpha b.world i).value = false := fun i hi ↦
      Bool.eq_false_iff.mpr fun h ↦ hsome ⟨i, hi, h⟩
    exact ⟨0.0, true, _, _, run_propose_of_infinite hrule.attempts hφ hstart hinfinite, .inl rfl⟩

/-- **Predictions use the first test step with a finite value.** From a positive step, under a
finite slope that leads downhill, whatever the objective answers:

* all test steps are positive;
* if the values at all test steps but the last one are not finite, the last one is evaluated, and
  the answer is the zero step, whatever the value there is; the other evaluations are counted as
  failures;
* otherwise the answer is a positive step that is admissible, from the first test step with a finite
  value, and those before it are counted as failures; the step may be accepted at once only if it
  minimizes the parabola through the start and the test step.

In both cases the world is the one that the evaluations of the value have left, and their number is
returned; the gradient is not evaluated. -/
theorem first_finite [IsStrictOrderedRing K] (hrule : rule.Proper) {f : Objective ω (Exact G) n}
    {answer : Vec (Exact G) n → ω → Exact G × ω} (hf : f.Answers answer) (x s : Vec (Exact G) n)
    (halpha : 0.0 < alpha) (hd : d < 0) {b : Bench (Trial ω (Exact G) n) (Exact G)}
    (hstart : b.cache.get? 0 = some ⟨z, .num v, .num d⟩) :
    let test := rule.tests (answerAlong answer x s) alpha b.world
    let last := rule.attempts.toNat - 1
    (∀ j, 0.0 < (test j).step) ∧
    ((∀ i < last, Scalar.isFinite (test i).value = false) →
      (propose rule (.ofObjective f x s) alpha).run b =
        (.ok ((0.0, true), ⟨last + 1, 0⟩),
          { b with
            world := (test last).world
            cache := b.cache.fail last
            made := b.made + ⟨last + 1, 0⟩ })) ∧
    ∀ j < last, (∀ i < j, Scalar.isFinite (test i).value = false) →
      Scalar.isFinite (test j).value = true →
      ∃ c mayAccept,
        (propose rule (.ofObjective f x s) alpha).run b =
          (.ok ((c, mayAccept), ⟨j + 1, 0⟩),
            { b with
              world := (test j).world
              cache := b.cache.fail j
              made := b.made + ⟨j + 1, 0⟩ }) ∧
        0.0 < c ∧ c ≤ rule.alphamax ∧
        (mayAccept = true →
          ∃ u w c', (test j).step = .num u ∧ (test j).value = .num w ∧ c = .num c' ∧
            MinimizesFit v d u w c') := by
  intro test last
  have hφ := hf.along x s
  have hattempts := hrule.attempts
  have hlast : last + 1 = rule.attempts.toNat := by omega
  refine ⟨tests_pos hrule halpha b.world, ?_, ?_⟩
  · intro hinfinite
    rw [hlast]
    exact run_propose_of_infinite hattempts hφ hstart hinfinite
  · intro j hj hinfinite hfinite
    obtain ⟨w, hw⟩ := Exact.isFinite_iff.mp hfinite
    obtain ⟨c, mayAccept, hfitted, hc, hcmax, hminimizes⟩ :=
      exists_fitted_pos (z := z) (v := v) (w := w) hrule hd halpha
        (tests_pos hrule halpha b.world j)
    rw [← hw] at hfitted
    refine ⟨c, mayAccept, run_propose_of_finite hφ hstart hj hinfinite hfinite hfitted, hc, hcmax,
      fun h ↦ ?_⟩
    obtain ⟨u, c', hu, hc', hfit⟩ := hminimizes h
    exact ⟨u, w, c', hu, hw, hc', hfit⟩

end Prediction

/-- The rule of runs, with another number of attempts. -/
def Rule.withAttempts (k : ℤ) : Rule (Exact Grid.rational) := { Rule.default with attempts := k }

/-- From `20` the first test step is behind the wall, and the second one leads to the minimizer of
the parabola. -/
theorem first_finite_parabola :
    ∃ c mayAccept b, (propose (.withAttempts 3) (.ofObjective walledParabola #v[.num 0] #v[.num 1])
        (.num 20)).run parabolaBench = (.ok ((c, mayAccept), ⟨2, 0⟩), b) ∧
      0.0 < c ∧ b.cache.failures = 1 ∧ b.made = ⟨2, 0⟩ := by
  have hrule : (Rule.withAttempts 3).Proper := by
    constructor <;> decide +kernel
  have halpha : 0.0 < (.num 20 : Exact Grid.rational) := by decide +kernel
  obtain ⟨-, -, hruns⟩ := first_finite hrule walledParabola_answers #v[.num 0] #v[.num 1] halpha
    (by norm_num : (-1 : ℚ) < 0)
    (rfl : parabolaBench.cache.get? 0 = some ⟨.num 0, .num 0, .num (-1)⟩)
  obtain ⟨c, mayAccept, hrun, hpos, -⟩ :=
    hruns 1 (by decide +kernel) (by decide +kernel) (by decide +kernel)
  exact ⟨c, mayAccept, _, hrun, hpos, rfl, rfl⟩

/-- With two attempts the second test step is the last one: it is evaluated, its value is a number,
and the prediction is the zero step. -/
theorem propose_overlooks_last :
    ∃ b v, (propose (.withAttempts 2) (.ofObjective walledParabola #v[.num 0] #v[.num 1])
        (.num 20)).run parabolaBench = (.ok ((0.0, true), ⟨2, 0⟩), b) ∧
      b.made = ⟨2, 0⟩ ∧ b.world.point = #v[.num (2 / 5)] ∧
      (walledParabola.value #v[.num (2 / 5)]).run () = (.ok v, ()) ∧ v = .num (-6 / 25) := by
  have hattempts : 2 ≤ (Rule.withAttempts 2).attempts := le_rfl
  have hinfinite : ∀ i < (Rule.withAttempts 2).attempts.toNat - 1,
      Scalar.isFinite ((Rule.withAttempts 2).tests
        (answerAlong (fun x w ↦ (walledValue x, w)) #v[.num 0] #v[.num 1]) (.num 20)
        parabolaBench.world i).value = false := by
    decide +kernel
  have hrun := run_propose_of_infinite hattempts
    (walledParabola_answers.along #v[.num 0] #v[.num 1])
    (rfl : parabolaBench.cache.get? 0 = some ⟨.num 0, .num 0, .num (-1)⟩) hinfinite
  refine ⟨_, _, hrun, rfl, ?_, rfl, ?_⟩
  · decide +kernel
  · decide +kernel

end TrialStep

end NonlinearCG
