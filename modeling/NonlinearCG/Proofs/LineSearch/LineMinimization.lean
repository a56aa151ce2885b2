import Mathlib
import NonlinearCG.Proofs.Exact.Quadratic

/-!
# Exact line minimization

In exact arithmetic a prediction and a search from it find the minimizer of a parabola that leads
downhill at its start, for every previous step and every fraction of it that is tested. The value
at the test step decides which of the two finds it:

* where it is not above the start, the quadratic fit of the prediction is exact, and the search
  accepts the trial step after one evaluation;
* where it is above, the trial step is the test step itself. It closes the bracket, and the first
  secant step of the search is the minimizer.

`TrialStep.run_propose` is the prediction, and `run_step_bottom` and `run_step_beyond` are the
search from each of its answers.
-/

namespace NonlinearCG.HagerZhang

variable {ω K : Type} [Field K] [LinearOrder K] [IsStrictOrderedRing K] {G : Grid K} {n : ℕ}
  {f : Objective ω (Exact G) n} {x s : Vec (Exact G) n} {c : Valley K} {p : HagerZhang (Exact G)}
  {rule : TrialStep.Rule (Exact G)} {b : Bench (Trial ω (Exact G) n) (Exact G)}

/-- **Exact line minimization.** Along a ray on which the objective is a parabola
`v + d t + q t²` with `d < 0 < q`, a prediction that tests the fraction `r` of the previous step
`a`, and an unbounded search from the prediction, end at the minimizer `-d / (2 q)`:

* if the test step does not go uphill, the prediction is the minimizer, and the search accepts it
  after one evaluation;
* if it goes uphill, the prediction is the test step, and the search ends after two evaluations,
  that at the test step and that at the minimizer. -/
theorem search_parabola (hp : p.Unbounded) (hgap : ∀ x, 0 < x → G.spacing x < x)
    (hf : (LineFunction.ofObjective f x s).Follows c) {r a : K} (hr : 0 < r) (ha : 0 < a)
    (hpsi1 : rule.psi1 = .num r) (hmax : rule.alphamax = Scalar.infinity)
    (hcache : b.cache.samples = #[c.sample 0]) :
    (c.height (r * a) ≤ c.value → ∃ b₁ b₂,
      (TrialStep.propose rule (.ofObjective f x s) (.num a)).run b =
        (.ok ((.num c.bottom, true), ⟨1, 0⟩), b₁) ∧
      (p.lineSearch.search f x s (.num c.bottom) true).run b₁ =
        (.ok ⟨.num c.bottom, ⟨1, 1⟩⟩, b₂)) ∧
    (c.value < c.height (r * a) → ∃ b₁ b₂,
      (TrialStep.propose rule (.ofObjective f x s) (.num a)).run b =
        (.ok ((.num (r * a), false), ⟨1, 0⟩), b₁) ∧
      (p.lineSearch.search f x s (.num (r * a)) false).run b₁ =
        (.ok ⟨.num c.bottom, ⟨2, 2⟩⟩, b₂) ∧
      b₂.cache.samples = #[c.sample 0, c.sample (r * a), c.sample c.bottom]) := by
  have htest : 0 < r * a := mul_pos hr ha
  have hstep : Scalar.lesser (rule.psi1 * .num a) rule.alphamax = .num (r * a) := by
    rw [hpsi1, hmax, Exact.num_mul, Exact.lesser_num_infinity]
  obtain ⟨_, b₁, hpropose, hpredicts, hkept⟩ :=
    TrialStep.run_propose hmax hf htest hstep (Cache.get?_zero_of_samples_eq hcache)
  have hsamples : b₁.cache.samples = #[c.sample 0] := by rw [hkept, hcache]
  cases hpredicts with
  | bottom hlow =>
    refine ⟨fun _ ↦ ?_, fun hhigh ↦ absurd hlow (not_le.mpr hhigh)⟩
    obtain ⟨b₂, hsearch⟩ := run_step_bottom hp hf hsamples
    exact ⟨b₁, b₂, hpropose, hsearch⟩
  | test hhigh =>
    refine ⟨fun hlow ↦ absurd hlow (not_le.mpr hhigh), fun _ ↦ ?_⟩
    have hbeyond := c.bottom_lt_of_height_lt htest hhigh
    obtain ⟨b₂, hsearch, hthree⟩ := run_step_beyond hp hgap hf hbeyond hsamples
    exact ⟨b₁, b₂, hpropose, hsearch, hthree⟩

def unitValley : Valley ℚ where
  value := 0
  slope := -1
  curvature := 1
  slope_neg := by norm_num
  curvature_pos := one_pos

/-- On `½ x² - x` from zero in the direction `1`, the last step 1 has a test step short of the
minimizer 1, and the last step 20 has one beyond it. The search finds the minimizer from both. -/
theorem search_parabola_unit :
    let q : Quadratic (Exact Grid.rational) 1 := .num 1 ![1]
    let f : Objective Unit (Exact Grid.rational) 1 := .ofFunctions q.value q.gradient
    let b : Bench (Trial Unit (Exact Grid.rational) 1) (Exact Grid.rational) :=
      { world := ⟨(), Vec.num 0, Vec.num 0⟩, cache := .seeded (unitValley.sample 0) }
    let propose := TrialStep.propose .default (.ofObjective f (Vec.num 0) (Vec.num 1))
    let search := (default : HagerZhang (Exact Grid.rational)).lineSearch.search f (Vec.num 0)
      (Vec.num 1)
    (∃ b₁ b₂, (propose (.num 1)).run b = (.ok ((.num 1, true), ⟨1, 0⟩), b₁) ∧
      (search (.num 1) true).run b₁ = (.ok ⟨.num 1, ⟨1, 1⟩⟩, b₂)) ∧
    ∃ b₁ b₂, (propose (.num 20)).run b = (.ok ((.num 4, false), ⟨1, 0⟩), b₁) ∧
      (search (.num 4) false).run b₁ = (.ok ⟨.num 1, ⟨2, 2⟩⟩, b₂) := by
  intro q f b propose search
  have hspd : SPD (1 : Matrix (Fin 1) (Fin 1) ℚ) :=
    (Operator.identity_acts (G := Grid.rational)).spd
  have hf : (LineFunction.ofObjective f (Vec.num 0) (Vec.num 1)).Follows unitValley :=
    (Quadratic.isQuadratic_ofFunctions 1 ![1]).follows hspd
      (by norm_num [unitValley, quadraticValue]) (by norm_num [unitValley, dotProduct])
      (by norm_num [unitValley, dotProduct])
  have hpsi1 : (TrialStep.Rule.default : TrialStep.Rule (Exact Grid.rational)).psi1 =
      .num (1 / 5) := by
    change (0.2 : Exact Grid.rational) = _
    rw [Exact.ofScientific_eq]
    norm_num
  have hbottom : unitValley.bottom = 1 := by norm_num [Valley.bottom, unitValley]
  have hcourses {a : ℚ} (ha : 0 < a) := search_parabola (b := b) default_unbounded
    (fun _ ↦ Grid.rational_spacing_lt) hf (by norm_num : (0 : ℚ) < 1 / 5) ha hpsi1 rfl rfl
  rw [hbottom] at hcourses
  constructor
  · exact (hcourses one_pos).1 (by norm_num [Valley.height, unitValley])
  · obtain ⟨b₁, b₂, hpropose, hsearch, -⟩ :=
      (hcourses (by norm_num : (0 : ℚ) < 20)).2 (by norm_num [Valley.height, unitValley])
    norm_num at hpropose hsearch
    exact ⟨b₁, b₂, hpropose, hsearch⟩

end NonlinearCG.HagerZhang
