import Mathlib
import NonlinearCG.Proofs.Exact.Vector
import NonlinearCG.Proofs.LineSearch.Ray

/-!
# Trial steps in exact arithmetic

The first step of a run is positive, and so is a prediction from a positive step along a ray that
leads downhill, if the value at its test step is a number. The two divisions of the quadratic fit
are by the test step, and the fit is used only where it is convex.
-/

namespace NonlinearCG.TrialStep

open Matrix

variable {ω K : Type} [Field K] [LinearOrder K] [IsStrictOrderedRing K] {G : Grid K} {n : ℕ}
  {φ : LineFunction ω (Exact G)} {b b' : Bench ω (Exact G)}

theorem exists_initial (x g : Fin n → K) (v : K) :
    ∃ a, 0 < a ∧ initial Scalar.nan (Vec.num x) (Vec.num g) (.num v) initialShare =
      .ok (.num a : Exact G) := by
  obtain ⟨gmax, hg, hgmax⟩ := Vec.exists_infNorm_num (G := G) g
  obtain ⟨xmax, hx, hxmax⟩ := Vec.exists_infNorm_num (G := G) x
  have hshare : (initialShare : Exact G) = .num (1 / 100) := by
    rw [initialShare, Exact.ofScientific_eq]
    norm_num
  simp only [initial, hgmax, hxmax, hshare, bne, Exact.isNaN_nan, Exact.zero_eq, Exact.one_eq,
    Exact.num_beq, Exact.abs_num, Exact.num_mul, Vec.dot_num, Bool.not_true, Bool.false_eq_true,
    if_false]
  by_cases hgzero : gmax = 0
  · exact ⟨1, one_pos, by simp [hgzero]⟩
  have hgpos : 0 < gmax := hg.lt_of_ne' hgzero
  -- the rule by the point, or the rule by the value where the point is zero
  by_cases hxzero : xmax = 0
  · by_cases hv : v = 0
    · exact ⟨1, one_pos, by simp [hgzero, hxzero, hv]⟩
    · have hgne : g ≠ 0 := by
        rintro rfl
        rw [Vec.infNorm_zero, Exact.num_inj] at hgmax
        exact hgzero hgmax.symm
      have hsquare : 0 < g ⬝ᵥ g :=
        (Vec.dotProduct_self_nonneg g).lt_of_ne' (dotProduct_self_eq_zero.not.mpr hgne)
      refine ⟨1 / 100 * |v| / (g ⬝ᵥ g), by positivity, ?_⟩
      simp [hgzero, hxzero, hv, Exact.divide_num hsquare.ne']
  · have hxpos : 0 < xmax := hx.lt_of_ne' hxzero
    refine ⟨1 / 100 * xmax / gmax, by positivity, ?_⟩
    simp [hgzero, hxzero, Exact.divide_num hgzero]

/-! ## Predictions -/

omit [IsStrictOrderedRing K] in
theorem reduce_num (rule : Rule (Exact G)) (φ : LineFunction ω (Exact G)) (k : ℕ) (calls : Calls)
    (t v : K) :
    reduce rule φ (k + 1) calls (.num t) (.num v) = pure (some (.num t, .num v), calls) := by
  rw [reduce, if_pos (Exact.isFinite_num ..)]

/-- The test step of a run is a fifth of the last step. -/
theorem default_test (a : K) :
    Scalar.lesser ((Rule.default : Rule (Exact G)).psi1 * .num a)
      (Rule.default : Rule (Exact G)).alphamax = .num (1 / 5 * a) := by
  change Scalar.lesser ((0.2 : Exact G) * .num a) Scalar.infinity = _
  rw [Exact.ofScientific_eq, Exact.num_mul, Exact.lesser_num_infinity]
  norm_num

omit [IsStrictOrderedRing K] in
/-- Where the value at the test step is a number, a prediction is the fit to it, after one
evaluation. -/
theorem run_propose_of_value {rule : Rule (Exact G)} {start : Sample (Exact G)} {alpha : Exact G}
    {t w : K} {r : Exact G × Bool} (hstart : b.cache.get? 0 = some start)
    (htest : Scalar.lesser (rule.psi1 * alpha) rule.alphamax = .num t)
    (hvalue : (Search.valueAt φ (.num t)).run b = (.ok (.num w), b'))
    (hfitted : fitted rule start alpha (.num t) (.num w) = .ok r) :
    (propose rule φ alpha).run b = (.ok (r, .ofValue), b') := by
  obtain ⟨k, hk⟩ : ∃ k, (max 1 (rule.attempts - 1)).toNat = k + 1 :=
    ⟨(max 1 (rule.attempts - 1)).toNat - 1, by omega⟩
  rw [propose, run_bind_ok (Search.run_cached hstart), htest, run_bind_ok hvalue, hk, reduce_num,
    pure_bind]
  simp only [hfitted]
  rfl

/-- A fit through numbers, from a start that leads downhill, predicts a positive step: the minimizer
of the parabola, the test step, or twice the last step. -/
theorem exists_fitted (z : Exact G) (v w : K) {d a t : K} (hd : d < 0) (ha : 0 < a) (ht : 0 < t) :
    ∃ c mayAccept, 0 < c ∧
      fitted .default ⟨z, .num v, .num d⟩ (.num a) (.num t) (.num w) = .ok (.num c, mayAccept) := by
  have hcurvature : curvature ⟨z, .num v, .num d⟩ (.num t) (.num w) =
      .ok (.num (((w - v) / t - d) / t) : Exact G) := by
    rw [curvature, Exact.num_sub, Exact.divide_num ht.ne']
    change Scalar.divide _ _ = _
    rw [Exact.num_sub, Exact.divide_num ht.ne']
  have hmax : (Rule.default : Rule (Exact G)).alphamax = Scalar.infinity := rfl
  have hdouble : (Rule.default : Rule (Exact G)).psi2 = 2.0 := rfl
  simp only [fitted, hcurvature]
  change ∃ c mayAccept, 0 < c ∧ (if (_ : Bool) then _ else _) = _
  by_cases hconvex : 0 < ((w - v) / t - d) / t ∧ w ≤ v
  · -- a convex fit that is not above the start
    refine ⟨-d / 2 / (((w - v) / t - d) / t), true, div_pos (by linarith) hconvex.1, ?_⟩
    rw [if_pos (by simp [hconvex.1, hconvex.2]), Exact.num_neg, Exact.two_eq,
      Exact.num_div two_ne_zero, Exact.num_div hconvex.1.ne', hmax,
      if_pos Exact.num_le_infinity, Exact.lesser_infinity]
    rfl
  rw [if_neg (by simpa using hconvex)]
  by_cases hlow : v < w
  · refine ⟨t, false, ht, ?_⟩
    rw [if_pos (Exact.num_lt.mpr hlow), hmax, Exact.lesser_infinity]
    rfl
  · refine ⟨a * 2, false, by positivity, ?_⟩
    rw [if_neg (Exact.num_lt.not.mpr hlow), hmax, hdouble, Exact.two_eq, Exact.num_mul,
      Exact.lesser_infinity]
    rfl

theorem exists_run_propose (hφ : φ.Valued) {a : K} (ha : 0 < a) {z : Exact G} {v d : K}
    (hd : d < 0) (hstart : b.cache.get? 0 = some ⟨z, .num v, .num d⟩) :
    ∃ c mayAccept b', 0 < c ∧
      (propose .default φ (.num a)).run b = (.ok ((.num c, mayAccept), .ofValue), b') := by
  have htest : 0 < 1 / 5 * a := by positivity
  obtain ⟨w, hreturns⟩ := hφ (1 / 5 * a)
  obtain ⟨_, hvalue⟩ := hreturns b.world
  obtain ⟨c, mayAccept, hc, hfitted⟩ := exists_fitted z v w hd ha htest
  exact ⟨c, mayAccept, _, hc,
    run_propose_of_value hstart (default_test a) (Search.run_evaluate hvalue .ofValue) hfitted⟩

end NonlinearCG.TrialStep
