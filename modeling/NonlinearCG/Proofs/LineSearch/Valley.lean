import Mathlib
import NonlinearCG.Proofs.LineSearch.Parameters
import NonlinearCG.Proofs.LineSearch.Prediction
import NonlinearCG.Proofs.LineSearch.Rounds

/-!
# Parabolas

In exact arithmetic the search finds the minimizer of a parabola that leads downhill at its start,
whatever the trial step before it was. The test step of the prediction falls short of it or goes
beyond it:

* where the value at the test step is at most that at the start, the fitted parabola is the function
  itself, the trial step is the minimizer, and the search accepts it at once;
* where it is above, the test step is beyond twice the minimizer. It closes a bracket with the
  start, and the secant of the slopes at both ends is the minimizer.
-/

namespace NonlinearCG

/-- A parabola that opens upwards and leads downhill at the zero step. -/
structure Valley (K : Type) [Field K] [LinearOrder K] where
  value : K
  slope : K
  curvature : K
  slope_neg : slope < 0
  curvature_pos : 0 < curvature

namespace Valley

variable {K : Type} [Field K] [LinearOrder K] {G : Grid K}

def height (c : Valley K) (t : K) : K := c.value + c.slope * t + c.curvature / 2 * t ^ 2

def sample (c : Valley K) (t : K) : Sample (Exact G) :=
  ⟨.num t, .num (c.height t), .num (c.slope + c.curvature * t)⟩

def bottom (c : Valley K) : K := -c.slope / c.curvature

theorem height_zero (c : Valley K) : c.height 0 = c.value := by
  rw [height, mul_zero, zero_pow two_ne_zero, mul_zero, add_zero, add_zero]

theorem sample_zero (c : Valley K) :
    c.sample 0 = (⟨.num 0, .num c.value, .num c.slope⟩ : Sample (Exact G)) := by
  rw [sample, height_zero, mul_zero, add_zero]

variable [IsStrictOrderedRing K]

theorem bottom_pos (c : Valley K) : 0 < c.bottom :=
  div_pos (neg_pos.mpr c.slope_neg) c.curvature_pos

omit [IsStrictOrderedRing K] in
theorem slope_bottom (c : Valley K) : c.slope + c.curvature * c.bottom = 0 := by
  rw [bottom, mul_div_cancel₀ _ c.curvature_pos.ne', add_neg_cancel]

theorem height_bottom (c : Valley K) : c.height c.bottom = c.value + c.slope / 2 * c.bottom := by
  have hslope := c.slope_bottom
  rw [height]
  linear_combination c.bottom / 2 * hslope

/-- Where the value is above that at the start, the minimizer has been passed. -/
theorem bottom_lt_of_height_lt (c : Valley K) {t : K} (ht : 0 < t) (h : c.value < c.height t) :
    c.bottom < t := by
  have hrise : 0 < t * (c.slope + c.curvature / 2 * t) := by
    rw [height] at h
    linarith
  have hslope := (mul_pos_iff_of_pos_left ht).mp hrise
  rw [bottom, div_lt_iff₀ c.curvature_pos]
  calc -c.slope < c.curvature / 2 * t := neg_lt_iff_pos_add'.mpr hslope
    _ = t * c.curvature / 2 := by ring
    _ < t * c.curvature := half_lt_self (mul_pos ht c.curvature_pos)

theorem slope_pos_of_lt (c : Valley K) {t : K} (h : c.bottom < t) :
    0 < c.slope + c.curvature * t := by
  rw [bottom, div_lt_iff₀ c.curvature_pos] at h
  linarith

end Valley

/-- A function along a ray that is a parabola, and returns its values and slopes. -/
structure LineFunction.Follows {ω K : Type} [Field K] [LinearOrder K] {G : Grid K}
    (φ : LineFunction ω (Exact G)) (c : Valley K) : Prop where
  value (t : K) : Returns (φ.value (.num t)) (.num (c.height t))
  both (t : K) : Returns (φ.both (.num t)) (.num (c.height t), .num (c.slope + c.curvature * t))

section Evaluation

variable {ω K : Type} [Field K] [LinearOrder K] {G : Grid K} {φ : LineFunction ω (Exact G)}
  {c : Valley K} {b : Bench ω (Exact G)}

theorem LineFunction.Follows.run_valueAt (h : φ.Follows c) (t : K) (b : Bench ω (Exact G)) :
    ∃ b', (Search.valueAt φ (.num t)).run b = (.ok (.num (c.height t)), b') ∧
      b'.cache = b.cache := by
  obtain ⟨_, hvalue⟩ := h.value t b.world
  exact ⟨_, Search.run_evaluate hvalue .ofValue, rfl⟩

theorem LineFunction.Follows.run_sampleAt (h : φ.Follows c) (t : K) (b : Bench ω (Exact G)) :
    ∃ b', (Search.sampleAt φ (.num t)).run b = (.ok (c.sample t), b') ∧ b'.cache = b.cache := by
  obtain ⟨_, hboth⟩ := h.both t b.world
  exact ⟨_, run_bind_ok (Search.run_evaluate hboth .ofBoth), rfl⟩

/-! ## Prediction -/

/-- What is predicted on a parabola: the minimizer, which may be accepted at once, or the test step
where that is too high. -/
inductive Valley.Predicts (c : Valley K) (t : K) : Exact G × Bool → Prop
  | bottom : c.height t ≤ c.value → c.Predicts t (.num c.bottom, true)
  | test : c.value < c.height t → c.Predicts t (.num t, false)

variable [IsStrictOrderedRing K]

theorem TrialStep.curvature_valley (c : Valley K) {t : K} (ht : 0 < t) :
    curvature (c.sample 0) (.num t) (.num (c.height t)) =
      .ok (.num (c.curvature / 2) : Exact G) := by
  rw [curvature, Valley.sample_zero, Exact.num_sub, Exact.divide_num ht.ne']
  change Scalar.divide _ _ = _
  rw [Exact.num_sub, Exact.divide_num ht.ne', Valley.height]
  congr 2
  field_simp
  ring

variable {rule : TrialStep.Rule (Exact G)}

theorem TrialStep.fitted_valley (hmax : rule.alphamax = Scalar.infinity) (c : Valley K)
    (alpha : Exact G) {t : K} (ht : 0 < t) :
    ∃ r, fitted rule (c.sample 0) alpha (.num t) (.num (c.height t)) = .ok r ∧
      c.Predicts t r := by
  have hcurvature := curvature_valley (G := G) c ht
  rw [Valley.sample_zero] at hcurvature ⊢
  have hhalf : 0 < c.curvature / 2 := half_pos c.curvature_pos
  simp only [fitted, hcurvature]
  change ∃ r, (if (_ : Bool) then _ else _) = _ ∧ _
  by_cases hlow : c.height t ≤ c.value
  · -- not above the start: the fit is the parabola itself
    refine ⟨(.num c.bottom, true), ?_, .bottom hlow⟩
    have hfit : -c.slope / 2 / (c.curvature / 2) = c.bottom :=
      div_div_div_cancel_right₀ two_ne_zero ..
    rw [if_pos (by simp [hhalf, hlow]), Exact.num_neg, Exact.two_eq, Exact.num_div two_ne_zero,
      Exact.num_div hhalf.ne', hfit, hmax, if_pos Exact.num_le_infinity, Exact.lesser_infinity]
    rfl
  · refine ⟨(.num t, false), ?_, .test (not_le.mp hlow)⟩
    rw [if_neg (by simp [hlow]), if_pos (by simpa using hlow), hmax, Exact.lesser_infinity]
    rfl

theorem TrialStep.run_propose (hmax : rule.alphamax = Scalar.infinity) (h : φ.Follows c)
    {alpha : Exact G} {t : K} (ht : 0 < t)
    (htest : Scalar.lesser (rule.psi1 * alpha) rule.alphamax = .num t)
    (hstart : b.cache.get? 0 = some (c.sample 0)) :
    ∃ r b', (propose rule φ alpha).run b = (.ok (r, .ofValue), b') ∧ c.Predicts t r ∧
      b'.cache = b.cache := by
  obtain ⟨r, hfitted, hr⟩ := fitted_valley hmax c alpha ht
  obtain ⟨b', hvalue, hcache⟩ := h.run_valueAt t b
  exact ⟨r, b', run_propose_of_value hstart htest hvalue hfitted, hr, hcache⟩

/-! ## Search -/

namespace HagerZhang

variable {p : HagerZhang (Exact G)} {t : K}

omit [IsStrictOrderedRing K] in
theorem finite_sample (c : Valley K) (t : K) : finite (c.sample (G := G) t) = true := rfl

theorem accepts_bottom (hp : p.Unbounded) (c : Valley K) :
    (p.test (c.sample 0)).accepts (c.sample c.bottom) = .ok true := by
  obtain ⟨delta, sigma, hdelta, hsigma, hhalf, hpos⟩ := hp.exists_delta_sigma
  have hrise : (c.height c.bottom - c.value) / c.bottom = c.slope / 2 := by
    rw [c.height_bottom, add_sub_cancel_left, mul_div_cancel_right₀ _ c.bottom_pos.ne']
  have hdecrease : c.slope / 2 ≤ delta * c.slope := by
    have hprod := mul_pos_of_neg_of_neg (sub_neg.mpr hhalf) c.slope_neg
    linarith
  have hflat : sigma * c.slope ≤ 0 := (mul_neg_of_pos_of_neg hpos c.slope_neg).le
  rw [WolfeTest.accepts, Valley.sample_zero, test, Valley.sample, Exact.num_sub,
    Exact.divide_num c.bottom_pos.ne', hrise, c.slope_bottom]
  refine congrArg Except.ok ?_
  simp [WolfeTest.flattened, hdelta, hsigma, hdecrease, hflat]

omit [Field K] [LinearOrder K] [IsStrictOrderedRing K] in
theorem run_keep (s : Sample (Exact G)) (b : Bench ω (Exact G)) :
    (Search.keep s).run b = (.ok ⟨s, b.cache.size⟩, { b with cache := b.cache.push s }) := rfl

theorem admissible (hp : p.Unbounded) (ht : 0 < t) :
    0.0 < (.num t : Exact G) ∧ Scalar.isFinite (.num t : Exact G) = true ∧ .num t ≤ p.alphamax := by
  rw [Exact.zero_eq, hp.alphamax]
  exact ⟨ht, rfl, Exact.num_le_infinity⟩

theorem run_approach_bottom (hp : p.Unbounded) (h : φ.Follows c) (b : Bench ω (Exact G)) :
    ∃ b', (approach p φ (c.sample 0) (.num c.bottom) true).run b =
      (.ok (.ended (.num c.bottom), .ofBoth), b') := by
  obtain ⟨b₁, hsample, -⟩ := h.run_sampleAt c.bottom b
  unfold approach
  simp only [finite_sample, if_true]
  rw [if_pos (admissible hp c.bottom_pos), run_bind_ok hsample,
    reduce_of_finite _ _ (finite_sample c _), pure_bind]
  simp only [finite_sample, if_true]
  rw [run_bind_ok (run_keep _ _)]
  simp only [accepts_bottom hp, Search.lift, Bool.true_and, if_true, pure_bind]
  exact ⟨_, rfl⟩

omit [IsStrictOrderedRing K] in
theorem run_lowEnd (limit : Exact G) {start : Sample (Exact G)}
    (hstart : b.cache.get? 0 = some start) :
    (lowEnd limit 1).run b = (.ok ⟨start, 0⟩, b) := by
  rw [lowEnd, run_bind_ok (Search.run_cached hstart)]
  split_ifs
  · rfl
  · exact Search.run_cached hstart

theorem run_approach_beyond (hp : p.Unbounded) (h : φ.Follows c) (ht : c.bottom < t)
    (hcache : b.cache.samples = #[c.sample 0]) :
    ∃ rounds b', (approach p φ (c.sample 0) (.num t) false).run b =
      (.ok (.bracket ⟨c.sample 0, 0⟩ ⟨c.sample t, 1⟩ (rounds + 1), .ofBoth), b') ∧
      b'.cache.samples = #[c.sample 0, c.sample t] := by
  obtain ⟨b₁, hsample, hcache₁⟩ := h.run_sampleAt t b
  have hsamples : b₁.cache.samples = #[c.sample 0] := by rw [hcache₁, hcache]
  have hsize : b₁.cache.size = 1 := by
    rw [Cache.size, hsamples]
    rfl
  obtain ⟨k, hk⟩ := Int.eq_ofNat_of_zero_le (sub_nonneg.mpr hp.rounds)
  have hleft : (p.linesearchmax - 1).toNat = k + 1 + 1 := by omega
  -- the line rises at the trial step, so the first round of bracketing closes the bracket
  have hslope : 0.0 ≤ (c.sample (G := G) t).slope := by
    rw [Exact.zero_eq]
    exact (c.slope_pos_of_lt ht).le
  unfold approach
  simp only [finite_sample, if_true]
  rw [if_pos (admissible hp (c.bottom_pos.trans ht)), run_bind_ok hsample,
    reduce_of_finite _ _ (finite_sample c _), pure_bind]
  simp only [finite_sample, if_true]
  rw [run_bind_ok (run_keep _ _), hsize]
  simp only [Bool.false_and, Bool.false_eq_true, if_false]
  rw [hleft, bracket, if_pos hslope, run_bind_ok (run_lowEnd _ ?_)]
  · refine ⟨k, _, rfl, ?_⟩
    change b₁.cache.samples.push (c.sample t) = _
    rw [hsamples]
    rfl
  · exact Cache.grows_push _ _ 0 _ (Cache.get?_zero_of_samples_eq hsamples)

/-- The secant of the slopes at the start and beyond the minimizer is the minimizer. -/
theorem secant_valley (c : Valley K) (ht : t ≠ 0) :
    secant (c.sample (G := G) 0).step (c.sample t).step (c.sample 0).slope (c.sample t).slope =
      .ok (.num c.bottom) := by
  have hrise : c.slope + c.curvature * t - c.slope ≠ 0 := by
    rw [add_sub_cancel_left]
    exact mul_ne_zero c.curvature_pos.ne' ht
  have hne : ¬c.slope + c.curvature * t = c.slope := fun h ↦ hrise (sub_eq_zero.mpr h)
  rw [Valley.sample_zero, secant]
  simp only [Valley.sample, Exact.num_beq, hne, decide_false, Bool.false_eq_true, if_false,
    Exact.num_mul, Exact.num_sub, Exact.divide_num hrise]
  congr 2
  rw [Valley.bottom]
  have hcurvature := c.curvature_pos.ne'
  field_simp
  ring

omit [IsStrictOrderedRing K] in
theorem run_probe (h : φ.Follows c) (refusal : Exact G → SearchError (Exact G)) (t : K)
    (b : Bench ω (Exact G)) :
    ∃ i b', (probe φ refusal (.num t)).run b = (.ok ⟨c.sample t, i⟩, b') ∧
      b'.cache = b.cache.push (c.sample t) := by
  obtain ⟨b', hsample, hcache⟩ := h.run_sampleAt t b
  rw [probe, run_bind_ok hsample, if_pos (finite_sample c t)]
  exact ⟨_, _, run_keep _ _, by rw [hcache]⟩

/-- A double secant step on the bracket of the start and a step beyond the minimizer accepts the
minimizer, after one evaluation. -/
theorem run_doubleSecant (hp : p.Unbounded) (h : φ.Follows c) (ht : c.bottom < t) (i j : ℕ)
    (b : Bench ω (Exact G)) :
    ∃ k b', (doubleSecant φ (p.test (c.sample 0)) ⟨c.sample 0, i⟩ ⟨c.sample t, j⟩).run b =
      (.ok (.accepted ⟨c.sample c.bottom, k⟩, .ofBoth), b') ∧
      b'.cache = b.cache.push (c.sample c.bottom) := by
  have hslopes : (c.sample (G := G) 0).slope < 0.0 ∧ 0.0 ≤ (c.sample (G := G) t).slope := by
    rw [Valley.sample_zero, Exact.zero_eq]
    exact ⟨c.slope_neg, (c.slope_pos_of_lt ht).le⟩
  obtain ⟨k, b', hprobe, hkept⟩ := run_probe h .secantNotFinite c.bottom b
  rw [doubleSecant]
  simp only [hslopes, secant_valley c (c.bottom_pos.trans ht).ne', Search.lift, pure_bind, if_true,
    and_self]
  rw [run_bind_ok hprobe]
  simp only [accepts_bottom hp, pure_bind, if_true]
  exact ⟨k, b', rfl, hkept⟩

theorem run_round (hp : p.Unbounded) (hgap : ∀ x, 0 < x → G.spacing x < x) (h : φ.Follows c)
    (ht : c.bottom < t) (i j : ℕ) (b : Bench ω (Exact G)) :
    ∃ b', (round p φ (p.test (c.sample 0)) ⟨c.sample 0, i⟩ ⟨c.sample t, j⟩).run b =
      (.ok (.ended (.num c.bottom), .ofBoth), b') ∧
      b'.cache = b.cache.push (c.sample c.bottom) := by
  have hwidth : ¬(c.sample (G := G) t).step - (c.sample 0).step ≤
      Scalar.spacing (c.sample (G := G) t).step := by
    simpa [Valley.sample] using hgap t (c.bottom_pos.trans ht)
  obtain ⟨k, b', hsecant, hkept⟩ := run_doubleSecant hp h ht i j b
  rw [round, if_neg hwidth, run_bind_ok hsecant]
  exact ⟨b', rfl, hkept⟩

theorem run_step_bottom (hp : p.Unbounded) (h : φ.Follows c)
    (hcache : b.cache.samples = #[c.sample 0]) :
    ∃ b', (step p φ (.num c.bottom) true).run b = (.ok ⟨.num c.bottom, ⟨1, 1⟩⟩, b') := by
  obtain ⟨b', happroach⟩ := run_approach_bottom hp h b
  rw [step, run_bind_ok (Search.run_cached (Cache.get?_zero_of_samples_eq hcache)),
    run_bind_ok happroach]
  exact ⟨b', rfl⟩

/-- From a trial step beyond the minimizer, the search brackets with the trial step, and its first
secant step is the minimizer. -/
theorem run_step_beyond (hp : p.Unbounded) (hgap : ∀ x, 0 < x → G.spacing x < x) (h : φ.Follows c)
    (ht : c.bottom < t) (hcache : b.cache.samples = #[c.sample 0]) :
    ∃ b', (step p φ (.num t) false).run b = (.ok ⟨.num c.bottom, ⟨2, 2⟩⟩, b') ∧
      b'.cache.samples = #[c.sample 0, c.sample t, c.sample c.bottom] := by
  obtain ⟨rounds, b₁, happroach, hsamples⟩ := run_approach_beyond hp h ht hcache
  obtain ⟨b', hround, hkept⟩ := run_round hp hgap h ht 0 1 b₁
  rw [step, run_bind_ok (Search.run_cached (Cache.get?_zero_of_samples_eq hcache)),
    run_bind_ok happroach]
  simp only [narrow]
  rw [run_bind_ok hround]
  refine ⟨b', rfl, ?_⟩
  rw [hkept, Cache.push, hsamples]
  rfl

theorem run_step (hp : p.Unbounded) (hgap : ∀ x, 0 < x → G.spacing x < x) (h : φ.Follows c)
    (ht : 0 < t) {r : Exact G × Bool} (hr : c.Predicts t r)
    (hcache : b.cache.samples = #[c.sample 0]) :
    ∃ calls b', (step p φ r.1 r.2).run b = (.ok ⟨.num c.bottom, calls⟩, b') := by
  cases hr with
  | bottom _ => exact ⟨_, run_step_bottom hp h hcache⟩
  | test hhigh =>
    obtain ⟨b', hrun, -⟩ := run_step_beyond hp hgap h (c.bottom_lt_of_height_lt ht hhigh) hcache
    exact ⟨_, b', hrun⟩

end HagerZhang

end Evaluation

end NonlinearCG
