import Mathlib
import NonlinearCG.Proofs.LineSearch.Ray

/-!
# The decrease along a step of backtracking

Backtracking reduces a positive step until the value there has decreased by a share of what the
slope promises. The quadratic through the initial value, the initial slope and a value that is too
large is convex, and its minimizer is positive, so that every further step is positive as well and
the interpolation never divides by zero.

The search looks at the slope only through the arithmetic. A slope that is negatively infinite
promises an infinite decrease, which no value honours: the trial step is rejected, and the
interpolation then leads to a step that is no number, where nothing is rejected any more. Any other
result needs a finite slope, and then the value has decreased.
-/

namespace NonlinearCG.Backtracking

variable {ω K : Type} [Field K] [LinearOrder K] {G : Grid K} {p : Backtracking (Exact G)}

/-! ## Parameters -/

theorem defect?_eq_none_iff {α : Type} [Scalar α] {p : Backtracking α} :
    p.defect? = none ↔ (0.0 < p.c1 ∧ p.c1 < 1.0) ∧
      (0.0 < p.rholo ∧ p.rholo ≤ p.rhohi ∧ p.rhohi < 1.0) ∧ ¬p.iterations ≤ 0 := by
  unfold defect?
  split_ifs <;> simp_all

variable [IsStrictOrderedRing K]

theorem exists_c1 (hp : p.defect? = none) : ∃ c, 0 < c ∧ c < 1 ∧ p.c1 = .num c := by
  obtain ⟨⟨hpos, hlt⟩, -⟩ := defect?_eq_none_iff.mp hp
  rw [Exact.one_eq] at hlt
  exact Exact.exists_num_of_pos_of_lt hpos hlt

theorem exists_ratios (hp : p.defect? = none) :
    ∃ lo hi, 0 < lo ∧ lo ≤ hi ∧ hi < 1 ∧ p.rholo = .num lo ∧ p.rhohi = .num hi := by
  obtain ⟨-, ⟨hpos, hle, hlt⟩, -⟩ := defect?_eq_none_iff.mp hp
  rw [Exact.zero_eq] at hpos
  rw [Exact.one_eq] at hlt
  obtain ⟨⟨lo, hlo⟩, hi, hhi⟩ := Exact.exists_nums_of_le hpos hle hlt
  rw [hlo, Exact.num_lt] at hpos
  rw [hlo, hhi, Exact.num_le] at hle
  rw [hhi, Exact.num_lt] at hlt
  exact ⟨lo, hi, hpos, hle, hlt, hlo, hhi⟩

/-! ## One reduction -/

section Reduction

variable {z : Exact G} {v d t w : K}

omit [IsStrictOrderedRing K] in
theorem rejects_num {c : K} (hc : p.c1 = .num c) :
    p.rejects ⟨z, .num v, .num d⟩ (.num t) (.num w) = decide (v + c * t * d < w) := by
  rw [rejects, hc]
  simp

theorem tangent_lt_of_rejected {c : K} (hc : c < 1) (hd : d < 0) (ht : 0 < t)
    (h : v + c * t * d < w) : v + d * t < w := by
  have hslack : 0 < (1 - c) * (t * -d) := mul_pos (sub_pos.mpr hc) (mul_pos ht (neg_pos.mpr hd))
  calc v + d * t = v + c * t * d - (1 - c) * (t * -d) := by ring
    _ < v + c * t * d := sub_lt_self _ hslack
    _ < w := h

/-- The minimizer of the quadratic fit, kept between the two ratios. -/
theorem reduced_num {lo hi : K} (hlo : p.rholo = .num lo) (hhi : p.rhohi = .num hi)
    (h : w - v - d * t ≠ 0) :
    p.reduced ⟨z, .num v, .num d⟩ (.num t) (.num w) =
      .ok (.num (max (min (-(d * (t * t)) / (2 * (w - v - d * t))) (t * hi)) (t * lo))) := by
  have hden : 2 * (w - v - d * t) ≠ 0 := mul_ne_zero two_ne_zero h
  have hfit : interpolated ⟨z, .num v, .num d⟩ (.num t) (.num w) =
      .ok (.num (-(d * (t * t)) / (2 * (w - v - d * t))) : Exact G) := by
    rw [interpolated, Exact.square_num, Exact.two_eq]
    simp only [Exact.num_mul, Exact.num_sub]
    exact Exact.divide_num hden
  rw [reduced, hfit, hlo, hhi]
  refine congrArg Except.ok ?_
  rw [Exact.num_mul, Exact.num_mul, Exact.lesser_num, Exact.greater_num]

theorem exists_reduced (hp : p.defect? = none) (hd : d < 0) (ht : 0 < t)
    (hrejects : p.rejects ⟨z, .num v, .num d⟩ (.num t) (.num w) = true) :
    ∃ u, 0 < u ∧ p.reduced ⟨z, .num v, .num d⟩ (.num t) (.num w) = .ok (.num u) := by
  obtain ⟨c, -, hc1, hc⟩ := exists_c1 hp
  obtain ⟨lo, hi, hlo, -, -, hrholo, hrhohi⟩ := exists_ratios hp
  rw [rejects_num hc, decide_eq_true_eq] at hrejects
  have htangent := tangent_lt_of_rejected hc1 hd ht hrejects
  have hcurved : w - v - d * t ≠ 0 := by
    have hpos : 0 < w - v - d * t := by linarith
    exact hpos.ne'
  exact ⟨_, lt_max_of_lt_right (mul_pos ht hlo), reduced_num hrholo hrhohi hcurved⟩

/-- An infinite slope promises an infinite decrease at a positive step. -/
theorem bot_mul_num (ht : 0 < t) : (.bot * .num t : Exact G) = .bot :=
  Exact.infinityOf_of_neg (neg_lt_zero.mpr ht)

theorem num_mul_bot (ht : 0 < t) : (.num t * .bot : Exact G) = .bot :=
  Exact.infinityOf_of_neg (neg_lt_zero.mpr ht)

theorem rejects_bot (hp : p.defect? = none) (ht : 0 < t) :
    p.rejects ⟨z, .num v, .bot⟩ (.num t) (.num w) = true := by
  obtain ⟨c, hc0, -, hc⟩ := exists_c1 hp
  rw [rejects, hc, Exact.num_mul, num_mul_bot (mul_pos hc0 ht)]
  rfl

theorem reduced_bot (ht : 0 < t) :
    p.reduced ⟨z, .num v, .bot⟩ (.num t) (.num w) = .ok .nan := by
  have hfit : interpolated ⟨z, .num v, .bot⟩ (.num t) (.num w) = .ok (.nan : Exact G) := by
    rw [interpolated, Exact.square_num, Exact.two_eq]
    change Scalar.divide (-(.bot * .num (t * t)))
      (.num 2 * (.num w - .num v - .bot * .num t) : Exact G) = .ok .nan
    rw [bot_mul_num (mul_pos ht ht), bot_mul_num ht]
    change Scalar.divide .top (Exact.infinityOf 2 : Exact G) = .ok .nan
    rw [Exact.infinityOf_of_pos two_pos, Scalar.divide, Exact.zero_eq]
    rfl
  rw [reduced, hfit]
  refine congrArg Except.ok ?_
  rw [Exact.lesser_nan, Exact.greater_nan]

end Reduction

/-! ## The search -/

/-- A step that the search comes to: a positive number, or no number under an infinite slope. -/
def Steps (slope t : Exact G) : Prop := (∃ a, 0 < a ∧ t = .num a) ∨ slope = .bot ∧ t = .nan

section Search

variable {z slope t : Exact G} {v : K}

theorem Steps.of_finite (hpos : 0.0 < t) (hfinite : Scalar.isFinite t = true) : Steps slope t := by
  obtain ⟨a, rfl⟩ := Exact.isFinite_iff.mp hfinite
  rw [Exact.zero_eq] at hpos
  exact Or.inl ⟨a, hpos, rfl⟩

theorem Steps.scaled (hp : p.defect? = none) (h : Steps slope t) : Steps slope (t * p.rholo) := by
  obtain ⟨lo, -, hlo, -, -, hrholo, -⟩ := exists_ratios hp
  rcases h with ⟨a, ha, rfl⟩ | ⟨hslope, rfl⟩
  · rw [hrholo]
    exact Or.inl ⟨a * lo, mul_pos ha hlo, rfl⟩
  · exact Or.inr ⟨hslope, rfl⟩

theorem Steps.exists_reduced (hp : p.defect? = none) (hslope : slope < 0.0) (h : Steps slope t)
    {w : Exact G} (hw : Scalar.isFinite w = true)
    (hrejects : p.rejects ⟨z, .num v, slope⟩ t w = true) :
    ∃ u, p.reduced ⟨z, .num v, slope⟩ t w = .ok u ∧ Steps slope u := by
  obtain ⟨w, rfl⟩ := Exact.isFinite_iff.mp hw
  rw [Exact.zero_eq] at hslope
  rcases h with ⟨a, ha, rfl⟩ | ⟨rfl, rfl⟩
  · rcases Exact.num_or_bot_of_lt hslope with ⟨d, rfl⟩ | rfl
    · obtain ⟨u, hu, hreduced⟩ := Backtracking.exists_reduced hp hslope ha hrejects
      exact ⟨_, hreduced, Or.inl ⟨u, hu, rfl⟩⟩
    · exact ⟨_, reduced_bot ha, Or.inr ⟨rfl, rfl⟩⟩
  · -- a step that is no number is not rejected
    obtain ⟨c, -, -, hc⟩ := exists_c1 hp
    rw [rejects, hc] at hrejects
    cases hrejects

/-- A failure is not a breakdown, or one of the function at a step that the search came to. -/
def Foreign {α : Type} (φ : LineFunction ω α) (T : α → Prop) (e : Fault α) : Prop :=
  ∀ cause, e = .breakdown cause → ∃ t w w', T t ∧ (φ.value t).run w = (.error cause, w')

omit [Field K] [LinearOrder K] [IsStrictOrderedRing K] in
theorem valueAt_foreign (φ : LineFunction ω (Exact G)) {T : Exact G → Prop} (ht : T t)
    (b : Bench ω (Exact G)) :
    Meets (Search.valueAt φ t) b (fun _ _ ↦ True) fun e _ ↦ Foreign φ T e := by
  refine (Search.meets_valueAt φ t b).imp (fun _ _ _ ↦ trivial) ?_
  rintro _ _ ⟨cause, w, hrun, rfl, -⟩ _ ⟨⟩
  exact ⟨t, b.world, w, ht, hrun⟩

/-- What the search accepts is not rejected, and nothing in it breaks down but the function. -/
theorem descend_spec (hp : p.defect? = none) (hslope : slope < 0.0) (φ : LineFunction ω (Exact G))
    (reductions : ℕ) (calls : Calls) (w : Exact G) (ht : Steps slope t)
    (b : Bench ω (Exact G)) :
    Meets (p.descend φ ⟨z, .num v, slope⟩ reductions calls t w) b
      (fun r _ ↦ Steps slope r.1.1 ∧ p.rejects ⟨z, .num v, slope⟩ r.1.1 r.1.2 = false)
      fun e _ ↦ Foreign φ (Steps slope) e := by
  induction reductions generalizing calls t w b with
  | zero =>
    rw [descend]
    split_ifs with hrejected
    · apply Search.meets_giveUp
      rintro _ ⟨⟩
    · exact Meets.pure ⟨ht, Bool.eq_false_iff.mpr hrejected⟩
  | succ reductions ih =>
    rw [descend]
    split_ifs with hrejected hfinite
    · obtain ⟨u, hu, hsteps⟩ := ht.exists_reduced hp hslope hfinite hrejected
      rw [hu, Search.lift_ok_bind]
      exact (valueAt_foreign φ hsteps b).bind fun w' b' _ ↦ ih _ w' hsteps b'
    · refine (Search.meets_countFailure b).bind fun _ b' _ ↦ ?_
      have hsteps := ht.scaled hp
      exact (valueAt_foreign φ hsteps b').bind fun w' b'' _ ↦ ih _ w' hsteps b''
    · exact Meets.pure ⟨ht, Bool.eq_false_iff.mpr hrejected⟩

section Run

variable {φ : LineFunction ω (Exact G)} {trial : Exact G} {r : Step (Exact G)}
  {b₀ b : Bench ω (Exact G)} (hp : p.defect? = none) (hslope : slope < 0.0)
  (hstart : b₀.cache.get? 0 = some ⟨z, .num v, slope⟩)

include hp hslope hstart

theorem accepted_of_run (hrun : (p.step φ trial).run b₀ = (.ok r, b)) :
    ∃ w, φ.Gives ⟨r.alpha, w, Scalar.nan⟩ ∧ Steps slope r.alpha ∧
      p.rejects ⟨z, .num v, slope⟩ r.alpha w = false := by
  rw [step, run_bind_ok (Search.run_cached hstart)] at hrun
  by_cases htrial : 0.0 < trial ∧ Scalar.isFinite trial = true
  · rw [if_pos htrial] at hrun
    obtain ⟨w, b₁, hvalue, hrest⟩ := run_bind_eq_ok hrun
    obtain ⟨⟨⟨t', w'⟩, calls⟩, b₂, hdescend, hrest⟩ := run_bind_eq_ok hrest
    cases hrest
    have hfirst := ((Search.keepsTo_valueAt trial).course_of_ok hvalue).2
    have hlast := ((keepsTo_descend p _ _ _ hfirst).course_of_ok hdescend).2
    have hsteps : Steps slope trial := Steps.of_finite htrial.1 htrial.2
    exact ⟨w', hlast, (descend_spec hp hslope φ _ _ w hsteps b₁).of_run_ok hdescend⟩
  · rw [if_neg htrial] at hrun
    cases hrun

/-- Along a function whose values are numbers, under a finite slope, the search fails only with a
verdict. -/
theorem gaveUp_of_run (hφ : φ.Valued) (hfinite : Scalar.isFinite slope = true) {e : Fault (Exact G)}
    (hrun : (p.step φ trial).run b₀ = (.error e, b)) : GaveUp e := by
  -- a breakdown takes a value that fails, or a slope that is not finite
  have hforeign : Foreign φ (Steps slope) e → GaveUp e := by
    intro h
    cases e with
    | search cause => exact ⟨cause, rfl⟩
    | breakdown cause =>
      obtain ⟨t, w, w', ⟨a, -, rfl⟩ | ⟨rfl, -⟩, hbroken⟩ := h cause rfl
      · obtain ⟨_, hreturns⟩ := hφ a
        obtain ⟨_, hvalue⟩ := hreturns w
        cases hvalue.symm.trans hbroken
      · cases hfinite
  rw [step, run_bind_ok (Search.run_cached hstart)] at hrun
  by_cases htrial : 0.0 < trial ∧ Scalar.isFinite trial = true
  · rw [if_pos htrial] at hrun
    have hsteps : Steps slope trial := Steps.of_finite htrial.1 htrial.2
    rcases run_bind_eq_error hrun with hvalue | ⟨w, b₁, -, hrest⟩
    · exact hforeign ((valueAt_foreign φ hsteps b₀).of_run_error hvalue)
    · rcases run_bind_eq_error hrest with hdescend | ⟨_, _, -, hrest⟩
      · exact hforeign ((descend_spec hp hslope φ _ _ w hsteps b₁).of_run_error hdescend)
      · cases hrest
  · rw [if_neg htrial] at hrun
    cases hrun
    exact ⟨_, rfl⟩

/-- **Sufficient decrease.** Along a function that is computed, under a finite slope, the value at
the step that the search returns lies below the initial value by the share of the decrease that the
slope promises. -/
theorem sufficient_decrease_of_run {V D : Exact G → Exact G} (hφ : φ.Computes V D)
    (hfinite : Scalar.isFinite slope = true) (hrun : (p.step φ trial).run b₀ = (.ok r, b)) :
    V r.alpha ≤ .num v + p.c1 * r.alpha * slope ∧
      .num v + p.c1 * r.alpha * slope < .num v := by
  obtain ⟨t, calls⟩ := r
  obtain ⟨c, hc0, -, hc⟩ := exists_c1 hp
  obtain ⟨w, hgives, hsteps, haccepted⟩ := accepted_of_run hp hslope hstart hrun
  obtain ⟨d, rfl⟩ := Exact.isFinite_iff.mp hfinite
  rw [Exact.zero_eq, Exact.num_lt] at hslope
  rcases hsteps with ⟨a, ha, rfl⟩ | ⟨hbot, -⟩
  · have hvalue : w = V (.num a) := hφ.value_of_gives hgives
    rw [rejects, Bool.or_eq_false_iff, Bool.not_eq_false', hvalue] at haccepted
    obtain ⟨y, hy⟩ := Exact.isFinite_iff.mp haccepted.1
    have hnot := haccepted.2
    rw [hc, hy, Exact.num_mul, Exact.num_mul, Exact.num_add, decide_eq_false_iff_not,
      Exact.num_lt, not_lt] at hnot
    rw [hc, hy, Exact.num_mul, Exact.num_mul, Exact.num_add]
    have hfall : c * a * d < 0 := mul_neg_of_pos_of_neg (mul_pos hc0 ha) hslope
    exact ⟨Exact.num_le.mpr hnot, Exact.num_lt.mpr (by linarith)⟩
  · cases hbot

theorem step_eq_nan_of_run (hinfinite : Scalar.isFinite slope = false)
    (hrun : (p.step φ trial).run b₀ = (.ok r, b)) : r.alpha = .nan := by
  obtain ⟨t, calls⟩ := r
  obtain ⟨w, -, hsteps, haccepted⟩ := accepted_of_run hp hslope hstart hrun
  rw [Exact.zero_eq] at hslope
  rcases Exact.num_or_bot_of_lt hslope with ⟨d, rfl⟩ | rfl
  · cases hinfinite
  · rcases hsteps with ⟨a, ha, rfl⟩ | ⟨-, rfl⟩
    · rw [rejects, Bool.or_eq_false_iff, Bool.not_eq_false'] at haccepted
      obtain ⟨y, rfl⟩ := Exact.isFinite_iff.mp haccepted.1
      have hrejected := rejects_bot (z := z) (v := v) (w := y) hp ha
      rw [rejects, Bool.or_eq_true, haccepted.2] at hrejected
      simp at hrejected
    · rfl

end Run

end Search

end NonlinearCG.Backtracking
