import Mathlib
import NonlinearCG.Proofs.LineSearch.Approach

/-!
# Brackets shrink

Narrowing keeps to the interval in which it starts. Every step that it evaluates lies between the
ends of its bracket, and so does the bracket that a round leads to. A round that goes on has either
made the bracket narrower by the factor `γ`, or halved what a double secant step had left of it:
after `k` rounds the width is at most `max γ ½ ^ k` times the width at first.

## What the world sees

The evaluations of a search leave their traces in the world of the function. `Upholds` says of a
property of the world that evaluations in an interval keep it while they are finite. The triples of
this file carry such a property along, through every operation on a bracket, so that what they say
of steps and what they say of evaluations is proved once.
-/

namespace NonlinearCG

/-- Evaluations at the steps of an interval keep a property of the world where value and slope are
finite, and otherwise they lead to a weaker one. -/
structure LineFunction.Upholds {ω α : Type} [Scalar α] (φ : LineFunction ω α) (lo hi : α)
    (J E : ω → Prop) : Prop where
  weaken {w : ω} : J w → E w
  finite {t v d : α} {w w' : ω} : lo ≤ t → t ≤ hi → J w → (φ.both t).run w = (.ok (v, d), w') →
    Scalar.bothFinite v d = true → J w'
  evaluated {t : α} {r : Except Breakdown (α × α)} {w w' : ω} : lo ≤ t → t ≤ hi → J w →
    (φ.both t).run w = (r, w') → E w'

theorem LineFunction.upholds_true {ω α : Type} [Scalar α] (φ : LineFunction ω α) (lo hi : α) :
    φ.Upholds lo hi (fun _ ↦ True) fun _ ↦ True :=
  ⟨id, fun _ _ _ _ _ ↦ trivial, fun _ _ _ _ ↦ trivial⟩

namespace HagerZhang


variable {ω K : Type} [Field K] [LinearOrder K] {G : Grid K}
  {lo hi : Exact G} {low mid high low' high' : Point (Exact G)}

/-! ## Intervals -/

/-- Two points at steps of an interval, in order. -/
structure Within (lo hi : Exact G) (low high : Point (Exact G)) : Prop where
  isStep_low : IsStep low.step
  isStep_high : IsStep high.step
  lo_le : lo ≤ low.step
  le : low.step ≤ high.step
  le_hi : high.step ≤ hi

namespace Within

theorem trans (h : Within lo hi low high) (h' : Within low.step high.step low' high') :
    Within lo hi low' high' :=
  { h' with
    lo_le := Exact.le_trans h.lo_le h'.lo_le
    le_hi := Exact.le_trans h'.le_hi h.le_hi }

theorem refl (h : Within lo hi low high) : Within low.step high.step low high :=
  { h with lo_le := h.isStep_low.le_self, le_hi := h.isStep_high.le_self }

theorem split (h : Within lo hi low high) (hlow : low.step ≤ mid.step)
    (hhigh : mid.step ≤ high.step) : Within lo hi low mid ∧ Within lo hi mid high := by
  have hmid : IsStep mid.step := h.isStep_low.of_le_of_le h.isStep_high hlow hhigh
  constructor
  · exact ⟨h.isStep_low, hmid, h.lo_le, hlow, Exact.le_trans hhigh h.le_hi⟩
  · exact ⟨hmid, h.isStep_high, Exact.le_trans h.lo_le hlow, hhigh, h.le_hi⟩

theorem between (h : Within lo hi low high) {t : Exact G} (hlow : low.step ≤ t)
    (hhigh : t ≤ high.step) : lo ≤ t ∧ t ≤ hi :=
  ⟨Exact.le_trans h.lo_le hlow, Exact.le_trans hhigh h.le_hi⟩

section Half

variable [IsStrictOrderedRing K] (h : Within lo hi low high)

include h

theorem between_half : lo ≤ (low.step + high.step) / 2.0 ∧ (low.step + high.step) / 2.0 ≤ hi := by
  obtain ⟨-, hlow, hhigh⟩ := h.isStep_low.half h.isStep_high h.le
  exact h.between hlow hhigh

theorem halve (hmid : mid.step = (low.step + high.step) / 2.0) :
    Within lo hi low mid ∧ Within lo hi mid high := by
  obtain ⟨hlow, hhigh⟩ := h.isStep_low.between_of_eq_half h.isStep_high h.le hmid
  exact h.split hlow hhigh

end Half

end Within

/-- The interval from the point before the tip to the tip. -/
theorem Tip.within_previous {c : Cache (Exact G)} {limit alphamax : Exact G}
    {tip : Point (Exact G)} (h : Tip c limit alphamax tip)
    (hentry : c.get? (tip.index - 1) = some low.toSample) : Within (.num 0) tip.step low tip := by
  obtain ⟨s, hprev, hlow, hle, -⟩ := h.exists_previous
  obtain rfl : low.toSample = s := Option.some.inj (hentry.symm.trans hprev)
  obtain ⟨a, ha, haeq⟩ := hlow.step
  have hzero : .num 0 ≤ low.step := haeq ▸ Exact.num_le.mpr ha
  exact ⟨hlow.step, h.step, hzero, hle, h.step.le_self⟩

/-- What replacing an end by a point leads to: an interval inside the old one, and one on either
side of the point if the point lies in the old one. -/
structure Refines (low high mid : Point (Exact G)) (r : Point (Exact G) × Point (Exact G)) : Prop
    extends Within low.step high.step r.1 r.2 where
  side : low.step ≤ mid.step → mid.step ≤ high.step →
    Within low.step mid.step r.1 r.2 ∨ Within mid.step high.step r.1 r.2

section Refines

variable {r : Point (Exact G) × Point (Exact G)}

theorem Within.le_of_not_outside (h : Within lo hi low high) (hmid : IsStep mid.step)
    (hin : ¬(mid.step < low.step ∨ high.step < mid.step)) :
    low.step ≤ mid.step ∧ mid.step ≤ high.step := by
  rw [not_or] at hin
  exact ⟨h.isStep_low.le_of_not_lt hmid hin.1, hmid.le_of_not_lt h.isStep_high hin.2⟩

theorem Refines.of_outside (h : Within low.step high.step low high) (hmid : IsStep mid.step)
    (hout : mid.step < low.step ∨ high.step < mid.step) : Refines low high mid (low, high) := by
  refine ⟨h, fun hlow hhigh ↦ ?_⟩
  rcases hout with hlt | hlt
  · exact absurd hlt (h.isStep_low.not_lt_of_le hmid hlow)
  · exact absurd hlt (hmid.not_lt_of_le h.isStep_high hhigh)

theorem Refines.of_left (hhigh : mid.step ≤ high.step) (hr : Within low.step mid.step r.1 r.2) :
    Refines low high mid r :=
  ⟨{ hr with le_hi := Exact.le_trans hr.le_hi hhigh }, fun _ _ ↦ Or.inl hr⟩

theorem Refines.of_right (hlow : low.step ≤ mid.step) (hr : Within mid.step high.step r.1 r.2) :
    Refines low high mid r :=
  ⟨{ hr with lo_le := Exact.le_trans hlow hr.lo_le }, fun _ _ ↦ Or.inr hr⟩

end Refines

/-- A double secant step leads between the ends of the bracket. -/
def Narrowing.Between (low high : Point (Exact G)) : Narrowing (Exact G) → Prop
  | .accepted pt => low.step ≤ pt.step ∧ pt.step ≤ high.step
  | .bracket low' high' => Within low.step high.step low' high'

/-- A bracket lies inside another one and is at most a share of it wide. -/
structure Shrinks (q : K) (low high low' high' : Point (Exact G)) : Prop
    extends Within low.step high.step low' high' where
  width_le : high'.step - low'.step ≤ .num q * (high.step - low.step)

/-- A round leads between the ends of the bracket, and makes it narrower unless it ends the
search. -/
def Round.Narrows (q : K) (low high : Point (Exact G)) : Round (Exact G) → Prop
  | .ended t => low.step ≤ t ∧ t ≤ high.step
  | .narrowed low' high' => Shrinks q low high low' high'

/-! ## Evaluations -/

section Evaluations

variable {α : Type} [Scalar α] {φ : LineFunction ω α} {lo hi t : α} {J E : ω → Prop}
  {b : Bench ω α}

omit [Field K] [LinearOrder K]

theorem sampleAt_upholds (hφ : φ.Upholds lo hi J E) (ht : lo ≤ t ∧ t ≤ hi) (hJ : J b.world) :
    Meets (Search.sampleAt φ t) b
      (fun s b' ↦ s.step = t ∧ E b'.world ∧ (finite s = true → J b'.world))
      fun _ b' ↦ E b'.world := by
  refine (Search.meets_sampleAt φ t b).imp ?_ ?_
  · rintro s _ ⟨hstep, w, hrun, rfl⟩
    exact ⟨hstep, hφ.evaluated ht.1 ht.2 hJ hrun, hφ.finite ht.1 ht.2 hJ hrun⟩
  · rintro _ _ ⟨cause, w, hrun, -, rfl⟩
    exact hφ.evaluated ht.1 ht.2 hJ hrun

theorem probe_upholds (hφ : φ.Upholds lo hi J E) (refusal : α → SearchError α)
    (ht : lo ≤ t ∧ t ≤ hi) (hJ : J b.world) :
    Meets (probe φ refusal t) b (fun pt b' ↦ pt.step = t ∧ J b'.world) fun _ b' ↦ E b'.world := by
  refine (sampleAt_upholds hφ ht hJ).bind ?_
  rintro s b' ⟨hstep, hE, hfinite⟩
  split_ifs with hs
  · exact ⟨hstep, hfinite hs⟩
  · exact Search.meets_giveUp hE

/-- A breakdown of the search itself comes without an evaluation. -/
theorem lift_upholds {A : Type} (hφ : φ.Upholds lo hi J E) (r : Except Breakdown A)
    (hJ : J b.world) :
    Meets (Search.lift r) b (fun a b' ↦ r = .ok a ∧ b' = b) fun _ b' ↦ E b'.world := by
  refine (Search.meets_lift r b).imp_error ?_
  rintro _ _ ⟨cause, -, -, rfl⟩
  exact hφ.weaken hJ

end Evaluations

variable [IsStrictOrderedRing K]

/-! ## Operations on a bracket -/

/-- The secant through slopes of opposite signs meets zero between the two steps. -/
theorem secant_between (hw : Within lo hi low high) (hlow : ∃ d, low.slope = .num d)
    (hhigh : ∃ e, high.slope = .num e) (hslopes : low.slope < 0.0 ∧ 0.0 ≤ high.slope)
    {t : Exact G} (ht : secant low.step high.step low.slope high.slope = .ok t) :
    low.step ≤ t ∧ t ≤ high.step := by
  obtain ⟨a, -, ha⟩ := hw.isStep_low
  obtain ⟨z, -, hz⟩ := hw.isStep_high
  obtain ⟨d, hd⟩ := hlow
  obtain ⟨e, he⟩ := hhigh
  have hle := hw.le
  rw [ha, hz, Exact.num_le] at hle
  rw [hd, he, Exact.zero_eq, Exact.num_lt, Exact.num_le] at hslopes
  have hrise : 0 < e - d := by linarith
  rw [ha, hz, hd, he, secant, Exact.num_beq, decide_eq_false (by linarith), Exact.num_mul,
    Exact.num_mul, Exact.num_sub, Exact.num_sub, if_neg Bool.false_ne_true,
    Exact.divide_num hrise.ne'] at ht
  cases ht
  rw [ha, hz, Exact.num_le, Exact.num_le, le_div_iff₀ hrise, div_le_iff₀ hrise]
  -- the weights of the two steps are the slopes with their signs, and both are nonnegative
  constructor
  · have hfall : 0 ≤ (z - a) * -d := mul_nonneg (sub_nonneg.mpr hle) (neg_nonneg.mpr hslopes.1.le)
    calc a * (e - d) = a * e - z * d - (z - a) * -d := by ring
      _ ≤ a * e - z * d := sub_le_self _ hfall
  · have hclimb : 0 ≤ (z - a) * e := mul_nonneg (sub_nonneg.mpr hle) hslopes.2
    calc a * e - z * d = z * (e - d) - (z - a) * e := by ring
      _ ≤ z * (e - d) := sub_le_self _ hclimb

section Operations

variable {φ : LineFunction ω (Exact G)} {J E : ω → Prop} (hφ : φ.Upholds lo hi J E)
  {b : Bench ω (Exact G)}

include hφ

theorem bisect_upholds (limit : Exact G) (fuel : ℕ) (calls : Calls) {low high : Point (Exact G)}
    {b : Bench ω (Exact G)} (hJ : J b.world) (hw : Within lo hi low high) :
    Meets (bisect φ limit fuel calls low high) b
      (fun r b' ↦ J b'.world ∧ Within low.step high.step r.1.1 r.1.2) fun _ b' ↦ E b'.world := by
  -- the result lies in the interval of the call, which is one half of the interval before
  induction fuel generalizing calls low high b with
  | zero =>
    rw [bisect]
    split_ifs
    · exact hφ.weaken hJ
    · exact ⟨hJ, hw.refl⟩
  | succ fuel ih =>
    rw [bisect]
    by_cases hwidth : Scalar.spacing high.step < high.step - low.step
    swap
    · rw [if_neg hwidth]
      exact ⟨hJ, hw.refl⟩
    rw [if_pos hwidth]
    refine (probe_upholds hφ _ hw.between_half hJ).bind ?_
    rintro mid b' ⟨hmid, hJ'⟩
    obtain ⟨hleft, hright⟩ := hw.refl.halve hmid
    split_ifs
    · exact ⟨hJ', hleft⟩
    · refine (ih _ hJ' (hw.halve hmid).2).imp_ok ?_
      exact fun r b'' hr ↦ ⟨hr.1, hright.trans hr.2⟩
    · refine (ih _ hJ' (hw.halve hmid).1).imp_ok ?_
      exact fun r b'' hr ↦ ⟨hr.1, hleft.trans hr.2⟩

theorem update_upholds (limit : Exact G) (hJ : J b.world) (hw : Within lo hi low high)
    (hmid : IsStep mid.step) :
    Meets (update φ limit low high mid) b (fun r b' ↦ J b'.world ∧ Refines low high mid r.1)
      fun _ b' ↦ E b'.world := by
  rw [update]
  by_cases hout : mid.step < low.step ∨ high.step < mid.step
  · rw [if_pos hout]
    exact ⟨hJ, .of_outside hw.refl hmid hout⟩
  rw [if_neg hout]
  obtain ⟨hlow, hhigh⟩ := hw.le_of_not_outside hmid hout
  obtain ⟨hleft, hright⟩ := hw.refl.split hlow hhigh
  split_ifs
  -- the point is the new high end, or the new low end
  · exact ⟨hJ, .of_left hhigh hleft.refl⟩
  · exact ⟨hJ, .of_right hlow hright.refl⟩
  -- or the result is that of a bisection on the left of the point
  · refine (bisect_upholds hφ limit _ _ hJ (hw.split hlow hhigh).1).imp_ok ?_
    exact fun r b' hr ↦ ⟨hr.1, .of_left hhigh hr.2⟩

/-- A double secant step stays between the ends. -/
theorem doubleSecant_upholds (test : WolfeTest (Exact G)) (hJ : J b.world)
    (hw : Within lo hi low high) (hlow : ∃ d, low.slope = .num d)
    (hhigh : ∃ e, high.slope = .num e) :
    Meets (doubleSecant φ test low high) b (fun r b' ↦ J b'.world ∧ r.1.Between low high)
      fun _ b' ↦ E b'.world := by
  rw [doubleSecant]
  by_cases hslopes : low.slope < 0.0 ∧ 0.0 ≤ high.slope
  swap
  · rw [if_neg hslopes]
    exact hφ.weaken hJ
  rw [if_pos hslopes]
  refine (lift_upholds hφ _ hJ).bind ?_
  rintro t _ ⟨ht, rfl⟩
  have hin := secant_between hw hlow hhigh hslopes ht
  refine (probe_upholds hφ _ (hw.between hin.1 hin.2) hJ).bind ?_
  rintro mid b₁ ⟨rfl, hJ₁⟩
  refine (lift_upholds hφ _ hJ₁).bind ?_
  rintro accepted _ ⟨-, rfl⟩
  split_ifs
  · exact ⟨hJ₁, hin⟩
  have hmid := hw.isStep_low.of_le_of_le hw.isStep_high hin.1 hin.2
  refine (update_upholds hφ _ hJ₁ hw hmid).bind ?_
  rintro ⟨⟨low₁, high₁⟩, more⟩ b₂ ⟨hJ₂, hr⟩
  refine (lift_upholds hφ _ hJ₂).bind ?_
  rintro t' _ ⟨-, rfl⟩
  have hw' := hw.trans hr.toWithin
  split_ifs with ht'
  · -- the second secant is tried, on the side where the first one has replaced an end
    refine (probe_upholds hφ _ (hw'.between ht'.1 ht'.2) hJ₂).bind ?_
    rintro mid' b₃ ⟨rfl, hJ₃⟩
    refine (lift_upholds hφ _ hJ₃).bind ?_
    rintro accepted' _ ⟨-, rfl⟩
    split_ifs
    · exact ⟨hJ₃, hr.toWithin.between ht'.1 ht'.2⟩
    have hmid' := hw'.isStep_low.of_le_of_le hw'.isStep_high ht'.1 ht'.2
    refine (update_upholds hφ _ hJ₃ hw' hmid').bind ?_
    exact fun r' b₄ hr' ↦ ⟨hr'.1, hr.toWithin.trans hr'.2.toWithin⟩
  · exact ⟨hJ₂, hr.toWithin⟩

end Operations

/-! ## Rounds -/

omit [IsStrictOrderedRing K] in
theorem Within.exists_nums (hw : Within lo hi low high)
    (hw' : Within low.step high.step low' high') :
    ∃ a z a' z', low.step = .num a ∧ high.step = .num z ∧ low'.step = .num a' ∧
      high'.step = .num z' ∧ a ≤ a' ∧ a' ≤ z' ∧ z' ≤ z := by
  obtain ⟨a, -, ha⟩ := hw.isStep_low
  obtain ⟨z, -, hz⟩ := hw.isStep_high
  obtain ⟨a', -, ha'⟩ := hw'.isStep_low
  obtain ⟨z', -, hz'⟩ := hw'.isStep_high
  refine ⟨a, z, a', z', ha, hz, ha', hz', ?_, ?_, ?_⟩
  · simpa only [ha, ha', Exact.num_le] using hw'.lo_le
  · simpa only [ha', hz', Exact.num_le] using hw'.le
  · simpa only [hz, hz', Exact.num_le] using hw'.le_hi

/-- A bracket that passes the test of a round is narrower. -/
theorem Shrinks.of_lt {γ : K} (hw : Within lo hi low high)
    (hw' : Within low.step high.step low' high')
    (hlt : high'.step - low'.step < .num γ * (high.step - low.step)) :
    Shrinks (max γ (1 / 2)) low high low' high' := by
  refine ⟨hw', ?_⟩
  obtain ⟨a, z, a', z', ha, hz, ha', hz', haa', haz', hzz'⟩ := hw.exists_nums hw'
  rw [ha, hz, ha', hz', Exact.num_sub, Exact.num_sub, Exact.num_mul, Exact.num_lt] at hlt
  rw [ha, hz, ha', hz', Exact.num_sub, Exact.num_sub, Exact.num_mul, Exact.num_le]
  have hwidth : 0 ≤ z - a := by linarith
  calc z' - a' ≤ γ * (z - a) := hlt.le
    _ ≤ max γ (1 / 2) * (z - a) := mul_le_mul_of_nonneg_right (le_max_left _ _) hwidth

/-- A bracket on one side of the middle is at most half as wide. -/
theorem Shrinks.of_half (γ : K) {r : Point (Exact G) × Point (Exact G)}
    (hw : Within lo hi low high) (hw' : Within low.step high.step low' high')
    (hmid : mid.step = (low'.step + high'.step) / 2.0) (hr : Refines low' high' mid r) :
    Shrinks (max γ (1 / 2)) low high r.1 r.2 := by
  have hin := hw'.trans hr.toWithin
  refine ⟨hin, ?_⟩
  obtain ⟨a, z, a', z', ha, hz, ha', hz', haa', haz', hzz'⟩ := hw.exists_nums hw'
  obtain ⟨-, -, b, y, -, -, hb, hy, -, -, -⟩ := hw.exists_nums hin
  obtain ⟨hlow, hhigh⟩ := hw'.isStep_low.between_of_eq_half hw'.isStep_high hw'.le hmid
  rw [ha', hz', Exact.num_add, Exact.two_eq, Exact.num_div two_ne_zero] at hmid
  -- whichever side of the middle is left, it is half of an interval inside the bracket
  have hhalf : y - b ≤ (z - a) / 2 := by
    rcases hr.side hlow hhigh with hside | hside
    · have hlo := hside.lo_le
      have hhi := hside.le_hi
      rw [ha', hb, Exact.num_le] at hlo
      rw [hmid, hy, Exact.num_le] at hhi
      linarith
    · have hlo := hside.lo_le
      have hhi := hside.le_hi
      rw [hmid, hb, Exact.num_le] at hlo
      rw [hz', hy, Exact.num_le] at hhi
      linarith
  rw [ha, hz, hb, hy, Exact.num_sub, Exact.num_sub, Exact.num_mul, Exact.num_le]
  have hwidth : 0 ≤ z - a := by linarith
  calc y - b ≤ 1 / 2 * (z - a) := by linarith
    _ ≤ max γ (1 / 2) * (z - a) := mul_le_mul_of_nonneg_right (le_max_right _ _) hwidth

theorem Shrinks.trans {q q' : K} (hq' : 0 ≤ q') {low'' high'' : Point (Exact G)}
    (hw : Within lo hi low high) (h : Shrinks q low high low' high')
    (h' : Shrinks q' low' high' low'' high'') : Shrinks (q * q') low high low'' high'' := by
  refine ⟨h.toWithin.trans h'.toWithin, ?_⟩
  obtain ⟨a, z, a', z', ha, hz, ha', hz', -, -, -⟩ := hw.exists_nums h.toWithin
  obtain ⟨-, -, a'', z'', -, -, ha'', hz'', -, -, -⟩ := h.toWithin.exists_nums h'.toWithin
  have hwidth := h.width_le
  have hwidth' := h'.width_le
  rw [ha, hz, ha', hz', Exact.num_sub, Exact.num_sub, Exact.num_mul, Exact.num_le] at hwidth
  rw [ha', hz', ha'', hz'', Exact.num_sub, Exact.num_sub, Exact.num_mul, Exact.num_le] at hwidth'
  rw [ha, hz, ha'', hz'', Exact.num_sub, Exact.num_sub, Exact.num_mul, Exact.num_le]
  calc z'' - a'' ≤ q' * (z' - a') := hwidth'
    _ ≤ q' * (q * (z - a)) := mul_le_mul_of_nonneg_left hwidth hq'
    _ = q * q' * (z - a) := by ring

theorem Tip.within_bisected {φ : LineFunction ω (Exact G)} {limit alphamax : Exact G}
    {tip : Point (Exact G)} {b b₁ b₂ : Bench ω (Exact G)} (h : Tip b.cache limit alphamax tip)
    (hcached : (Search.cached (tip.index - 1)).run b = (.ok low, b₁)) {calls : Calls}
    (hbisect : (bisectBetween φ limit low tip).run b₁ = (.ok ((low', high'), calls), b₂)) :
    Within low.step tip.step low' high' := by
  obtain ⟨-, hentry, -⟩ := (Search.meets_cached _ b).of_run_ok hcached
  have hspec := bisect_upholds (b := b₁) (φ.upholds_true (.num 0) tip.step) limit
    (Scalar.halvings low.step tip.step) {} trivial (h.within_previous hentry)
  exact (hspec.of_run_ok hbisect).2

section Rounds

variable {φ : LineFunction ω (Exact G)} {J E : ω → Prop} (hφ : φ.Upholds lo hi J E)
  {p : HagerZhang (Exact G)} {γ : K} {test : WolfeTest (Exact G)} {b : Bench ω (Exact G)}

include hφ

/-- A round stays between the ends, and it shrinks the bracket unless it ends the search. -/
theorem round_upholds (hγ : p.gamma = .num γ) (test : WolfeTest (Exact G)) (hJ : J b.world)
    (hw : Within lo hi low high) (hlow : ∃ d, low.slope = .num d)
    (hhigh : ∃ e, high.slope = .num e) :
    Meets (round p φ test low high) b
      (fun r b' ↦ J b'.world ∧ r.1.Narrows (max γ (1 / 2)) low high) fun _ b' ↦ E b'.world := by
  rw [round]
  by_cases hcollapsed : high.step - low.step ≤ Scalar.spacing high.step
  · rw [if_pos hcollapsed]
    exact ⟨hJ, hw.isStep_low.le_self, hw.le⟩
  rw [if_neg hcollapsed]
  refine (doubleSecant_upholds hφ test hJ hw hlow hhigh).bind ?_
  rintro ⟨point | ⟨low', high'⟩, calls⟩ b₁ ⟨hJ₁, hr⟩
  · exact ⟨hJ₁, hr⟩
  replace hr : Within low.step high.step low' high' := hr
  dsimp only
  split_ifs with hlt
  · exact ⟨hJ₁, hr.lo_le, Exact.le_trans hr.le hr.le_hi⟩
  · -- narrow enough after the secant steps
    rw [hγ] at hlt
    exact ⟨hJ₁, .of_lt hw hr hlt⟩
  · -- or halved by a bisection
    refine (probe_upholds hφ _ (hw.trans hr).between_half hJ₁).bind ?_
    rintro mid b₂ ⟨hmid, hJ₂⟩
    have hstep : IsStep mid.step := hmid ▸ (hr.isStep_low.half hr.isStep_high hr.le).1
    refine (update_upholds hφ _ hJ₂ (hw.trans hr) hstep).bind ?_
    exact fun r b₃ hr' ↦ ⟨hr'.1, .of_half γ hw hr hmid hr'.2⟩

theorem narrow_upholds (hgap : ∀ x, 0 ≤ x → 0 < G.spacing x) (hγ : p.gamma = .num γ) (rounds : ℕ)
    (calls : Calls) {low high : Point (Exact G)} {b : Bench ω (Exact G)} (hJ : J b.world)
    (hw : Within lo hi low high) (hbracket : Bracket b.cache test.limit low high) :
    Meets (narrow p φ test rounds calls low high) b
      (fun r b' ↦ J b'.world ∧ low.step ≤ r.alpha ∧ r.alpha ≤ high.step)
      fun _ b' ↦ E b'.world := by
  induction rounds generalizing calls low high b with
  | zero => exact hφ.weaken hJ
  | succ rounds ih =>
    rw [narrow]
    -- one round, as far as its steps and as far as its bracket are concerned
    have hround := (round_upholds hφ hγ test hJ hw hbracket.lowEnd.slope
      hbracket.highEnd.slope).and (round_spec hgap φ p hbracket)
    refine (hround.imp_error fun _ _ h ↦ h.1).bind ?_
    rintro ⟨t | ⟨low', high'⟩, more⟩ b' ⟨⟨hJ', hr⟩, hbracket'⟩
    · exact ⟨hJ', hr⟩
    · refine (ih _ hJ' (hw.trans hr.toWithin) hbracket').imp_ok ?_
      rintro r b'' ⟨hJ'', hlow, hhigh⟩
      exact ⟨hJ'', Exact.le_trans hr.lo_le hlow, Exact.le_trans hhigh hr.le_hi⟩

end Rounds

/-! ## Whole searches -/

section Search

variable {p : HagerZhang (Exact G)} {φ : LineFunction ω (Exact G)} {start : Sample (Exact G)}
  {trial : Exact G} {mayAccept : Bool} {b₀ b b' : Bench ω (Exact G)} {rounds : ℕ}

omit [IsStrictOrderedRing K] in
theorem Bracket.within {c : Cache (Exact G)} {limit : Exact G} (h : Bracket c limit low high) :
    Within low.step high.step low high :=
  ⟨h.lowEnd.step, h.highEnd.step, h.lowEnd.step.le_self, h.le, h.highEnd.step.le_self⟩

theorem Bracket.shrinks {γ : K} (hγ : p.gamma = .num γ) {test : WolfeTest (Exact G)}
    (h : Bracket b.cache test.limit low high)
    {calls : Calls}
    (hround : (round p φ test low high).run b = (.ok (.narrowed low' high', calls), b')) :
    Shrinks (max γ (1 / 2)) low high low' high' := by
  have hupholds := round_upholds (b := b) (φ.upholds_true low.step high.step) hγ test trivial
    h.within h.lowEnd.slope h.highEnd.slope
  exact (hupholds.of_run_ok hround).2

/-- **Brackets shrink.** From a start that leads downhill, along any function and from any trial
step, every round that goes on leads to a bracket inside its own that is at most `max γ ½` times as
wide. After `k` rounds a bracket lies inside the first one and is at most `max γ ½ ^ k` times as
wide. -/
theorem brackets_shrink (hp : p.Proper) (hgap : ∀ x, 0 ≤ x → 0 < G.spacing x)
    (hstep : start.step = .num 0) (hslope : start.slope < 0.0)
    (hstart : b₀.cache.samples = #[start]) (φ : LineFunction ω (Exact G)) (trial : Exact G)
    (mayAccept : Bool) :
    ∃ γ, p.gamma = .num γ ∧ 0 < γ ∧ γ < 1 ∧
      (∀ rounds low high b low' high' calls b',
        AtRound p φ start trial mayAccept b₀ (rounds + 1) low high b →
        (round p φ (p.test start) low high).run b = (.ok (.narrowed low' high', calls), b') →
        Shrinks (max γ (1 / 2)) low high low' high') ∧
      ∀ low₀ high₀ rounds₀ calls b₁,
        (approach p φ start trial mayAccept).run b₀ =
          (.ok (.bracket low₀ high₀ rounds₀, calls), b₁) →
        ∀ rounds low high b, AtRound p φ start trial mayAccept b₀ rounds low high b →
          ∃ k, rounds + k = rounds₀ ∧ Shrinks (max γ (1 / 2) ^ k) low₀ high₀ low high := by
  obtain ⟨γ, hpos, hlt, hγ⟩ := hp.gamma
  have hbracket : ∀ {rounds low high b}, AtRound p φ start trial mayAccept b₀ rounds low high b →
      Bracket b.cache (p.test start).limit low high := by
    intro rounds low high b h
    obtain ⟨v, d, hd, rfl⟩ := exists_nums_of_finite h.finite_start hstep hslope
    exact h.bracket hp hgap hd hstart
  refine ⟨γ, hγ, hpos, hlt, ?_, ?_⟩
  · intro rounds low high b low' high' calls b' h hround
    exact (hbracket h).shrinks hγ hround
  · intro low₀ high₀ rounds₀ calls b₁ hfirst rounds low high b h
    -- along the rounds: each of them multiplies the width by the share
    induction h with
    | first happroach =>
      cases happroach.symm.trans hfirst
      have hwithin := (hbracket (.first hfirst)).within
      refine ⟨0, rfl, hwithin, ?_⟩
      obtain ⟨a, z, -, -, ha, hz, -, -, -, -, -⟩ := hwithin.exists_nums hwithin
      rw [pow_zero, ha, hz, Exact.num_sub, Exact.num_mul, one_mul, Exact.num_le]
    | next h hround ih =>
      obtain ⟨k, hk, hshrinks⟩ := ih
      have hnext := (hbracket h).shrinks hγ hround
      have hfactor : (0 : K) ≤ max γ (1 / 2) := le_max_of_le_left hpos.le
      refine ⟨k + 1, by omega, ?_⟩
      rw [pow_succ]
      exact hshrinks.trans hfactor (hbracket (.first hfirst)).within hnext

end Search

def quartic : LineFunction Unit (Exact Grid.rational) where
  value t := return t * t * t * t - t
  both t := return (t * t * t * t - t, 4.0 * t * t * t - 1.0)

/-- The first bracket is `[0, 1]`. Its secant replaces the left end by `1 / 4`, which is too slow,
and bisection leaves `[5 / 8, 1]`. -/
theorem brackets_shrink_quartic :
    let start : Sample (Exact Grid.rational) := ⟨.num 0, .num 0, .num (-1)⟩
    let b₀ : Bench Unit (Exact Grid.rational) := { world := (), cache := .seeded start }
    ∃ low high low' high' calls b b',
      AtRound default quartic start (.num 1) false b₀ 48 low high b ∧
      (round default quartic (default.test start) low high).run b =
        (.ok (.narrowed low' high', calls), b') ∧
      (low.step = .num 0 ∧ high.step = .num 1 ∧ low'.step = .num (5 / 8) ∧ high'.step = .num 1) ∧
      ∃ γ, (default : HagerZhang (Exact Grid.rational)).gamma = .num γ ∧
        Shrinks (max γ (1 / 2)) low high low' high' := by
  intro start b₀
  have hruns : passes ((approach default quartic start (.num 1) false).run b₀) (fun r b ↦
      match r.1 with
      | .bracket low high 48 =>
        passes ((round default quartic (default.test start) low high).run b) fun r _ ↦
          match r.1 with
          | .narrowed low' high' => decide (low.step = .num 0 ∧ high.step = .num 1 ∧
              low'.step = .num (5 / 8) ∧ high'.step = .num 1)
          | _ => false
      | _ => false) = true := by
    decide +kernel
  obtain ⟨⟨r, calls⟩, b, hfirst, hruns⟩ := exists_ok_of_passes hruns
  split at hruns
  case h_2 => cases hruns
  case h_1 low high hr =>
    obtain rfl : r = .bracket low high 48 := hr
    obtain ⟨⟨r', calls'⟩, b', hround, hruns⟩ := exists_ok_of_passes hruns
    split at hruns
    case h_2 => cases hruns
    case h_1 low' high' hr' =>
      obtain rfl : r' = .narrowed low' high' := hr'
      obtain ⟨γ, hγ, -, -, hshrinks, -⟩ := brackets_shrink default_proper
        (fun x _ ↦ Grid.rational_spacing_pos x) (rfl : start.step = _)
        (by decide +kernel : start.slope < 0.0) (rfl : b₀.cache.samples = #[start]) quartic
        (.num 1) false
      exact ⟨low, high, low', high', calls', b, b', .first hfirst, hround, of_decide_eq_true hruns,
        γ, hγ, hshrinks _ _ _ _ _ _ _ _ (.first hfirst) hround⟩

end HagerZhang

end NonlinearCG
