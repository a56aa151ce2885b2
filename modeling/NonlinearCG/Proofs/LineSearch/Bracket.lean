import Mathlib
import NonlinearCG.Proofs.LineSearch.Bench

/-!
# Brackets stay brackets

A bracket of the Hager–Zhang search is a pair of cached points with slopes of opposite signs. One
operation can lose the sign at the high end: a bisection whose interval has become as narrow as the
gap between neighbouring scalars stops wherever it is. Such a pair is still as good as a bracket,
because the next round returns its low end before it looks at a slope.

## The invariant

`Bracket` is therefore a disjunction: opposite slopes, or a collapsed interval. It holds of what
bisection, `update`, a double secant step and a whole round lead to, provided that the gap at a
scalar is positive: a bracket whose ends coincide counts as collapsed. It follows that narrowing a
bracket never gives up with the verdict that the ends do not have opposite slopes.
-/

namespace NonlinearCG.HagerZhang


variable {ω K : Type} [Field K] [LinearOrder K] {G : Grid K}
  {c c' : Cache (Exact G)} {limit : Exact G} {low mid high : Point (Exact G)}

/-! ## The invariant -/

/-- The low end of a bracket: a cached point below the limit from which the ray leads downhill. -/
structure LowEnd (c : Cache (Exact G)) (limit : Exact G) (pt : Point (Exact G)) : Prop
    extends Cached c pt where
  value_le : pt.value ≤ limit
  slope_neg : pt.slope < 0.0

/-- A bracket. The slopes at its ends have opposite signs, unless it is no wider than the gap at its
high end. -/
structure Bracket (c : Cache (Exact G)) (limit : Exact G) (low high : Point (Exact G)) : Prop where
  lowEnd : LowEnd c limit low
  highEnd : Cached c high
  le : low.step ≤ high.step
  encloses : (low.step < high.step ∧ 0.0 ≤ high.slope) ∨
    high.step - low.step ≤ Scalar.spacing high.step

/-- A search may settle on a step: a point is cached there that is below the limit or passes the
acceptance test. -/
def Settled (c : Cache (Exact G)) (test : WolfeTest (Exact G)) (t : Exact G) : Prop :=
  ∃ pt, Cached c pt ∧ pt.step = t ∧ (pt.value ≤ test.limit ∨ test.accepts pt.toSample = .ok true)

/-- A double secant step leads to a bracket, unless it accepts a point. -/
def Narrowing.Keeps (c : Cache (Exact G)) (test : WolfeTest (Exact G)) :
    Narrowing (Exact G) → Prop
  | .accepted pt => Cached c pt ∧ test.accepts pt.toSample = .ok true
  | .bracket low high => Bracket c test.limit low high

/-- A round leads to a bracket, unless it ends the search. -/
def Round.Keeps (c : Cache (Exact G)) (test : WolfeTest (Exact G)) : Round (Exact G) → Prop
  | .ended t => Settled c test t
  | .narrowed low high => Bracket c test.limit low high

theorem LowEnd.settled {test : WolfeTest (Exact G)} (h : LowEnd c test.limit low) :
    Settled c test low.step :=
  ⟨low, h.toCached, rfl, Or.inl h.value_le⟩

theorem LowEnd.mono (hc : c.Grows c') (h : LowEnd c limit low) : LowEnd c' limit low :=
  { h with toCached := h.toCached.mono hc }

theorem Bracket.mono (hc : c.Grows c') (h : Bracket c limit low high) :
    Bracket c' limit low high :=
  { h with lowEnd := h.lowEnd.mono hc, highEnd := h.highEnd.mono hc }

/-- What is left of an interval that is not halved any more is a bracket. -/
theorem Bracket.of_collapsed (hlow : LowEnd c limit low) (hhigh : Cached c high)
    (hle : low.step ≤ high.step) (hwidth : ¬Scalar.spacing high.step < high.step - low.step) :
    Bracket c limit low high := by
  refine ⟨hlow, hhigh, hle, Or.inr ?_⟩
  obtain ⟨a, -, ha⟩ := hlow.step
  obtain ⟨b, -, hb⟩ := hhigh.step
  rw [ha, hb, Exact.num_sub, Exact.spacing_num] at hwidth ⊢
  exact not_lt.mp hwidth

/-- A point of nonnegative slope that is not before the low end closes a bracket. -/
theorem Bracket.of_nonneg (hgap : ∀ x, 0 ≤ x → 0 < G.spacing x) (hlow : LowEnd c limit low)
    (hhigh : Cached c high) (hle : low.step ≤ high.step) (hslope : 0.0 ≤ high.slope) :
    Bracket c limit low high := by
  refine ⟨hlow, hhigh, hle, ?_⟩
  rcases hlow.step.lt_or_eq hhigh.step hle with hlt | heq
  · exact Or.inl ⟨hlt, hslope⟩
  · -- ends that coincide are collapsed: the gap is positive there
    obtain ⟨b, hb0, hb⟩ := hhigh.step
    rw [heq, hb, Exact.num_sub, sub_self, Exact.spacing_num]
    exact Or.inr (hgap b hb0).le

/-! ## Evaluations -/

theorem probe_spec (φ : LineFunction ω (Exact G)) {refusal : Exact G → SearchError (Exact G)}
    (hrefusal : ∀ t, NotRefused (.search (refusal t))) {t : Exact G} (ht : IsStep t)
    (b : Bench ω (Exact G)) :
    Meets (probe φ refusal t) b
      (fun pt b' ↦ b.cache.Grows b'.cache ∧ Cached b'.cache pt ∧ pt.step = t)
      fun e _ ↦ NotRefused e := by
  refine (sampleAt_spec φ t b).bind ?_
  rintro s b' ⟨hcache, rfl, -⟩
  split_ifs with hfinite
  · refine (keep_spec hfinite ht b').imp_ok ?_
    intro pt b'' hkept
    exact ⟨hcache ▸ hkept.grows, hkept.cached, congrArg Sample.step hkept.sample⟩
  · exact Search.meets_giveUp (hrefusal _)

variable [IsStrictOrderedRing K]

theorem Cached.lowEnd (h : Cached c mid) (hslope : ¬0.0 ≤ mid.slope) (hvalue : mid.value ≤ limit) :
    LowEnd c limit mid := by
  refine ⟨h, hvalue, ?_⟩
  obtain ⟨d, hd⟩ := h.slope
  rw [hd, Exact.zero_eq] at hslope ⊢
  exact not_le.mp hslope

theorem isStep_secant (hlow : Cached c low) (hhigh : Cached c high)
    (hslopes : low.slope < 0.0 ∧ 0.0 ≤ high.slope) {t : Exact G}
    (ht : secant low.step high.step low.slope high.slope = .ok t) : IsStep t := by
  obtain ⟨a, ha0, ha⟩ := hlow.step
  obtain ⟨b, hb0, hb⟩ := hhigh.step
  obtain ⟨d, hd⟩ := hlow.slope
  obtain ⟨e, he⟩ := hhigh.slope
  rw [hd, he, Exact.zero_eq, Exact.num_lt, Exact.num_le] at hslopes
  have hpos : 0 < e - d := by linarith
  rw [ha, hb, hd, he, secant, Exact.num_beq, decide_eq_false (by linarith), Exact.num_mul,
    Exact.num_mul, Exact.num_sub, Exact.num_sub, if_neg Bool.false_ne_true,
    Exact.divide_num hpos.ne'] at ht
  cases ht
  have hnum : 0 ≤ a * e - b * d := by
    calc 0 ≤ a * e + b * -d :=
          add_nonneg (mul_nonneg ha0 hslopes.2) (mul_nonneg hb0 (neg_nonneg.mpr hslopes.1.le))
      _ = a * e - b * d := by ring
  exact ⟨_, div_nonneg hnum hpos.le, rfl⟩

/-! ## Operations on a bracket -/

section Operations

variable (hgap : ∀ x, 0 ≤ x → 0 < G.spacing x)

include hgap

/-- A bracket stays one when its low end moves towards its high end. -/
theorem Bracket.raise (h : Bracket c limit low high) (hmid : LowEnd c limit mid)
    (hlow : low.step ≤ mid.step) (hhigh : mid.step ≤ high.step) : Bracket c limit mid high := by
  rcases h.encloses with ⟨-, hslope⟩ | hwidth
  · exact .of_nonneg hgap hmid h.highEnd hhigh hslope
  · -- a collapsed bracket only becomes narrower
    refine ⟨hmid, h.highEnd, hhigh, Or.inr ?_⟩
    obtain ⟨a, -, ha⟩ := h.lowEnd.step
    obtain ⟨m, -, hm⟩ := hmid.step
    obtain ⟨b, -, hb⟩ := h.highEnd.step
    rw [ha, hm, Exact.num_le] at hlow
    rw [ha, hb, Exact.num_sub, Exact.spacing_num, Exact.num_le] at hwidth
    rw [hm, hb, Exact.num_sub, Exact.spacing_num, Exact.num_le]
    exact (sub_le_sub_left hlow b).trans hwidth

variable (φ : LineFunction ω (Exact G))

/-- Bisection needs no slope at the high end. It finds one that is not negative, or collapses. -/
theorem bisect_spec (limit : Exact G) (fuel : ℕ) (calls : Calls) {low high : Point (Exact G)}
    {b : Bench ω (Exact G)} (hlow : LowEnd b.cache limit low) (hhigh : Cached b.cache high)
    (hle : low.step ≤ high.step) :
    Meets (bisect φ limit fuel calls low high) b
      (fun r b' ↦ Bracket b'.cache limit r.1.1 r.1.2) fun e _ ↦ NotRefused e := by
  induction fuel generalizing calls low high b with
  | zero =>
    rw [bisect]
    split_ifs with hwidth
    · exact notRefused_breakdown _
    · exact .of_collapsed hlow hhigh hle hwidth
  | succ fuel ih =>
    rw [bisect]
    by_cases hwidth : Scalar.spacing high.step < high.step - low.step
    · rw [if_pos hwidth]
      refine (probe_spec φ notRefused_bisection (hlow.step.half hhigh.step hle).1 b).bind ?_
      rintro mid b' ⟨hgrows, hmid, hstep⟩
      obtain ⟨hlowmid, hmidhigh⟩ := hlow.step.between_of_eq_half hhigh.step hle hstep
      split_ifs with hslope hvalue
      · exact .of_nonneg hgap (hlow.mono hgrows) hmid hlowmid hslope
      · -- downhill and below the limit: the middle is the new low end
        exact ih _ (hmid.lowEnd hslope hvalue) (hhigh.mono hgrows) hmidhigh
      · -- downhill but above the limit: the middle is a high end without a slope condition
        exact ih _ (hlow.mono hgrows) hmid hlowmid
    · rw [if_neg hwidth]
      exact .of_collapsed hlow hhigh hle hwidth

theorem update_spec {b : Bench ω (Exact G)} (h : Bracket b.cache limit low high)
    (hmid : Cached b.cache mid) :
    Meets (update φ limit low high mid) b
      (fun r b' ↦ Bracket b'.cache limit r.1.1 r.1.2) fun e _ ↦ NotRefused e := by
  rw [update]
  by_cases hout : mid.step < low.step ∨ high.step < mid.step
  · rw [if_pos hout]
    exact h
  rw [if_neg hout]
  have hlowmid := h.lowEnd.step.le_of_not_lt hmid.step (not_or.mp hout).1
  have hmidhigh := hmid.step.le_of_not_lt h.highEnd.step (not_or.mp hout).2
  split_ifs with hslope hvalue
  · -- uphill at the point: it closes the bracket from above
    exact .of_nonneg hgap h.lowEnd hmid hlowmid hslope
  · -- downhill and below the limit: the point replaces the low end
    exact h.raise hgap (hmid.lowEnd hslope hvalue) hlowmid hmidhigh
  · -- downhill but above the limit: the interval up to the point is bisected
    exact bisect_spec hgap φ limit _ _ h.lowEnd hmid hlowmid

/-- A double secant step needs opposite slopes, and then leads to a bracket. -/
theorem doubleSecant_spec {test : WolfeTest (Exact G)} {b : Bench ω (Exact G)}
    (h : Bracket b.cache test.limit low high) (hhigh : 0.0 ≤ high.slope) :
    Meets (doubleSecant φ test low high) b (fun r b' ↦ r.1.Keeps b'.cache test)
      fun e _ ↦ NotRefused e := by
  have hslopes : low.slope < 0.0 ∧ 0.0 ≤ high.slope := ⟨h.lowEnd.slope_neg, hhigh⟩
  rw [doubleSecant, if_pos hslopes]
  refine (lift_spec _ b).bind ?_
  rintro t _ ⟨ht, rfl⟩
  have hstep := isStep_secant h.lowEnd.toCached h.highEnd hslopes ht
  refine (probe_spec φ notRefused_secant hstep _).bind ?_
  rintro mid b₁ ⟨hgrows, hmid, -⟩
  refine (lift_spec _ b₁).bind ?_
  rintro accepted _ ⟨haccepted, rfl⟩
  split_ifs with htrue
  · exact ⟨hmid, haccepted.trans (congrArg _ htrue)⟩
  -- the point is not accepted: it replaces an end, and a secant step is made on that side
  refine (update_spec hgap φ (h.mono hgrows) hmid).bind ?_
  intro r b₂ hr
  refine (lift_spec _ b₂).bind ?_
  rintro t' _ ⟨-, rfl⟩
  split_ifs with hin
  · have hstep' := hr.lowEnd.step.of_le_of_le hr.highEnd.step hin.1 hin.2
    refine (probe_spec φ notRefused_secant hstep' _).bind ?_
    rintro mid' b₃ ⟨hgrows', hmid', -⟩
    refine (lift_spec _ b₃).bind ?_
    rintro accepted' _ ⟨haccepted', rfl⟩
    split_ifs with htrue'
    · exact ⟨hmid', haccepted'.trans (congrArg _ htrue')⟩
    · refine (update_spec hgap φ (hr.mono hgrows') hmid').bind ?_
      exact fun _ _ hr' ↦ hr'
  · exact hr

/-- A round leads to a bracket: it returns before the double secant step if the bracket has
collapsed, and the slopes at its ends have opposite signs if not. -/
theorem round_spec (p : HagerZhang (Exact G)) {test : WolfeTest (Exact G)}
    {b : Bench ω (Exact G)} (h : Bracket b.cache test.limit low high) :
    Meets (round p φ test low high) b (fun r b' ↦ r.1.Keeps b'.cache test)
      fun e _ ↦ NotRefused e := by
  rw [round]
  by_cases hwidth : high.step - low.step ≤ Scalar.spacing high.step
  · rw [if_pos hwidth]
    exact h.lowEnd.settled
  rw [if_neg hwidth]
  -- the test at the top of the round has ruled out the second alternative of the invariant
  refine (doubleSecant_spec hgap φ h (h.encloses.resolve_right hwidth).2).bind ?_
  rintro ⟨point | ⟨low', high'⟩, calls⟩ b₁ hr
  · exact ⟨point, hr.1, rfl, Or.inr hr.2⟩
  · dsimp only
    split_ifs
    · exact hr.lowEnd.settled
    · exact hr
    · -- the middle of a bracket that the secant steps have not narrowed enough
      have hstep := (hr.lowEnd.step.half hr.highEnd.step hr.le).1
      refine (probe_spec φ notRefused_bisection hstep b₁).bind ?_
      rintro mid b₂ ⟨hgrows, hmid, -⟩
      refine (update_spec hgap φ (hr.mono hgrows) hmid).bind ?_
      exact fun _ _ hr' ↦ hr'

theorem narrow_spec (p : HagerZhang (Exact G)) {test : WolfeTest (Exact G)} (rounds : ℕ)
    (calls : Calls) {low high : Point (Exact G)} {b : Bench ω (Exact G)}
    (h : Bracket b.cache test.limit low high) :
    Meets (narrow p φ test rounds calls low high) b (fun r b' ↦ Settled b'.cache test r.alpha)
      fun e _ ↦ NotRefused e := by
  induction rounds generalizing calls low high b with
  | zero => exact Search.meets_giveUp notRefused_notConverged
  | succ rounds ih =>
    rw [narrow]
    refine (round_spec hgap φ p h).bind ?_
    rintro ⟨t | ⟨low', high'⟩, more⟩ b' hr
    · exact hr
    · exact ih _ hr

end Operations

end NonlinearCG.HagerZhang
