import Mathlib
import NonlinearCG.Proofs.LineSearch.Approach
import NonlinearCG.Proofs.LineSearch.Course

/-!
# The two secants of a round

A double secant step takes the secant of the slopes at the ends of a bracket, and, if the point
there replaces an end, a second one on that side. The first secant lies inside the bracket, beyond
its low end. The second one only has to lie in the closed interval that is left, and as long as the
low end is the zero step, zero belongs to it.

Zero is a step like any other to the search, but not to the acceptance test, which divides by the
step. `SlipsBack` says when a double secant step on a bracket from zero leads back to zero: the
first secant's point becomes the high end, and the slopes there and at the old high end lie on a
line through the origin. `Halfway` is what is known after the first half of the step, and from it
the second secant is shown to be zero exactly if this is so.
-/

namespace NonlinearCG

variable {ω K : Type} [Field K] [LinearOrder K] {G : Grid K}

/-! ## Functions with numbers for values and slopes -/

/-- A sample of a function and its slope. -/
def sampled (V D : K → K) (t : K) : Sample (Exact G) := ⟨.num t, .num (V t), .num (D t)⟩

/-- At every step that is a number, the function returns its value and its slope, and these are
numbers. -/
def LineFunction.Everywhere (φ : LineFunction ω (Exact G)) (V D : K → K) : Prop :=
  ∀ t, Returns (φ.both (.num t)) (.num (V t), .num (D t))

/-- The step at which the line through the slopes at two steps is zero. -/
def crossing (D : K → K) (a b : K) : K := (a * D b - b * D a) / (D b - D a)

variable {φ : LineFunction ω (Exact G)} {V D : K → K} {a b : K}

omit [Field K] [LinearOrder K] in
theorem LineFunction.Everywhere.eq_sampled (hφ : φ.Everywhere V D) {s : Sample (Exact G)}
    (hs : φ.Samples s) (ha : s.step = .num a) : s = sampled V D a := by
  obtain ⟨t, v, d⟩ := s
  obtain ⟨w, w', hrun⟩ := hs
  obtain ⟨_, hboth⟩ := hφ a w
  cases ha
  cases hboth.symm.trans hrun
  rfl

theorem LineFunction.Everywhere.eq_of_gives {d : K} (hφ : φ.Everywhere V D)
    {s : Sample (Exact G)} (hs : φ.Gives s) (ha : s.step = .num a) (hd : s.slope = .num d) :
    s = sampled V D a := by
  cases hs with
  | both hs => exact hφ.eq_sampled hs ha
  | value _ => cases hd

variable [IsStrictOrderedRing K]

theorem secant_sampled (h : D b ≠ D a) :
    secant (.num a) (.num b) (.num (D a)) (.num (D b)) = .ok (.num (crossing D a b) : Exact G) := by
  rw [secant, Exact.num_beq, decide_eq_false h, if_neg Bool.false_ne_true]
  simp only [Exact.num_mul, Exact.num_sub]
  exact Exact.divide_num (sub_ne_zero.mpr h)

omit [IsStrictOrderedRing K] in
theorem secant_sampled_eq (h : D b = D a) :
    secant (.num a) (.num b) (.num (D a)) (.num (D b)) = .ok (.nan : Exact G) := by
  rw [secant, Exact.num_beq, decide_eq_true h, if_pos rfl]
  rfl

/-- A secant never divides by zero. -/
theorem exists_secant (x y d e : Exact G) : ∃ t, secant x y d e = .ok t := by
  rw [secant]
  split_ifs with heq
  · exact ⟨_, rfl⟩
  · have hne : (e - d == (0.0 : Exact G)) = false := by
      rw [Exact.zero_eq]
      cases e with
      | num e =>
        cases d with
        | num d =>
          rw [Exact.num_beq, decide_eq_true_eq] at heq
          rw [Exact.num_sub, Exact.num_beq, decide_eq_false (sub_ne_zero.mpr heq)]
        | top | bot | nan => rfl
      | top | bot | nan => cases d <;> rfl
    rw [Scalar.divide, hne]
    exact ⟨_, rfl⟩

theorem lt_crossing (hab : a < b) (ha : D a < 0) (hb : 0 ≤ D b) : a < crossing D a b := by
  rw [crossing, lt_div_iff₀ (by linarith)]
  have hwidth : 0 < (b - a) * -D a := mul_pos (sub_pos.mpr hab) (neg_pos.mpr ha)
  calc a * (D b - D a) = a * D b - b * D a - (b - a) * -D a := by ring
    _ < a * D b - b * D a := sub_lt_self _ hwidth

theorem crossing_lt (hab : a < b) (ha : D a < 0) (hb : 0 < D b) : crossing D a b < b := by
  rw [crossing, div_lt_iff₀ (by linarith)]
  have hwidth : 0 < (b - a) * D b := mul_pos (sub_pos.mpr hab) hb
  calc a * D b - b * D a = b * (D b - D a) - (b - a) * D b := by ring
    _ < b * (D b - D a) := sub_lt_self _ hwidth

/-- Slopes of which the secant is zero lie on a line through the origin. -/
theorem collinear_of_secant
    (hzero : secant (.num a) (.num b) (.num (D a)) (.num (D b)) = .ok (.num 0 : Exact G)) :
    D b ≠ D a ∧ a * D b = b * D a := by
  have hne : D b ≠ D a := by
    intro heq
    rw [secant_sampled_eq heq] at hzero
    cases hzero
  refine ⟨hne, ?_⟩
  rw [secant_sampled hne] at hzero
  have hcrossing := Exact.num_inj.mp (Except.ok.inj hzero)
  rw [crossing, div_eq_zero_iff, or_iff_left (sub_ne_zero.mpr hne)] at hcrossing
  exact sub_eq_zero.mp hcrossing

/-! ## The acceptance test -/

section Acceptance

variable {test : WolfeTest (Exact G)} {s : Sample (Exact G)}

theorem WolfeTest.step_ne_zero_of_accepts {r : Bool} (h : test.accepts s = .ok r) :
    s.step ≠ .num 0 := by
  intro hstep
  rw [accepts, Scalar.divide, Exact.zero_eq, hstep] at h
  simp at h

/-- The acceptance test has a result at every other step. -/
theorem WolfeTest.eq_of_accepts_eq_error {cause : Breakdown} (h : test.accepts s = .error cause) :
    s.step = .num 0 ∧ cause = .divisionByZero := by
  rw [accepts, Scalar.divide, Exact.zero_eq] at h
  split_ifs at h with hstep
  · cases h
    exact ⟨Exact.eq_of_beq hstep, rfl⟩
  · cases h

end Acceptance

namespace HagerZhang

variable {c c' : Cache (Exact G)} {test : WolfeTest (Exact G)} {limit : Exact G}
  {low high mid : Point (Exact G)} {z : K}

/-- The double secant step on a bracket from zero leads back to zero: the first secant's point is
not accepted, and the slopes there and at the high end lie on a line through the origin. -/
structure SlipsBack (test : WolfeTest (Exact G)) (V D : K → K) (z : K) : Prop where
  slope_pos : 0 < D z
  collinear : z * D (crossing D 0 z) = crossing D 0 z * D z
  rejected : test.accepts (sampled V D (crossing D 0 z)) = .ok false

/-! ## The two halves of a double secant step -/

section Halves

/-- The ends of a bracket, as samples of a function. -/
structure Spans (V D : K → K) (a z : K) (low high : Point (Exact G)) : Prop where
  low_eq : low.toSample = sampled V D a
  high_eq : high.toSample = sampled V D z
  nonneg : 0 ≤ a
  lt : a < z
  slope_neg : D a < 0
  slope_nonneg : 0 ≤ D z

namespace Spans

variable (hs : Spans V D a z low high)

include hs

theorem crossing_pos : 0 < crossing D a z :=
  hs.nonneg.trans_lt (lt_crossing hs.lt hs.slope_neg hs.slope_nonneg)

theorem slopes : low.slope < 0.0 ∧ 0.0 ≤ high.slope := by
  rw [congrArg Sample.slope hs.low_eq, congrArg Sample.slope hs.high_eq, Exact.zero_eq]
  exact ⟨hs.slope_neg, hs.slope_nonneg⟩

theorem secant_eq :
    secant low.step high.step low.slope high.slope = .ok (.num (crossing D a z)) := by
  rw [congrArg Sample.step hs.low_eq, congrArg Sample.step hs.high_eq,
    congrArg Sample.slope hs.low_eq, congrArg Sample.slope hs.high_eq]
  exact secant_sampled (hs.slope_neg.trans_le hs.slope_nonneg).ne'

theorem mid_eq {t : Exact G} (ht : secant low.step high.step low.slope high.slope = .ok t)
    (hstep : mid.step = t) (hmid : ∃ x, mid.toSample = sampled V D x) :
    mid.toSample = sampled V D (crossing D a z) := by
  obtain ⟨x, hx⟩ := hmid
  cases hs.secant_eq.symm.trans ht
  have hcrossing := Exact.num_inj.mp ((congrArg Sample.step hx).symm.trans hstep)
  rw [hx, hcrossing]

end Spans

omit [IsStrictOrderedRing K] in
theorem Cached.sample_eq {pt pt' : Point (Exact G)} (h : Cached c pt) (h' : Cached c pt')
    (hindex : pt.index = pt'.index) : pt.toSample = pt'.toSample := by
  have hentry := h.entry
  rw [hindex, h'.entry] at hentry
  exact (Option.some.inj hentry).symm

theorem exists_secondSecant (low high low' high' mid : Point (Exact G)) :
    ∃ t, secondSecant low high low' high' mid = .ok t := by
  rw [secondSecant]
  split_ifs
  · exact exists_secant ..
  · exact exists_secant ..
  · exact ⟨_, rfl⟩

/-- What replacing an end of a bracket by a point leads to: the low end does not move back, and a
point of nonnegative slope in the bracket becomes the high end. -/
structure Replaces (low high mid : Point (Exact G)) (r : Point (Exact G) × Point (Exact G)) :
    Prop where
  le : low.step ≤ r.1.step
  eq_of_nonneg : ¬(mid.step < low.step ∨ high.step < mid.step) → 0.0 ≤ mid.slope → r = (low, mid)

/-- After its first half, a double secant step has cached the point of the first secant, which is
not accepted, and has replaced an end of the bracket by it. -/
structure Halfway (test : WolfeTest (Exact G)) (V D : K → K) (a z : K) (c : Cache (Exact G))
    (low high mid : Point (Exact G)) (r : Point (Exact G) × Point (Exact G)) : Prop where
  spans : Spans V D a z low high
  mid_eq : mid.toSample = sampled V D (crossing D a z)
  rejected : test.accepts mid.toSample = .ok false
  cached : Cached c mid
  bracket : Bracket c test.limit r.1 r.2
  replaces : Replaces low high mid r

theorem Spans.halfway {r : Point (Exact G) × Point (Exact G)} {t : Exact G} {accepted : Bool}
    (hs : Spans V D a z low high)
    (ht : secant low.step high.step low.slope high.slope = .ok t)
    (hmid : c'.Grows c ∧ Cached c mid ∧ mid.step = t ∧ ∃ x, mid.toSample = sampled V D x)
    (haccepts : test.accepts mid.toSample = .ok accepted) (hrejected : ¬accepted = true)
    {c'' : Cache (Exact G)}
    (hr : c.Grows c'' ∧ Bracket c'' test.limit r.1 r.2 ∧ Replaces low high mid r) :
    Halfway test V D a z c'' low high mid r where
  spans := hs
  mid_eq := hs.mid_eq ht hmid.2.2.1 hmid.2.2.2
  rejected := haccepts.trans (congrArg _ (Bool.eq_false_iff.mpr hrejected))
  cached := hmid.2.1.mono hr.1
  bracket := hr.2.1
  replaces := hr.2.2

namespace Halfway

variable {r : Point (Exact G) × Point (Exact G)} {t : Exact G}
  (hh : Halfway test V D a z c low high mid r)

include hh

omit [IsStrictOrderedRing K] in
theorem mid_step : mid.step = .num (crossing D a z) := congrArg Sample.step hh.mid_eq

/-- Where the second secant is zero and inside the bracket, the step leads back to zero. -/
theorem slipsBack (hsecant : secondSecant low high r.1 r.2 mid = .ok (.num 0))
    (hle : r.1.step ≤ .num 0) : a = 0 ∧ SlipsBack test V D z := by
  have hm := hh.spans.crossing_pos
  rw [secondSecant] at hsecant
  split_ifs at hsecant with hhighIndex hlowIndex
  · -- the point has become the high end, and the low end is still the zero step
    have hzero : a = 0 := by
      have hmove := Exact.le_trans hh.replaces.le hle
      rw [congrArg Sample.step hh.spans.low_eq] at hmove
      exact le_antisymm (Exact.num_le.mp hmove) hh.spans.nonneg
    have hpoint := (hh.bracket.highEnd.sample_eq hh.cached hhighIndex).trans hh.mid_eq
    rw [congrArg Sample.step hh.spans.high_eq, congrArg Sample.slope hh.spans.high_eq,
      congrArg Sample.step hpoint, congrArg Sample.slope hpoint] at hsecant
    obtain ⟨hne, hcollinear⟩ := collinear_of_secant hsecant
    have hrejected := hh.mid_eq ▸ hh.rejected
    have hpos := hh.spans.lt
    have hslope := hh.spans.slope_nonneg
    subst hzero
    refine ⟨rfl, hslope.lt_of_ne fun hflat ↦ ?_, hcollinear, hrejected⟩
    -- at a stationary high end the first secant has led there already
    rw [← hflat, mul_zero] at hcollinear
    exact hne (((mul_eq_zero.mp hcollinear).resolve_left hpos.ne').trans hflat)
  · -- the point has become the low end, and zero is before it
    have hpoint := hh.bracket.lowEnd.sample_eq hh.cached hlowIndex
    rw [congrArg Sample.step hpoint, hh.mid_step] at hle
    exact absurd hle (not_le.mpr hm)
  · -- the second secant is the point again
    rw [hh.mid_step] at hsecant
    exact absurd (Exact.num_inj.mp (Except.ok.inj hsecant)) hm.ne'

theorem eq_zero_of_slipsBack (hback : a = 0 ∧ SlipsBack test V D z)
    (hsecant : secondSecant low high r.1 r.2 mid = .ok t) :
    t = .num 0 ∧ r.1.step ≤ t ∧ t ≤ r.2.step := by
  obtain ⟨rfl, hback⟩ := hback
  have hm := hh.spans.crossing_pos
  have hlt := crossing_lt hh.spans.lt hh.spans.slope_neg hback.slope_pos
  have hslope : 0 < D (crossing D 0 z) := by
    have hprod := mul_pos hm hback.slope_pos
    rw [← hback.collinear] at hprod
    exact (mul_pos_iff_of_pos_left hh.spans.lt).mp hprod
  -- the two slopes differ, because the two steps do
  have hne : D (crossing D 0 z) ≠ D z := by
    intro heq
    have hcollinear := hback.collinear
    rw [heq] at hcollinear
    exact hlt.ne' (mul_right_cancel₀ hback.slope_pos.ne' hcollinear)
  have hr : r = (low, mid) := by
    apply hh.replaces.eq_of_nonneg
    · rw [congrArg Sample.step hh.spans.low_eq, congrArg Sample.step hh.spans.high_eq, hh.mid_step]
      exact not_or.mpr ⟨hm.not_gt, hlt.not_gt⟩
    · rw [congrArg Sample.slope hh.mid_eq, Exact.zero_eq]
      exact Exact.num_le.mpr hslope.le
  rw [hr, secondSecant, if_pos rfl, congrArg Sample.step hh.spans.high_eq,
    congrArg Sample.slope hh.spans.high_eq, hh.mid_step, congrArg Sample.slope hh.mid_eq] at hsecant
  have hzero : crossing D z (crossing D 0 z) = 0 := by
    rw [crossing, hback.collinear, sub_self, zero_div]
  cases (secant_sampled hne).symm.trans hsecant
  rw [hzero, hr, hh.mid_step, congrArg Sample.step hh.spans.low_eq]
  exact ⟨rfl, Exact.num_le.mpr le_rfl, Exact.num_le.mpr hm.le⟩

end Halfway

end Halves

end HagerZhang

end NonlinearCG
