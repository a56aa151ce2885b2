import Mathlib
import NonlinearCG.Proofs.LineSearch.Secant

/-!
# The contract of the Hager–Zhang search

A line search either returns a step or gives up with a verdict. Along a function whose values and
slopes are numbers, the Hager–Zhang search keeps this contract, with one exception.

All divisions of the search are those of a secant, whose divisor is tested first, and those of the
acceptance test. Halving an interval ends, provided that the halvings granted for it leave nothing
wider than the gaps there. So the only failure besides the verdicts is an acceptance test at the
zero step, and there is one if and only if the search comes to a bracket on which `SlipsBack` holds.
-/

namespace NonlinearCG.HagerZhang


variable {ω K : Type} [Field K] [LinearOrder K] {G : Grid K} {φ : LineFunction ω (Exact G)}
  {V D : K → K} {a z : K} {c : Cache (Exact G)} {test : WolfeTest (Exact G)}
  {low high : Point (Exact G)}

/-! ## Intervals that can be halved -/

/-- An interval of steps that so many halvings exhaust. -/
def Divisible (n : ℕ) (x y : Exact G) : Prop :=
  ∃ a b, x = .num a ∧ y = .num b ∧ 0 ≤ a ∧ a ≤ b ∧ G.Exhausts n a b

theorem divisible_halvings (hhalvings : ∀ a b, 0 ≤ a → G.Exhausts (G.halvings a b) a b)
    {x y : Exact G} (hx : IsStep x) (hy : IsStep y) (h : x ≤ y) :
    Divisible (Scalar.halvings x y) x y := by
  obtain ⟨a, ha, rfl⟩ := hx
  obtain ⟨b, -, rfl⟩ := hy
  exact ⟨a, b, rfl, rfl, ha, h, hhalvings a b ha⟩

theorem Divisible.le_self {n : ℕ} {x y : Exact G} (h : Divisible n x y) : x ≤ x := by
  obtain ⟨a, b, rfl, -, ha, -⟩ := h
  exact IsStep.le_self ⟨a, ha, rfl⟩

theorem Divisible.le_spacing (hgap : ∀ x, 0 ≤ x → 0 < G.spacing x) {x y : Exact G}
    (h : Divisible 0 x y) : ¬Scalar.spacing y < y - x := by
  obtain ⟨a, b, rfl, rfl, ha, hab, hexhausts⟩ := h
  rw [Exact.num_sub, Exact.spacing_num, Exact.num_lt, not_lt]
  rcases hab.lt_or_eq with hlt | rfl
  · simpa using hexhausts b hlt le_rfl
  · rw [sub_self]
    exact (hgap a ha).le

/-! ## Evaluations that do not fail -/

section Evaluations

variable (hφ : φ.Everywhere V D) {E : Fault (Exact G) → Bench ω (Exact G) → Prop}

include hφ

theorem sampleAt_everywhere {t : Exact G} (ht : IsStep t) (b : Bench ω (Exact G)) :
    Meets (Search.sampleAt φ t) b
      (fun s b' ↦ b'.cache = b.cache ∧ ∃ a, t = .num a ∧ s = sampled V D a) E := by
  obtain ⟨a, -, rfl⟩ := ht
  -- an evaluation has one result, the one that the hypothesis gives
  obtain ⟨w, hboth⟩ := hφ a b.world
  refine (Search.meets_sampleAt φ _ b).imp ?_ ?_
  · rintro ⟨t, v, d⟩ _ ⟨rfl, w', hrun, rfl⟩
    cases hboth.symm.trans hrun
    exact ⟨rfl, a, rfl, rfl⟩
  · rintro _ _ ⟨cause, w', hrun, -⟩
    cases hboth.symm.trans hrun

theorem probe_everywhere (refusal : Exact G → SearchError (Exact G)) {t : Exact G}
    (ht : IsStep t) (b : Bench ω (Exact G)) :
    Meets (probe φ refusal t) b
      (fun pt b' ↦ b.cache.Grows b'.cache ∧ Cached b'.cache pt ∧ pt.step = t ∧
        ∃ a, pt.toSample = sampled V D a) E := by
  refine (sampleAt_everywhere hφ ht b).bind ?_
  rintro s b' ⟨hcache, a, rfl, rfl⟩
  have hfinite : finite (sampled V D a : Sample (Exact G)) = true := rfl
  rw [if_pos hfinite]
  refine (keep_spec hfinite ht b').imp_ok ?_
  intro pt b'' hkept
  exact ⟨hcache ▸ hkept.grows, hkept.cached, congrArg Sample.step hkept.sample, a, hkept.sample⟩

end Evaluations

/-! ## What is cached -/

section Caches

variable {p : HagerZhang (Exact G)} {trial : Exact G} {mayAccept : Bool}
  {b₀ b : Bench ω (Exact G)} {rounds : ℕ}

theorem AtRound.course {start : Sample (Exact G)}
    (h : AtRound p φ start trial mayAccept b₀ rounds low high b) : Course φ b₀ b := by
  induction h with
  | first happroach => exact ((keepsTo_approach p _ trial mayAccept).course_of_ok happroach).1
  | next _ hround ih => exact ih.trans ((keepsTo_round p _ _ _).course_of_ok hround).1

theorem Cached.exists_eq_sampled (hφ : φ.Everywhere V D)
    (hstart : b₀.cache.samples = #[sampled V D 0]) (hcourse : Course φ b₀ b)
    {pt : Point (Exact G)} (hpt : Cached b.cache pt) :
    ∃ a, 0 ≤ a ∧ pt.toSample = sampled V D a := by
  obtain ⟨a, ha, hstep⟩ := hpt.step
  obtain ⟨d, hslope⟩ := hpt.slope
  rcases hcourse.gives hpt.entry with hbefore | hgives
  · have hmem : pt.toSample ∈ b₀.cache.samples := Array.mem_of_getElem? hbefore
    rw [hstart, Array.mem_singleton] at hmem
    exact ⟨0, le_rfl, hmem⟩
  · exact ⟨a, ha, hφ.eq_of_gives hgives hstep hslope⟩

end Caches

variable [IsStrictOrderedRing K]

/-! ## Operations that do not fail -/

theorem Divisible.half {n : ℕ} {x y z : Exact G} (h : Divisible (n + 1) x y)
    (hz : (x + y) / 2.0 = z) : IsStep z ∧ x ≤ z ∧ Divisible n x z ∧ Divisible n z y := by
  obtain ⟨a, b, rfl, rfl, ha, hab, hexhausts⟩ := h
  rw [Exact.num_add, Exact.two_eq, Exact.num_div two_ne_zero] at hz
  subst hz
  have hlow : a ≤ (a + b) / 2 := by linarith
  have hhigh : (a + b) / 2 ≤ b := by linarith
  -- half of the width is used up by one halving less
  have hfewer : ∀ t, a < t → t ≤ b → (b - a) / 2 ≤ G.spacing t * 2 ^ n := by
    intro t hat htb
    have hmore := hexhausts t hat htb
    rw [pow_succ] at hmore
    linarith
  refine ⟨⟨_, ha.trans hlow, rfl⟩, Exact.num_le.mpr hlow, ⟨a, _, rfl, rfl, ha, hlow, ?_⟩,
    _, b, rfl, rfl, ha.trans hlow, hhigh, ?_⟩
  · intro t hat htm
    have hfew := hfewer t hat (htm.trans hhigh)
    linarith
  · intro t hmt htb
    have hfew := hfewer t (hlow.trans_lt hmt) htb
    linarith

section Operations

variable (hφ : φ.Everywhere V D)

include hφ

theorem bisect_everywhere (hgap : ∀ x, 0 ≤ x → 0 < G.spacing x) (limit : Exact G) (fuel : ℕ)
    (calls : Calls) {low high : Point (Exact G)} (b : Bench ω (Exact G))
    {E : Fault (Exact G) → Bench ω (Exact G) → Prop} (h : Divisible fuel low.step high.step) :
    Meets (bisect φ limit fuel calls low high) b
      (fun r b' ↦ b.cache.Grows b'.cache ∧ low.step ≤ r.1.1.step) E := by
  induction fuel generalizing calls low high b with
  | zero =>
    -- without halvings left, the interval is no wider than the gap
    rw [bisect, if_neg (h.le_spacing hgap)]
    exact ⟨fun _ _ hs ↦ hs, h.le_self⟩
  | succ fuel ih =>
    rw [bisect]
    by_cases hwidth : Scalar.spacing high.step < high.step - low.step
    swap
    · rw [if_neg hwidth]
      exact ⟨fun _ _ hs ↦ hs, h.le_self⟩
    rw [if_pos hwidth]
    refine (probe_everywhere hφ _ (h.half rfl).1 b).bind ?_
    rintro mid b' ⟨hgrows, -, hstep, -⟩
    obtain ⟨-, hle, hleft, hright⟩ := h.half hstep.symm
    split_ifs
    · exact ⟨hgrows, h.le_self⟩
    · refine (ih _ b' hright).imp_ok ?_
      exact fun r b'' hr ↦ ⟨hgrows.trans hr.1, Exact.le_trans hle hr.2⟩
    · refine (ih _ b' hleft).imp_ok ?_
      exact fun r b'' hr ↦ ⟨hgrows.trans hr.1, hr.2⟩

variable (hgap : ∀ x, 0 ≤ x → 0 < G.spacing x)
  (hhalvings : ∀ a b, 0 ≤ a → G.Exhausts (G.halvings a b) a b)

include hgap hhalvings

theorem update_everywhere (limit : Exact G) {low high mid : Point (Exact G)}
    (hlow : IsStep low.step) (hmid : IsStep mid.step) (b : Bench ω (Exact G))
    {E : Fault (Exact G) → Bench ω (Exact G) → Prop} :
    Meets (update φ limit low high mid) b
      (fun r b' ↦ b.cache.Grows b'.cache ∧ Replaces low high mid r.1) E := by
  rw [update]
  by_cases hout : mid.step < low.step ∨ high.step < mid.step
  · rw [if_pos hout]
    exact ⟨fun _ _ hs ↦ hs, hlow.le_self, fun hin ↦ absurd hout hin⟩
  rw [if_neg hout]
  have hle := hlow.le_of_not_lt hmid (not_or.mp hout).1
  split_ifs with hslope
  · exact ⟨fun _ _ hs ↦ hs, hlow.le_self, fun _ _ ↦ rfl⟩
  · exact ⟨fun _ _ hs ↦ hs, hle, fun _ hnonneg ↦ absurd hnonneg hslope⟩
  · -- the fuel of the bisection is what the interval needs
    have hdivisible := divisible_halvings hhalvings hlow hmid hle
    refine (bisect_everywhere hφ hgap limit _ _ b hdivisible).imp_ok ?_
    exact fun r b' hr ↦ ⟨hr.1, hr.2, fun _ hnonneg ↦ absurd hnonneg hslope⟩

theorem update_bracket {limit : Exact G} {low high mid : Point (Exact G)} {b : Bench ω (Exact G)}
    (hbracket : Bracket b.cache limit low high) (hmid : Cached b.cache mid)
    {E : Fault (Exact G) → Bench ω (Exact G) → Prop} :
    Meets (update φ limit low high mid) b
      (fun r b' ↦ b.cache.Grows b'.cache ∧ Bracket b'.cache limit r.1.1 r.1.2 ∧
        Replaces low high mid r.1) E := by
  have heverywhere : Meets (update φ limit low high mid) b
      (fun r b' ↦ b.cache.Grows b'.cache ∧ Replaces low high mid r.1) fun _ _ ↦ False :=
    update_everywhere hφ hgap hhalvings limit hbracket.lowEnd.step hmid.step b
  refine ((update_spec hgap φ hbracket hmid).and heverywhere).imp ?_ ?_
  · exact fun r b' hr ↦ ⟨hr.2.1, hr.1, hr.2.2⟩
  · exact fun e b' he ↦ he.2.elim

theorem doubleSecant_everywhere {test : WolfeTest (Exact G)} (hspans : Spans V D a z low high)
    {b : Bench ω (Exact G)} (hbracket : Bracket b.cache test.limit low high) :
    Meets (doubleSecant φ test low high) b (fun _ _ ↦ ¬(a = 0 ∧ SlipsBack test V D z))
      fun e _ ↦ e = .breakdown .divisionByZero ∧ a = 0 ∧ SlipsBack test V D z := by
  rw [doubleSecant, if_pos hspans.slopes, hspans.secant_eq, Search.lift_ok_bind]
  -- the first secant step is a step, as the slopes at the ends have opposite signs
  refine (probe_everywhere hφ _ ⟨_, hspans.crossing_pos.le, rfl⟩ b).bind ?_
  rintro mid b₁ ⟨hgrows, hmid, hstep, hsample⟩
  have hmidEq := hspans.mid_eq hspans.secant_eq hstep hsample
  refine Meets.bind ((Search.meets_lift _ b₁).imp_error ?_) ?_
  · -- it lies ahead of zero, where the test has an answer
    rintro _ _ ⟨cause, herror, -⟩
    obtain ⟨hzero, -⟩ := WolfeTest.eq_of_accepts_eq_error herror
    exact absurd (Exact.num_inj.mp (hstep.symm.trans hzero)) hspans.crossing_pos.ne'
  rintro accepted _ ⟨haccepts, rfl⟩
  split_ifs with haccepted
  · rintro ⟨rfl, hback⟩
    have hrejected := hback.rejected
    rw [← hmidEq, haccepts, haccepted] at hrejected
    cases hrejected
  refine (update_bracket hφ hgap hhalvings (hbracket.mono hgrows) hmid).bind ?_
  rintro ⟨r, more⟩ b₂ hr
  have hhalfway := hspans.halfway hspans.secant_eq ⟨hgrows, hmid, hstep, hsample⟩ haccepts
    haccepted hr
  obtain ⟨t, ht⟩ := exists_secondSecant low high r.1 r.2 mid
  dsimp only
  rw [ht, Search.lift_ok_bind]
  by_cases hin : r.1.step ≤ t ∧ t ≤ r.2.step
  swap
  · rw [if_neg hin]
    exact fun hback ↦ hin (hhalfway.eq_zero_of_slipsBack hback ht).2
  rw [if_pos hin]
  have hstepT := hr.2.1.lowEnd.step.of_le_of_le hr.2.1.highEnd.step hin.1 hin.2
  refine (probe_everywhere hφ _ hstepT b₂).bind ?_
  rintro mid' b₃ ⟨hgrows', hmid', rfl, -⟩
  refine Meets.bind ((Search.meets_lift _ b₃).imp_error ?_) ?_
  · -- the test fails only at zero, so the second secant step has slipped back
    rintro _ _ ⟨cause, herror, rfl, -⟩
    obtain ⟨hzero, rfl⟩ := WolfeTest.eq_of_accepts_eq_error herror
    rw [hzero] at ht hin
    exact ⟨rfl, hhalfway.slipsBack ht hin.1⟩
  rintro accepted' _ ⟨haccepts', rfl⟩
  -- on a bracket that slips back the step would be zero, and a test at zero has no answer
  have hforward : ¬(a = 0 ∧ SlipsBack test V D z) := fun hback ↦
    WolfeTest.step_ne_zero_of_accepts haccepts' (hhalfway.eq_zero_of_slipsBack hback ht).1
  split_ifs
  · exact hforward
  · refine (update_bracket hφ hgap hhalvings (hr.2.1.mono hgrows') hmid').bind ?_
    exact fun _ _ _ ↦ hforward

theorem round_everywhere (p : HagerZhang (Exact G)) {test : WolfeTest (Exact G)}
    (hspans : Spans V D a z low high) (hwidth : ¬high.step - low.step ≤ Scalar.spacing high.step)
    {b : Bench ω (Exact G)} (hbracket : Bracket b.cache test.limit low high) :
    Meets (round p φ test low high) b (fun _ _ ↦ ¬(a = 0 ∧ SlipsBack test V D z))
      fun e _ ↦ e = .breakdown .divisionByZero ∧ a = 0 ∧ SlipsBack test V D z := by
  have hsecant := (doubleSecant_spec hgap φ hbracket hspans.slopes.2).and
    (doubleSecant_everywhere hφ hgap hhalvings hspans hbracket)
  rw [round, if_neg hwidth]
  refine (hsecant.imp_error fun _ _ h ↦ h.2).bind ?_
  rintro ⟨point | ⟨low', high'⟩, calls⟩ b₁ ⟨hr, hforward⟩
  · exact hforward
  replace hr : Bracket b₁.cache test.limit low' high' := hr
  dsimp only
  split_ifs
  · exact hforward
  · exact hforward
  · refine (probe_everywhere hφ _ (hr.lowEnd.step.half hr.highEnd.step hr.le).1 b₁).bind ?_
    rintro mid b₂ ⟨hgrows, hmid, -⟩
    refine (update_bracket hφ hgap hhalvings (hr.mono hgrows) hmid).bind ?_
    exact fun _ _ _ ↦ hforward

/-! ## Bracketing -/

omit hgap hhalvings

theorem expand_everywhere {p : HagerZhang (Exact G)} (hp : p.Proper) {limit alphamax : Exact G}
    {tip : Point (Exact G)} {b : Bench ω (Exact G)} (h : Tip b.cache limit alphamax tip)
    {E : Fault (Exact G) → Bench ω (Exact G) → Prop} :
    Meets (expand p φ alphamax tip) b (fun _ _ ↦ True) E := by
  rw [expand]
  rcases hstep : expandedStep p alphamax tip.step with _ | c
  · trivial
  have hc := ahead_expandedStep hp h.step h.step_pos h.le_max hstep
  refine (sampleAt_everywhere hφ hc.step b).bind ?_
  rintro _ b₁ ⟨-, a, rfl, rfl⟩
  rw [retreat_of_finite _ _ _ _ rfl, pure_bind]
  dsimp only
  split_ifs
  · trivial
  · exact (Search.meets_report _ b₁).bind fun _ _ _ ↦ trivial
  · trivial
  · exact (keep_spec rfl hc.step b₁).bind fun _ _ _ ↦ trivial

include hgap hhalvings

theorem bracket_everywhere {p : HagerZhang (Exact G)} (hp : p.Proper)
    (hlimit : ∃ l, test.limit = .num l) {largest alphamax : Exact G} (rounds : ℕ) (calls : Calls)
    {tip : Point (Exact G)} {b : Bench ω (Exact G)} (htip : Tip b.cache test.limit alphamax tip)
    (hedge : Edge φ largest alphamax) :
    Meets (bracket p φ test.limit rounds calls alphamax tip) b (fun _ _ ↦ True)
      fun e _ ↦ GaveUp e := by
  induction rounds generalizing calls alphamax tip b with
  | zero => exact ⟨_, rfl⟩
  | succ rounds ih =>
    rw [bracket]
    split_ifs with hslope hvalue
    · exact (lowEnd_spec htip).bind fun _ _ _ ↦ trivial
    · -- the interval from the previous point to the tip
      obtain ⟨prev, hentry, hlow, hle, -⟩ := htip.exists_previous
      refine Meets.bind ((Search.meets_cached _ b).imp_error ?_) ?_
      · rintro _ _ ⟨-, -, hnone⟩
        cases hnone.symm.trans hentry
      rintro ⟨s, i⟩ _ ⟨rfl, hs, rfl⟩
      cases hs.symm.trans hentry
      have hdivisible := divisible_halvings hhalvings hlow.step htip.step hle
      exact (bisect_everywhere hφ hgap _ _ _ _ hdivisible).bind fun _ _ _ ↦ trivial
    · have hlow := htip.lowEnd hlimit hslope hvalue
      have hexpand := (expand_spec φ hp htip hlow hedge).and
        (expand_everywhere hφ hp htip (E := fun _ _ ↦ False))
      refine (hexpand.imp_error fun _ _ h ↦ h.2.elim).bind ?_
      rintro ⟨t | ⟨tip', alphamax'⟩, more⟩ b' ⟨hr, -⟩
      · trivial
      · exact ih _ hr.1 hr.2

theorem approach_everywhere {p : HagerZhang (Exact G)} (hp : p.Proper) (hD : D 0 < 0)
    (trial : Exact G) (mayAccept : Bool) {b : Bench ω (Exact G)}
    (hstart : b.cache.samples = #[sampled V D 0]) :
    Meets (approach p φ (sampled V D 0) trial mayAccept) b (fun _ _ ↦ True)
      fun e _ ↦ GaveUp e := by
  have hlimit : ∃ l, (p.test (sampled V D 0)).limit = .num l := exists_limit hp
  have hfinite (a : K) : finite (sampled V D a : Sample (Exact G)) = true := rfl
  rw [approach, if_pos (hfinite 0)]
  by_cases htrial : 0.0 < trial ∧ Scalar.isFinite trial = true ∧ trial ≤ p.alphamax
  swap
  · rw [if_neg htrial]
    exact ⟨_, rfl⟩
  have hahead := ahead_of_admissible htrial
  rw [if_pos htrial]
  refine (sampleAt_everywhere hφ hahead.step b).bind ?_
  rintro _ b₁ ⟨hcache, a, rfl, rfl⟩
  -- the first sample is finite, so nothing is reduced
  rw [reduce_of_finite _ _ (hfinite a), pure_bind]
  dsimp only
  rw [if_pos (hfinite a)]
  refine (keep_spec (hfinite a) hahead.step b₁).bind ?_
  intro tip b₂ hkept
  have htip := tip_of_start hp hD (hcache ▸ hstart) hkept hahead
  have hbracket (b₃ : Bench ω (Exact G)) (hb₃ : b₃ = b₂) :=
    bracket_everywhere hφ hgap hhalvings hp hlimit (p.linesearchmax - 1).toNat Calls.ofBoth
      (hb₃ ▸ htip) (Or.inl rfl : Edge φ p.alphamax p.alphamax)
  split_ifs
  · refine Meets.bind ((Search.meets_lift _ b₂).imp_error ?_) ?_
    · -- the trial step is not zero
      rintro _ _ ⟨cause, herror, -⟩
      obtain ⟨hzero, -⟩ := WolfeTest.eq_of_accepts_eq_error herror
      have hpos := hahead.lt
      rw [show a = 0 from Exact.num_inj.mp hzero] at hpos
      exact absurd hpos (lt_irrefl _)
    rintro accepted b₃ ⟨-, hb₃⟩
    split_ifs
    · exact (Search.meets_report _ _).bind fun _ _ _ ↦ trivial
    · exact hbracket b₃ hb₃
  · exact hbracket b₂ rfl

end Operations

/-! ## The contract -/

section Search

variable {p : HagerZhang (Exact G)} {trial : Exact G} {mayAccept : Bool}
  {b₀ b : Bench ω (Exact G)} {rounds : ℕ}

/-- A bracket at the top of a round, if it is not collapsed, spans two samples of the function. -/
theorem AtRound.spans (hp : p.Proper) (hgap : ∀ x, 0 ≤ x → 0 < G.spacing x)
    (hφ : φ.Everywhere V D) (hD : D 0 < 0) (hstart : b₀.cache.samples = #[sampled V D 0])
    (h : AtRound p φ (sampled V D 0) trial mayAccept b₀ rounds low high b)
    (hwidth : ¬high.step - low.step ≤ Scalar.spacing high.step) :
    ∃ a z, Spans V D a z low high := by
  have hbracket : Bracket b.cache _ low high := h.bracket hp hgap hD hstart
  obtain ⟨a, ha, hlow⟩ := hbracket.lowEnd.exists_eq_sampled hφ hstart h.course
  obtain ⟨z, -, hhigh⟩ := hbracket.highEnd.exists_eq_sampled hφ hstart h.course
  obtain ⟨hlt, hnonneg⟩ := hbracket.encloses.resolve_right hwidth
  have hneg := hbracket.lowEnd.slope_neg
  rw [congrArg Sample.step hlow, congrArg Sample.step hhigh] at hlt
  rw [congrArg Sample.slope hhigh, Exact.zero_eq] at hnonneg
  rw [congrArg Sample.slope hlow, Exact.zero_eq] at hneg
  exact ⟨a, z, hlow, hhigh, ha, hlt, hneg, hnonneg⟩

/-- The search comes to a bracket from zero on which the double secant step leads back to zero. -/
def ReturnsToZero (p : HagerZhang (Exact G)) (φ : LineFunction ω (Exact G)) (V D : K → K)
    (trial : Exact G) (mayAccept : Bool) (b₀ : Bench ω (Exact G)) : Prop :=
  ∃ z low high b, AtDoubleSecant p φ (sampled V D 0) trial mayAccept b₀ low high b ∧
    low.step = .num 0 ∧ high.step = .num z ∧ SlipsBack (p.test (sampled V D 0)) V D z

variable (hp : p.Proper) (hgap : ∀ x, 0 ≤ x → 0 < G.spacing x)
  (hhalvings : ∀ a b, 0 ≤ a → G.Exhausts (G.halvings a b) a b) (hφ : φ.Everywhere V D)
  (hD : D 0 < 0) (hstart : b₀.cache.samples = #[sampled V D 0])

include hp hgap hhalvings hφ hD hstart

/-- Narrowing fails with a verdict, unless the search returns to zero. -/
theorem AtRound.fails {e : Fault (Exact G)} {b' : Bench ω (Exact G)}
    (h : AtRound p φ (sampled V D 0) trial mayAccept b₀ rounds low high b)
    {calls : Calls}
    (hrun : (narrow p φ (p.test (sampled V D 0)) rounds calls low high).run b = (.error e, b')) :
    GaveUp e ∨ e = .breakdown .divisionByZero ∧ ReturnsToZero p φ V D trial mayAccept b₀ := by
  induction rounds generalizing calls low high b with
  | zero =>
    cases hrun
    exact Or.inl ⟨_, rfl⟩
  | succ rounds ih =>
    rw [narrow] at hrun
    rcases run_bind_eq_error hrun with hround |
      ⟨⟨t | ⟨low', high'⟩, more⟩, b₁, hround, hrest⟩
    · by_cases hwidth : high.step - low.step ≤ Scalar.spacing high.step
      · rw [round, if_pos hwidth] at hround
        cases hround
      · obtain ⟨a, x, hspans⟩ := h.spans hp hgap hφ hD hstart hwidth
        have hspec := round_everywhere hφ hgap hhalvings p hspans hwidth
          (h.bracket hp hgap hD hstart)
        obtain ⟨rfl, rfl, hback⟩ := hspec.of_run_error hround
        exact Or.inr ⟨rfl, x, low, high, b, ⟨⟨rounds, h⟩, hwidth⟩,
          congrArg Sample.step hspans.low_eq, congrArg Sample.step hspans.high_eq, hback⟩
    · cases hrest
    · exact ih (h.next hround) hrest

theorem ReturnsToZero.breaks_down (h : ReturnsToZero p φ V D trial mayAccept b₀) :
    ∃ b, (step p φ trial mayAccept).run b₀ = (.error (.breakdown .divisionByZero), b) := by
  obtain ⟨x, low, high, b, ⟨⟨rounds, hround⟩, hwidth⟩, hlow, hhigh, hback⟩ := h
  obtain ⟨a, y, hspans⟩ := hround.spans hp hgap hφ hD hstart hwidth
  obtain rfl := Exact.num_inj.mp ((congrArg Sample.step hspans.low_eq).symm.trans hlow)
  obtain rfl := Exact.num_inj.mp ((congrArg Sample.step hspans.high_eq).symm.trans hhigh)
  have hspec := round_everywhere hφ hgap hhalvings p hspans hwidth
    (hround.bracket hp hgap hD hstart)
  obtain ⟨calls, hresume⟩ := hround.resume (Cache.get?_zero_of_samples_eq hstart)
  rw [hresume, narrow]
  rcases hrun : (round p φ (p.test (sampled V D 0)) low high).run b with ⟨e | r, b'⟩
  · obtain ⟨rfl, -⟩ := hspec.of_run_error hrun
    exact ⟨b', run_bind_error hrun⟩
  · exact absurd ⟨rfl, hback⟩ (hspec.of_run_ok hrun)

/-- **The contract of the search.** Along a function whose values and slopes are numbers, from a
start that leads downhill, and for any trial step:

* a search that does not return gives up with a verdict, or divides by zero;
* it divides by zero if and only if it comes to a bracket from zero on which the double secant step
  leads back to zero. -/
theorem breaks_down_iff (trial : Exact G) (mayAccept : Bool) :
    (∀ e b, (step p φ trial mayAccept).run b₀ = (.error e, b) →
      GaveUp e ∨ e = .breakdown .divisionByZero) ∧
    ((∃ b, (step p φ trial mayAccept).run b₀ = (.error (.breakdown .divisionByZero), b)) ↔
      ReturnsToZero p φ V D trial mayAccept b₀) := by
  have hfails : ∀ e b, (step p φ trial mayAccept).run b₀ = (.error e, b) →
      GaveUp e ∨ e = .breakdown .divisionByZero ∧ ReturnsToZero p φ V D trial mayAccept b₀ := by
    intro e b hrun
    rw [step, run_bind_ok (Search.run_cached (Cache.get?_zero_of_samples_eq hstart))] at hrun
    rcases run_bind_eq_error hrun with happroach |
      ⟨⟨t | ⟨low, high, rounds⟩, calls⟩, b₁, happroach, hrest⟩
    · have hspec := approach_everywhere hφ hgap hhalvings hp hD trial mayAccept hstart
      exact Or.inl (hspec.of_run_error happroach)
    · cases hrest
    · exact (AtRound.first happroach).fails hp hgap hhalvings hφ hD hstart hrest
  refine ⟨fun e b hrun ↦ (hfails e b hrun).imp_right And.left, ?_,
    ReturnsToZero.breaks_down hp hgap hhalvings hφ hD hstart⟩
  rintro ⟨b, hrun⟩
  rcases hfails _ b hrun with ⟨_, hcause⟩ | hslips
  · cases hcause
  · exact hslips.2

end Search

def quinticValue (t : ℚ) : ℚ := t * (t * (17 + t * (t * (8 * t) - 24)) - 1)

def quinticSlope (t : ℚ) : ℚ := t * (34 + t * (t * (40 * t) - 72)) - 1

/-- A quintic, with its slope. The slopes at `1 / 2` and at `1` lie on a line through the origin. -/
def quintic : LineFunction Unit (Exact Grid.even) where
  value t := return t * (t * (17.0 + t * (t * (8.0 * t) - 24.0)) - 1.0)
  both t := return (t * (t * (17.0 + t * (t * (8.0 * t) - 24.0)) - 1.0),
    t * (34.0 + t * (t * (40.0 * t) - 72.0)) - 1.0)

theorem quintic_everywhere : quintic.Everywhere quinticValue quinticSlope := by
  intro t
  have hboth : quintic.both (.num t) = pure (.num (quinticValue t), .num (quinticSlope t)) := by
    simp only [quintic, quinticValue, quinticSlope, Exact.ofScientific_eq, Exact.num_mul,
      Exact.num_add, Exact.num_sub]
    norm_num
  rw [hboth]
  exact .pure _

theorem breaks_down_iff_quintic :
    let b₀ : Bench Unit (Exact Grid.even) :=
      { world := (), cache := .seeded (sampled quinticValue quinticSlope 0) }
    (∃ b, (step default quintic (.num 1) false).run b₀ =
      (.error (.breakdown .divisionByZero), b)) ∧
    ReturnsToZero default quintic quinticValue quinticSlope (.num 1) false b₀ := by
  intro b₀
  have hbroken : (match (step default quintic (.num 1) false).run b₀ with
      | (.error (.breakdown .divisionByZero), _) => true
      | _ => false) = true := by
    decide +kernel
  have hcontract := breaks_down_iff default_proper (fun x _ ↦ Grid.even_spacing_pos x)
    (fun a b _ ↦ Grid.even_exhausts a b) quintic_everywhere
    (by norm_num [quinticSlope] : quinticSlope 0 < 0) (rfl : b₀.cache.samples = _) (.num 1) false
  have hrun : ∃ b, (step default quintic (.num 1) false).run b₀ =
      (.error (.breakdown .divisionByZero), b) := by
    split at hbroken
    · exact ⟨_, ‹_›⟩
    · cases hbroken
  exact ⟨hrun, hcontract.2.mp hrun⟩

end NonlinearCG.HagerZhang
