import Mathlib
import NonlinearCG.Proofs.LineSearch.Bracket
import NonlinearCG.Proofs.LineSearch.Parameters
import NonlinearCG.Proofs.LineSearch.Tips

/-!
# From a descent direction to a bracket

Along a ray that leads downhill at its start, every way out of the bracketing stage is a bracket, or
an end of the search: at the zero step, at a cached step, or at the largest one.

## The invariant

The point that is being judged, the *tip*, is the last one of the cache, and the point before it is
the low end of a bracket that still lacks its high end. An expansion is only tried from a tip that
is such a low end itself, and it caches one further point beyond it. So a slope that turns upwards
closes a bracket with the point before the tip, and a value that rises above the limit leaves an
interval to bisect.
-/

namespace NonlinearCG.HagerZhang

variable {ω K : Type} [Field K] [LinearOrder K] {G : Grid K} {φ : LineFunction ω (Exact G)}
  {c c' : Cache (Exact G)} {test : WolfeTest (Exact G)} {limit alphamax largest : Exact G}
  {tip : Point (Exact G)}

/-! ## The invariant -/

/-- A step beyond a given one that is at most the largest one. -/
structure Ahead (cold alphamax t : Exact G) : Prop where
  step : IsStep t
  lt : cold < t
  le_max : t ≤ alphamax

/-- The point that bracketing has come to: the last one of the cache, after the low end of a
bracket. -/
structure Tip (c : Cache (Exact G)) (limit alphamax : Exact G) (tip : Point (Exact G)) : Prop
    extends Cached c tip where
  last : c.size = tip.index + 1
  previous : ∃ prev, LowEnd c limit prev ∧ prev.index + 1 = tip.index ∧ prev.step < tip.step
  le_max : tip.step ≤ alphamax

/-- What the largest step can be: that of the parameters, or one where an evaluation was not
finite. -/
def Edge (φ : LineFunction ω (Exact G)) (largest alphamax : Exact G) : Prop :=
  alphamax = largest ∨ ∃ s, φ.Samples s ∧ s.step = alphamax ∧ finite s = false

/-- The search comes to the largest step, and to a finite sample there. -/
def AtEdge (φ : LineFunction ω (Exact G)) (largest t : Exact G) : Prop :=
  IsStep t ∧ Edge φ largest t ∧ ∃ s, φ.Samples s ∧ s.step = t ∧ finite s = true

/-- Bracketing leads to a bracket, unless it ends the search. -/
def Bracketing.Keeps (φ : LineFunction ω (Exact G)) (largest : Exact G) (c : Cache (Exact G))
    (test : WolfeTest (Exact G)) : Bracketing (Exact G) → Prop
  | .ended t => t = 0.0 ∨ Settled c test t ∨ AtEdge φ largest t
  | .bracket low high _ => Bracket c test.limit low high

/-- An expansion leads to a further point, unless it ends the search. -/
def Expansion.Extends (φ : LineFunction ω (Exact G)) (largest : Exact G) (c : Cache (Exact G))
    (test : WolfeTest (Exact G)) : Expansion (Exact G) → Prop
  | .ended t => Settled c test t ∨ AtEdge φ largest t
  | .reached tip alphamax => Tip c test.limit alphamax tip ∧ Edge φ largest alphamax

/-- The first trial leads to a tip with all steps left, unless it ends the search. -/
def Expansion.Begins (largest : Exact G) (c : Cache (Exact G)) (test : WolfeTest (Exact G)) :
    Expansion (Exact G) → Prop
  | .ended t => t = 0.0 ∨ Settled c test t
  | .reached tip alphamax => Tip c test.limit alphamax tip ∧ alphamax = largest

theorem Ahead.max_le_self {cold t : Exact G} (h : Ahead cold alphamax t) : alphamax ≤ alphamax := by
  obtain ⟨⟨a, -, rfl⟩, -, hle⟩ := h
  cases alphamax with
  | num m => exact Exact.num_le.mpr le_rfl
  | top => trivial
  | bot | nan => exact hle.elim

theorem Tip.exists_previous (h : Tip c limit alphamax tip) :
    ∃ s, c.get? (tip.index - 1) = some s ∧ LowEnd c limit ⟨s, tip.index - 1⟩ ∧
      s.step ≤ tip.step ∧ tip.index ≠ 0 := by
  obtain ⟨⟨s, i⟩, hlow, hindex, hlt⟩ := h.previous
  obtain rfl : i = tip.index - 1 := Nat.eq_sub_of_add_eq hindex
  refine ⟨s, hlow.entry, hlow, ?_, by omega⟩
  obtain ⟨a, -, ha⟩ := hlow.step
  obtain ⟨b, -, hb⟩ := h.step
  rw [ha, hb, Exact.num_lt] at hlt
  rw [ha, hb, Exact.num_le]
  exact hlt.le

theorem Tip.step_pos (h : Tip c limit alphamax tip) : .num 0 < tip.step := by
  obtain ⟨prev, hprev, -, hlt⟩ := h.previous
  obtain ⟨a, ha, haeq⟩ := hprev.step
  obtain ⟨b, -, hbeq⟩ := h.step
  rw [haeq, hbeq, Exact.num_lt] at hlt
  rw [hbeq, Exact.num_lt]
  exact ha.trans_lt hlt

/-- A point cached ahead of the last low end is a tip. -/
theorem LowEnd.tip_of_ahead {low : Point (Exact G)} {s : Sample (Exact G)}
    (hlow : LowEnd c limit low) (hlast : c.size = low.index + 1) (hkept : Kept c c' s tip)
    (h : Ahead low.step alphamax s.step) : Tip c' limit alphamax tip := by
  obtain ⟨hgrows, htip, rfl, hindex, hsize⟩ := hkept
  exact ⟨htip, by omega, ⟨low, hlow.mono hgrows, by omega, h.lt⟩, h.le_max⟩

theorem atEdge_of_beq {cold : Exact G} {s : Sample (Exact G)}
    (hs : Ahead cold alphamax s.step ∧ Edge φ largest alphamax ∧ φ.Samples s)
    (hfinite : ¬(!finite s) = true)
    (hreached : (decide (s.slope < 0.0) && s.step == alphamax) = true) :
    AtEdge φ largest s.step := by
  rw [Bool.and_eq_true] at hreached
  have hstep := Exact.eq_of_beq hreached.2
  rw [Bool.not_eq_true', Bool.not_eq_false] at hfinite
  exact ⟨hs.1.step, hstep ▸ hs.2.1, s, hs.2.2, rfl, hfinite⟩

theorem Cached.value_le {pt : Point (Exact G)} (h : Cached c pt) (hlimit : ∃ l, limit = .num l)
    (hvalue : ¬limit < pt.value) : pt.value ≤ limit := by
  obtain ⟨l, rfl⟩ := hlimit
  obtain ⟨v, hv⟩ := h.value
  rw [hv] at hvalue ⊢
  exact not_lt.mp hvalue

variable [IsStrictOrderedRing K] {p : HagerZhang (Exact G)}

theorem Tip.lowEnd (h : Tip c limit alphamax tip) (hlimit : ∃ l, limit = .num l)
    (hslope : ¬0.0 ≤ tip.slope) (hvalue : ¬limit < tip.value) : LowEnd c limit tip :=
  h.toCached.lowEnd hslope (h.toCached.value_le hlimit hvalue)

/-! ## Steps of the search -/

theorem Ahead.reduced (hp : p.Proper) {t : Exact G} (h : Ahead (.num 0) alphamax t) :
    Ahead (.num 0) alphamax (t * p.psi3) := by
  obtain ⟨x, hx0, hx1, hx⟩ := hp.psi3
  obtain ⟨⟨a, ha0, rfl⟩, hlt, hle⟩ := h
  rw [Exact.num_lt] at hlt
  rw [hx, Exact.num_mul]
  refine ⟨⟨a * x, by positivity, rfl⟩, Exact.num_lt.mpr (mul_pos hlt hx0), ?_⟩
  have hax : a * x ≤ a := mul_le_of_le_one_right ha0 hx1.le
  cases alphamax with
  | num m => exact hax.trans hle
  | top => trivial
  | bot | nan => exact hle.elim

theorem Ahead.half {cold t : Exact G} (hcold : IsStep cold) (h : Ahead cold alphamax t) :
    Ahead cold t ((cold + t) / 2.0) := by
  obtain ⟨a, ha, rfl⟩ := hcold
  obtain ⟨⟨b, hb, rfl⟩, hlt, -⟩ := h
  rw [Exact.num_lt] at hlt
  rw [Exact.num_add, Exact.two_eq, Exact.num_div two_ne_zero]
  refine ⟨⟨(a + b) / 2, by positivity, rfl⟩, Exact.num_lt.mpr ?_, Exact.num_le.mpr ?_⟩
  · linarith
  · linarith

theorem Ahead.half_lt {cold t : Exact G} (hcold : IsStep cold) (h : Ahead cold alphamax t) :
    (cold + t) / 2.0 < t := by
  obtain ⟨a, ha, rfl⟩ := hcold
  obtain ⟨⟨b, hb, rfl⟩, hlt, -⟩ := h
  rw [Exact.num_lt] at hlt
  rw [Exact.num_add, Exact.two_eq, Exact.num_div two_ne_zero, Exact.num_lt]
  linarith

theorem ahead_of_admissible {t : Exact G}
    (h : 0.0 < t ∧ Scalar.isFinite t = true ∧ t ≤ alphamax) : Ahead (.num 0) alphamax t := by
  obtain ⟨hpos, hfinite, hle⟩ := h
  obtain ⟨a, rfl⟩ := Exact.isFinite_iff.mp hfinite
  rw [Exact.zero_eq] at hpos
  exact ⟨⟨a, (Exact.num_lt.mp hpos).le, rfl⟩, hpos, hle⟩

/-- An expanded step is the full one, or lies half of the way to a largest step that the full one
exceeds. -/
theorem eq_of_expandedStep {a r : K} {t : Exact G} (hr : 1 < r) (hrho : p.rho = .num r)
    (hpos : 0 < a) (hmax : .num a ≤ alphamax) (ht : expandedStep p alphamax (.num a) = some t) :
    ∃ c, t = .num c ∧ a < c ∧
      (c = a * r ∧ .num c ≤ alphamax ∨ ∃ m, alphamax = .num m ∧ c < m ∧ m < a * r) := by
  have har : a < a * r := lt_mul_of_one_lt_right hpos hr
  rw [expandedStep, hrho, Exact.num_mul, Exact.two_eq] at ht
  cases alphamax with
  | num m =>
    rw [Exact.num_le] at hmax
    simp only [Exact.num_lt, Exact.num_add, Exact.num_div (two_ne_zero' K), Exact.num_beq] at ht
    split_ifs at ht with hexceeds hclose
    · -- half of the way to the largest step, which is not where the tip is
      cases ht
      have hne : (m + a) / 2 ≠ a := by
        intro h
        simp [h] at hclose
      have hlt : a < m := hmax.lt_of_ne fun h ↦ hne (by rw [← h]; ring)
      exact ⟨(m + a) / 2, rfl, by linarith, Or.inr ⟨m, rfl, by linarith, hexceeds⟩⟩
    · -- the full step, which is at most the largest one
      cases ht
      exact ⟨a * r, rfl, har, Or.inl ⟨rfl, Exact.num_le.mpr (not_lt.mp hexceeds)⟩⟩
  | top =>
    cases ht
    exact ⟨a * r, rfl, har, Or.inl ⟨rfl, trivial⟩⟩
  | bot | nan => exact hmax.elim

theorem ahead_expandedStep (hp : p.Proper) {cold t : Exact G} (hcold : IsStep cold)
    (hpos : .num 0 < cold) (hmax : cold ≤ alphamax) (ht : expandedStep p alphamax cold = some t) :
    Ahead cold alphamax t := by
  obtain ⟨r, hr, hrho⟩ := hp.rho
  obtain ⟨a, ha, rfl⟩ := hcold
  rw [Exact.num_lt] at hpos
  obtain ⟨c, rfl, hac, hcases⟩ := eq_of_expandedStep hr hrho hpos hmax ht
  refine ⟨⟨c, by linarith, rfl⟩, Exact.num_lt.mpr hac, ?_⟩
  rcases hcases with ⟨-, hle⟩ | ⟨m, rfl, hlt, -⟩
  · exact hle
  · exact Exact.num_le.mpr hlt.le

/-! ## The start of the ray -/

section Start

variable {v d : K}

theorem limit_eq_num (hp : p.Proper) :
    ∃ l, v ≤ l ∧ (p.test ⟨.num 0, .num v, .num d⟩).limit = .num l := by
  obtain ⟨e, he, heq⟩ := hp.epsilon
  refine ⟨v + e * |v|, ?_, ?_⟩
  · exact le_add_of_nonneg_right (mul_nonneg he (abs_nonneg v))
  · rw [test, heq, Exact.abs_num, Exact.num_mul, Exact.num_add]

theorem exists_limit (hp : p.Proper) : ∃ l, (p.test ⟨.num 0, .num v, .num d⟩).limit = .num l :=
  (limit_eq_num hp).imp fun _ ↦ And.right

theorem exists_nums_of_finite {start : Sample (Exact G)} (hfinite : finite start = true)
    (hstep : start.step = .num 0) (hslope : start.slope < 0.0) :
    ∃ v d, d < 0 ∧ start = ⟨.num 0, .num v, .num d⟩ := by
  obtain ⟨t, w, e⟩ := start
  obtain ⟨⟨v, rfl⟩, d, rfl⟩ := Exact.bothFinite_iff.mp hfinite
  obtain rfl : t = .num 0 := hstep
  rw [Exact.zero_eq, Exact.num_lt] at hslope
  exact ⟨v, d, hslope, rfl⟩

theorem lowEnd_start (hp : p.Proper) (hd : d < 0)
    (hc : c.samples = #[⟨.num 0, .num v, .num d⟩]) :
    LowEnd c (p.test ⟨.num 0, .num v, .num d⟩).limit ⟨⟨.num 0, .num v, .num d⟩, 0⟩ := by
  obtain ⟨l, hvl, hl⟩ := limit_eq_num (v := v) (d := d) hp
  refine ⟨⟨Cache.get?_zero_of_samples_eq hc, ⟨0, le_rfl, rfl⟩, ⟨v, rfl⟩, d, rfl⟩, ?_, ?_⟩
  · rw [hl]
    exact Exact.num_le.mpr hvl
  · rw [Exact.zero_eq]
    exact Exact.num_lt.mpr hd

theorem tip_of_start (hp : p.Proper) (hd : d < 0)
    (hc : c.samples = #[⟨.num 0, .num v, .num d⟩]) {s : Sample (Exact G)} (hkept : Kept c c' s tip)
    (h : Ahead (.num 0) alphamax s.step) :
    Tip c' (p.test ⟨.num 0, .num v, .num d⟩).limit alphamax tip := by
  -- the start is the low end before the tip
  refine (lowEnd_start hp hd hc).tip_of_ahead ?_ hkept h
  rw [Cache.size, hc]
  rfl

end Start

/-! ## Operations before there is a bracket -/

section Operations

variable (φ)

theorem reduce_spec (hp : p.Proper) (attempts : ℕ) (calls : Calls) {s : Sample (Exact G)}
    (hs : Ahead (.num 0) alphamax s.step) (b : Bench ω (Exact G)) :
    Meets (reduce p φ attempts calls s) b
      (fun r b' ↦ b'.cache.samples = b.cache.samples ∧ Ahead (.num 0) alphamax r.1.step)
      fun e _ ↦ NotRefused e := by
  -- nothing is cached on the way, so the cache of the start stays as it is
  induction attempts generalizing calls s b with
  | zero => exact ⟨rfl, hs⟩
  | succ attempts ih =>
    rw [reduce]
    split_ifs with hfinite
    · exact ⟨rfl, hs⟩
    · refine (Search.meets_countFailure b).bind ?_
      rintro - b₁ rfl
      refine (sampleAt_spec φ _ _).bind ?_
      rintro s' b₂ ⟨hcache, hstep, -⟩
      refine (ih _ (hstep ▸ hs.reduced hp) b₂).imp_ok ?_
      rintro r b₃ ⟨hsamples, hr⟩
      rw [hsamples, hcache]
      exact ⟨rfl, hr⟩

theorem retreat_spec {cold : Exact G} (hcold : IsStep cold) (attempts : ℕ) (calls : Calls)
    {s : Sample (Exact G)} (hs : Ahead cold alphamax s.step) (hedge : Edge φ largest alphamax)
    (hsamples : φ.Samples s) (b : Bench ω (Exact G)) :
    Meets (retreat φ cold attempts calls alphamax s) b
      (fun r b' ↦ b'.cache.samples = b.cache.samples ∧
        Ahead cold r.1.alphamax r.1.sample.step ∧ Edge φ largest r.1.alphamax ∧
        φ.Samples r.1.sample)
      fun e _ ↦ NotRefused e := by
  induction attempts generalizing calls alphamax s b with
  | zero => exact ⟨rfl, hs, hedge, hsamples⟩
  | succ attempts ih =>
    rw [retreat]
    split_ifs with hrefused
    · rw [Bool.and_eq_true, Bool.not_eq_true'] at hrefused
      refine (Search.meets_countFailure b).bind ?_
      rintro - b₁ rfl
      refine (sampleAt_spec φ _ _).bind ?_
      rintro s' b₂ ⟨hcache, hstep, hsample⟩
      -- the largest step is lowered to a step where the function was seen not to be finite
      have hlowered : Edge φ largest s.step := Or.inr ⟨s, hsamples, rfl, hrefused.1⟩
      refine (ih _ (hstep ▸ hs.half hcold) hlowered hsample b₂).imp_ok ?_
      rintro r b₃ ⟨hsame, hr⟩
      rw [hsame, hcache]
      exact ⟨rfl, hr⟩
    · exact ⟨rfl, hs, hedge, hsamples⟩

omit [IsStrictOrderedRing K] in
/-- Where the point before the tip is a low end, it is the one that bracketing takes. -/
theorem lowEnd_spec {b : Bench ω (Exact G)} (h : Tip b.cache limit alphamax tip)
    {E : Fault (Exact G) → Bench ω (Exact G) → Prop} :
    Meets (lowEnd limit tip.index) b
      (fun low b' ↦ b' = b ∧ LowEnd b.cache limit low ∧ low.step ≤ tip.step) E := by
  obtain ⟨prev, hentry, hlow, hle, hne⟩ := h.exists_previous
  obtain ⟨i, hindex⟩ := Nat.exists_eq_succ_of_ne_zero hne
  rw [hindex, Nat.succ_sub_one] at hentry hlow
  rw [hindex, lowEnd]
  refine Meets.bind ((Search.meets_cached i b).imp_error ?_) ?_
  · rintro e _ ⟨-, -, hnone⟩
    cases hnone.symm.trans hentry
  · rintro ⟨s, _⟩ _ ⟨rfl, hs, rfl⟩
    cases hs.symm.trans hentry
    rw [if_pos hlow.value_le]
    exact ⟨rfl, hlow, hle⟩

/-- Expanding from a tip that is a low end itself leads to a tip. -/
theorem expand_spec (hp : p.Proper) {b : Bench ω (Exact G)}
    (htip : Tip b.cache test.limit alphamax tip) (hlow : LowEnd b.cache test.limit tip)
    (hedge : Edge φ largest alphamax) :
    Meets (expand p φ alphamax tip) b (fun r b' ↦ r.1.Extends φ largest b'.cache test)
      fun e _ ↦ NotRefused e := by
  rw [expand]
  rcases hstep : expandedStep p alphamax tip.step with _ | c
  · -- no further step: the search ends at the tip, which is a low end
    exact Or.inl hlow.settled
  have hc := ahead_expandedStep hp htip.step htip.step_pos htip.le_max hstep
  refine (sampleAt_spec φ c b).bind ?_
  rintro s b₁ ⟨hcache, rfl, hs⟩
  refine (retreat_spec φ htip.step _ _ hc hedge hs b₁).bind ?_
  rintro ⟨⟨s', alphamax', attempts⟩, calls⟩ b₂ ⟨hsamples, hahead, hedge', hs'⟩
  rw [hcache] at hsamples
  have hlow' : LowEnd b₂.cache test.limit tip := hlow.mono (Cache.grows_of_samples_eq hsamples)
  dsimp only
  split_ifs with hrefused hreached
  · -- no finite sample ahead: the search ends at the tip as well
    exact Or.inl hlow'.settled
  · -- still downhill at the largest step, with a warning or without one
    exact (Search.meets_report _ b₂).bind fun _ _ _ ↦
      Or.inr (atEdge_of_beq ⟨hahead, hedge', hs'⟩ hrefused hreached)
  · exact Or.inr (atEdge_of_beq ⟨hahead, hedge', hs'⟩ hrefused hreached)
  · have hfinite : finite s' = true := by simpa using hrefused
    refine (keep_spec hfinite hahead.step b₂).bind ?_
    intro tip' b₃ hkept
    refine ⟨hlow'.tip_of_ahead ?_ hkept hahead, hedge'⟩
    rw [Cache.size, hsamples]
    exact htip.last

theorem bracket_spec (hp : p.Proper) (hgap : ∀ x, 0 ≤ x → 0 < G.spacing x)
    (hlimit : ∃ l, test.limit = .num l) (rounds : ℕ) (calls : Calls) {b : Bench ω (Exact G)}
    (htip : Tip b.cache test.limit alphamax tip) (hedge : Edge φ largest alphamax) :
    Meets (bracket p φ test.limit rounds calls alphamax tip) b
      (fun r b' ↦ r.1.Keeps φ largest b'.cache test) fun e _ ↦ NotRefused e := by
  induction rounds generalizing calls alphamax tip b with
  | zero => exact Search.meets_giveUp notRefused_notConverged
  | succ rounds ih =>
    rw [bracket]
    by_cases hslope : 0.0 ≤ tip.slope
    · -- uphill at the tip: it closes the bracket from above
      rw [if_pos hslope]
      refine (lowEnd_spec htip).bind ?_
      rintro low _ ⟨rfl, hlow, hle⟩
      exact .of_nonneg hgap hlow htip.toCached hle hslope
    rw [if_neg hslope]
    by_cases hvalue : test.limit < tip.value
    · -- a value above the limit: the interval from the previous point to the tip is bisected
      rw [if_pos hvalue]
      obtain ⟨prev, hentry, hlow, hle, -⟩ := htip.exists_previous
      refine Meets.bind ((Search.meets_cached _ b).imp_error ?_) ?_
      · rintro e _ ⟨-, rfl, -⟩
        exact notRefused_breakdown _
      rintro ⟨s, i⟩ _ ⟨rfl, hs, rfl⟩
      cases hs.symm.trans hentry
      refine (bisect_spec hgap φ test.limit _ _ hlow htip.toCached hle).bind ?_
      exact fun _ _ hr ↦ hr
    · -- neither of both: the tip is a low end itself, and bracketing goes on from there
      rw [if_neg hvalue]
      refine (expand_spec φ hp htip (htip.lowEnd hlimit hslope hvalue) hedge).bind ?_
      rintro ⟨t | ⟨tip', alphamax'⟩, more⟩ b' hr
      · exact Or.inr hr
      · exact ih _ hr.1 hr.2

/-- From a ray that leads downhill at its start, the first trial leads to a tip, unless it ends the
search. -/
theorem firstTrial_spec (hp : p.Proper) {v d : K} (hd : d < 0) (trial : Exact G)
    (mayAccept : Bool) {b : Bench ω (Exact G)}
    (hstart : b.cache.samples = #[⟨.num 0, .num v, .num d⟩]) :
    Meets (firstTrial p φ ⟨.num 0, .num v, .num d⟩ trial mayAccept) b
      (fun r b' ↦ r.1.Begins p.alphamax b'.cache (p.test ⟨.num 0, .num v, .num d⟩))
      fun e _ ↦ NotRefused e := by
  have hfinite : finite (⟨.num 0, .num v, .num d⟩ : Sample (Exact G)) = true := rfl
  rw [firstTrial, if_pos hfinite]
  by_cases htrial : 0.0 < trial ∧ Scalar.isFinite trial = true ∧ trial ≤ p.alphamax
  swap
  · rw [if_neg htrial]
    rintro _ _ ⟨⟩
  rw [if_pos htrial]
  refine (sampleAt_spec φ trial b).bind ?_
  rintro first b₁ ⟨hcache, hfirst, -⟩
  have hahead : Ahead (.num 0) p.alphamax first.step := hfirst ▸ ahead_of_admissible htrial
  refine (reduce_spec φ hp _ _ hahead b₁).bind ?_
  rintro ⟨s, calls⟩ b₂ ⟨hsamples, hs⟩
  rw [hcache, hstart] at hsamples
  dsimp only at hs ⊢
  by_cases hfinite : finite s = true
  swap
  · -- no finite sample: the search ends at the zero step
    rw [if_neg hfinite]
    exact (Search.meets_report _ b₂).bind fun _ _ _ ↦ Or.inl rfl
  rw [if_pos hfinite]
  refine (keep_spec hfinite hs.step b₂).bind ?_
  intro tip b₃ hkept
  have htip := tip_of_start hp hd hsamples hkept hs
  split_ifs
  · refine (lift_spec _ b₃).bind ?_
    rintro accepted _ ⟨haccepts, rfl⟩
    split_ifs with htrue
    · -- a first sample that passes the test ends the search
      refine (Search.meets_report _ _).bind ?_
      rintro - _ rfl
      refine Or.inr ⟨tip, hkept.cached, congrArg Sample.step hkept.sample, Or.inr ?_⟩
      rw [hkept.sample]
      exact haccepts.trans (congrArg _ htrue)
    · exact ⟨htip, rfl⟩
  · exact ⟨htip, rfl⟩

/-- From a ray that leads downhill at its start, the first trial and bracketing lead to a bracket,
unless they end the search. -/
theorem approach_spec (hp : p.Proper) (hgap : ∀ x, 0 ≤ x → 0 < G.spacing x) {v d : K} (hd : d < 0)
    (trial : Exact G) (mayAccept : Bool) {b : Bench ω (Exact G)}
    (hstart : b.cache.samples = #[⟨.num 0, .num v, .num d⟩]) :
    Meets (approach p φ ⟨.num 0, .num v, .num d⟩ trial mayAccept) b
      (fun r b' ↦ r.1.Keeps φ p.alphamax b'.cache (p.test ⟨.num 0, .num v, .num d⟩))
      fun e _ ↦ NotRefused e := by
  rw [approach_eq]
  refine (firstTrial_spec φ hp hd trial mayAccept hstart).bind ?_
  rintro ⟨t | ⟨tip, alphamax⟩, calls⟩ b' h
  · exact h.imp_right Or.inl
  · obtain ⟨htip, rfl⟩ := h
    exact bracket_spec φ hp hgap (exists_limit hp) _ _ htip (Or.inl rfl)

end Operations

/-! ## Opposite slopes -/

section Search

variable {φ : LineFunction ω (Exact G)} {v d : K} {trial : Exact G} {mayAccept : Bool}
  {b₀ b : Bench ω (Exact G)} {rounds : ℕ} {low high : Point (Exact G)}

theorem AtTip.spec (hp : p.Proper) (hd : d < 0)
    (hstart : b₀.cache.samples = #[⟨.num 0, .num v, .num d⟩])
    (h : AtTip p φ ⟨.num 0, .num v, .num d⟩ trial mayAccept b₀ rounds alphamax tip b) :
    Tip b.cache (p.test ⟨.num 0, .num v, .num d⟩).limit alphamax tip ∧
      Edge φ p.alphamax alphamax := by
  induction h with
  | first htrial =>
    obtain ⟨htip, hmax⟩ := (firstTrial_spec φ hp hd trial mayAccept hstart).of_run_ok htrial
    exact ⟨htip, Or.inl hmax⟩
  | next _ hslope hvalue hexpand ih =>
    obtain ⟨htip, hedge⟩ := ih
    have hlow := htip.lowEnd (exists_limit hp) hslope hvalue
    exact (expand_spec φ hp htip hlow hedge).of_run_ok hexpand

theorem AtRound.bracket (hp : p.Proper) (hgap : ∀ x, 0 ≤ x → 0 < G.spacing x) (hd : d < 0)
    (hstart : b₀.cache.samples = #[⟨.num 0, .num v, .num d⟩])
    (h : AtRound p φ ⟨.num 0, .num v, .num d⟩ trial mayAccept b₀ rounds low high b) :
    Bracket b.cache (p.test ⟨.num 0, .num v, .num d⟩).limit low high := by
  induction h with
  | first happroach =>
    exact (approach_spec φ hp hgap hd trial mayAccept hstart).of_run_ok happroach
  | next _ hround ih => exact (round_spec hgap φ p ih).of_run_ok hround

/-- A search that fails does not fail because the slopes at the ends are not opposite. -/
theorem notRefused_of_run (hp : p.Proper) (hgap : ∀ x, 0 ≤ x → 0 < G.spacing x) (hd : d < 0)
    (hstart : b₀.cache.samples = #[⟨.num 0, .num v, .num d⟩]) {e : Fault (Exact G)}
    (hrun : (step p φ trial mayAccept).run b₀ = (.error e, b)) : NotRefused e := by
  rw [step, run_bind_ok (Search.run_cached (Cache.get?_zero_of_samples_eq hstart))] at hrun
  have happroach := approach_spec φ hp hgap hd trial mayAccept hstart
  rcases run_bind_eq_error hrun with hfails | ⟨⟨t | ⟨low, high, rounds⟩, calls⟩, b', hresult, hrest⟩
  -- the approach fails, ends the search, or hands a bracket to the rounds
  · exact happroach.of_run_error hfails
  · cases hrest
  · exact (narrow_spec hgap φ p rounds calls (happroach.of_run_ok hresult)).of_run_error hrest

/-- The Hager–Zhang search keeps a bracket. From a ray that leads downhill at its start, along any
function and from any trial step:

* at the top of every round the search has a `Bracket`;
* it returns the low end of a collapsed bracket at once;
* a double secant step is handed two cached points, the first one before the second, below the
  limit and of negative slope, the second one of nonnegative slope;
* it never gives up with the verdict that the slopes at the ends are not opposite. -/
theorem keeps_opposite_slopes (hp : p.Proper) (hgap : ∀ x, 0 ≤ x → 0 < G.spacing x) (hd : d < 0)
    (hstart : b₀.cache.samples = #[⟨.num 0, .num v, .num d⟩]) (φ : LineFunction ω (Exact G))
    (trial : Exact G) (mayAccept : Bool) :
    let start : Sample (Exact G) := ⟨.num 0, .num v, .num d⟩
    let limit := (p.test start).limit
    (∀ rounds low high b, AtRound p φ start trial mayAccept b₀ rounds low high b →
      Bracket b.cache limit low high) ∧
    (∀ rounds low high b, AtRound p φ start trial mayAccept b₀ (rounds + 1) low high b →
      high.step - low.step ≤ Scalar.spacing high.step →
      ∃ calls, (step p φ trial mayAccept).run b₀ = (.ok ⟨low.step, calls⟩, b)) ∧
    (∀ low high b, AtDoubleSecant p φ start trial mayAccept b₀ low high b →
      b.cache.get? low.index = some low.toSample ∧ b.cache.get? high.index = some high.toSample ∧
      low.step < high.step ∧ low.value ≤ limit ∧ low.slope < 0.0 ∧ 0.0 ≤ high.slope) ∧
    ∀ l h b, (step p φ trial mayAccept).run b₀ ≠ (.error (.search (.notDescent l h)), b) := by
  have hzero := Cache.get?_zero_of_samples_eq hstart
  refine ⟨fun _ _ _ _ h ↦ h.bracket hp hgap hd hstart,
    fun _ _ _ _ h ↦ h.run_of_collapsed hzero, ?_, ?_⟩
  · rintro low high b ⟨⟨rounds, hround⟩, hwidth⟩
    have hbracket := hround.bracket hp hgap hd hstart
    obtain ⟨hlt, hslope⟩ := hbracket.encloses.resolve_right hwidth
    exact ⟨hbracket.lowEnd.entry, hbracket.highEnd.entry, hlt, hbracket.lowEnd.value_le,
      hbracket.lowEnd.slope_neg, hslope⟩
  · intro l h b hrun
    exact notRefused_of_run hp hgap hd hstart hrun l h rfl

end Search

/-- The parabola `(t - 1)²`, with its slope. -/
def parabola : LineFunction Unit (Exact Grid.rational) where
  value t := return (t - 1.0) * (t - 1.0)
  both t := return ((t - 1.0) * (t - 1.0), 2.0 * (t - 1.0))

/-- Along the parabola, the trial step `5` leads to a double secant step on the bracket from `0` to
`5`. -/
theorem keeps_opposite_slopes_parabola :
    let start : Sample (Exact Grid.rational) := ⟨.num 0, .num 1, .num (-2)⟩
    let b₀ : Bench Unit (Exact Grid.rational) := { world := (), cache := .seeded start }
    ∃ low high b, AtDoubleSecant default parabola start (.num 5) false b₀ low high b ∧
      low.step = .num 0 ∧ high.step = .num 5 ∧ low.slope < 0.0 ∧ 0.0 ≤ high.slope := by
  intro start b₀
  have hreturns : passes ((approach default parabola start (.num 5) false).run b₀) (fun r _ ↦
      match r.1 with
      | .bracket low high rounds => rounds = 47 + 1 ∧ low.step = .num 0 ∧ high.step = .num 5
      | .ended _ => false) = true := by
    decide +kernel
  obtain ⟨⟨_ | ⟨low, high, rounds⟩, calls⟩, b, happroach, htest⟩ := exists_ok_of_passes hreturns
  · cases htest
  obtain ⟨rfl, hlow, hhigh⟩ := of_decide_eq_true htest
  have hsecant : AtDoubleSecant default parabola start (.num 5) false b₀ low high b := by
    refine ⟨⟨47, .first happroach⟩, ?_⟩
    rw [hlow, hhigh]
    decide +kernel
  have hkeeps := keeps_opposite_slopes default_proper (fun x _ ↦ Grid.rational_spacing_pos x)
    (by norm_num : (-2 : ℚ) < 0) (rfl : b₀.cache.samples = #[start]) parabola (.num 5) false
  obtain ⟨-, -, -, -, hslopes⟩ := hkeeps.2.2.1 low high b hsecant
  exact ⟨low, high, b, hsecant, hlow, hhigh, hslopes⟩

end NonlinearCG.HagerZhang
