import Mathlib
import NonlinearCG.Proofs.LineSearch.Contract

/-!
# Why a search stops

Along a function whose values and slopes are numbers, and without a largest step, a Hager–Zhang
search returns a step for one of three reasons: the step was accepted, the bracket was no wider than
the gap at its high end, or the bracket was flat before and after a double secant step.

The last reason is weaker than its name. The flatness test only asks that the value at the high end
be at most the neighbour of the value at the low end. A high end that lies far below the low end
passes it as well: the slope there is not negative, but its value may be any, since the function may
have come down to it and turned in between. The search then stops between two points that are far
from flat.

`Ends` lists the ways in which a round ends the search, and `Stops` the reasons in terms of the
function.
-/

namespace NonlinearCG.HagerZhang

/-! ## The end of a round -/

section Rounds

variable {ω α A : Type}

theorem eq_ok_of_run_lift {result : Except Breakdown A} {a : A} {b b' : Bench ω α}
    (h : (Search.lift result : Search ω α A).run b = (.ok a, b')) : result = .ok a := by
  cases result with
  | ok a' =>
    cases h
    rfl
  | error cause => cases h

variable [Scalar α] {p : HagerZhang α} {φ : LineFunction ω α} {test : WolfeTest α}
  {low high : Point α} {b b' : Bench ω α} {t : α}

/-- How a round from a bracket on a bench ends the search: with a step, on another bench. -/
inductive Ends (p : HagerZhang α) (φ : LineFunction ω α) (test : WolfeTest α) (low high : Point α)
    (b : Bench ω α) : α → Bench ω α → Prop
  | collapsed : high.step - low.step ≤ Scalar.spacing high.step →
      Ends p φ test low high b low.step b
  | accepted {pt : Point α} {calls : Calls} {b' : Bench ω α} :
      ¬high.step - low.step ≤ Scalar.spacing high.step →
      (doubleSecant φ test low high).run b = (.ok (.accepted pt, calls), b') →
      Ends p φ test low high b pt.step b'
  | flat {low' high' : Point α} {calls : Calls} {b' : Bench ω α} :
      ¬high.step - low.step ≤ Scalar.spacing high.step →
      (doubleSecant φ test low high).run b = (.ok (.bracket low' high', calls), b') →
      high'.step - low'.step < p.gamma * (high.step - low.step) →
      flat low high = true → flat low' high' = true →
      Ends p φ test low high b low'.step b'

theorem ends_of_run_round {calls : Calls}
    (h : (round p φ test low high).run b = (.ok (.ended t, calls), b')) :
    Ends p φ test low high b t b' := by
  rw [round] at h
  split_ifs at h with hwidth
  · cases h
    exact .collapsed hwidth
  obtain ⟨⟨pt | ⟨low', high'⟩, calls'⟩, b₁, hsecant, hrest⟩ := run_bind_eq_ok h
  · cases hrest
    exact .accepted hwidth hsecant
  · dsimp only at hrest
    split_ifs at hrest with hshrunk hflat
    · cases hrest
      rw [Bool.and_eq_true] at hflat
      exact .flat hwidth hsecant hshrunk hflat.1 hflat.2
    · cases hrest
    · -- a round that bisects goes on
      obtain ⟨mid, b₂, -, hrest⟩ := run_bind_eq_ok hrest
      obtain ⟨r, b₃, -, hrest⟩ := run_bind_eq_ok hrest
      cases hrest

theorem Ends.run_round (h : Ends p φ test low high b t b') :
    ∃ calls, (round p φ test low high).run b = (.ok (.ended t, calls), b') := by
  cases h with
  | collapsed hwidth =>
    rw [round, if_pos hwidth]
    exact ⟨_, rfl⟩
  | accepted hwidth hsecant =>
    rw [round, if_neg hwidth, run_bind_ok hsecant]
    exact ⟨_, rfl⟩
  | flat hwidth hsecant hshrunk hold hnew =>
    rw [round, if_neg hwidth, run_bind_ok hsecant]
    simp only [hshrunk, hold, hnew, Bool.and_self, if_true]
    exact ⟨_, rfl⟩

variable {start : Sample α} {trial : α} {mayAccept : Bool} {b₀ : Bench ω α} {rounds : ℕ}

theorem AtRound.run_of_ends (hstart : b₀.cache.get? 0 = some start)
    (h : AtRound p φ start trial mayAccept b₀ (rounds + 1) low high b)
    (hends : Ends p φ (p.test start) low high b t b') :
    ∃ calls, (step p φ trial mayAccept).run b₀ = (.ok ⟨t, calls⟩, b') := by
  obtain ⟨calls, hresume⟩ := h.resume hstart
  obtain ⟨more, hround⟩ := hends.run_round
  rw [hresume, narrow, run_bind_ok hround]
  exact ⟨_, rfl⟩

/-- Narrowing that returns has come to a round that ended the search. -/
theorem AtRound.exists_ends {calls : Calls} {r : Step α}
    (h : AtRound p φ start trial mayAccept b₀ rounds low high b)
    (hrun : (narrow p φ (p.test start) rounds calls low high).run b = (.ok r, b')) :
    ∃ rounds low high b, AtRound p φ start trial mayAccept b₀ (rounds + 1) low high b ∧
      Ends p φ (p.test start) low high b r.alpha b' := by
  induction rounds generalizing calls low high b with
  | zero => cases hrun
  | succ rounds ih =>
    obtain ⟨⟨t | ⟨low', high'⟩, more⟩, b₁, hround, hrest⟩ := run_bind_eq_ok hrun
    · cases hrest
      exact ⟨rounds, low, high, b, h, ends_of_run_round hround⟩
    · exact ih (h.next hround) hrest

end Rounds

variable {ω K : Type} [Field K] [LinearOrder K] [IsStrictOrderedRing K] {G : Grid K}
  {p : HagerZhang (Exact G)} {φ : LineFunction ω (Exact G)} {V D : K → K}
  {trial t : Exact G} {mayAccept : Bool} {b₀ b b' : Bench ω (Exact G)}

/-! ## Bracketing without a largest step -/

section Unlimited

variable (hφ : φ.Everywhere V D)

include hφ

omit [Field K] [LinearOrder K] [IsStrictOrderedRing K] in
theorem run_sampleAt_eq_ok {a : K} {s : Sample (Exact G)}
    (h : (Search.sampleAt φ (.num a)).run b = (.ok s, b')) : s = sampled V D a := by
  obtain ⟨r, b₁, hevaluate, hrest⟩ := run_bind_eq_ok h
  obtain ⟨w, hboth⟩ := hφ a b.world
  rw [Search.run_evaluate hboth] at hevaluate
  cases hevaluate
  cases hrest
  rfl

theorem reached_of_run_expand (hp : p.Proper) {tip : Point (Exact G)} {a : K}
    (htip : tip.step = .num a) {r : Expansion (Exact G)} {calls : Calls}
    (h : (expand p φ Scalar.infinity tip).run b = (.ok (r, calls), b')) :
    ∃ tip' a', r = .reached tip' Scalar.infinity ∧ tip'.step = .num a' := by
  obtain ⟨x, -, hx⟩ := hp.rho
  have hstep : expandedStep p Scalar.infinity tip.step = some (.num (a * x)) := by
    rw [expandedStep, htip, hx, Exact.num_mul, if_neg Exact.not_infinity_lt]
  rw [expand, hstep] at h
  obtain ⟨s, b₁, hsample, hrest⟩ := run_bind_eq_ok h
  obtain rfl := run_sampleAt_eq_ok hφ hsample
  have hfinite : finite (sampled (G := G) V D (a * x)) = true := rfl
  rw [retreat_of_finite _ _ _ _ hfinite, pure_bind] at hrest
  -- no step is the infinite one
  have hedge : ((sampled (G := G) V D (a * x)).step == Scalar.infinity) = false := rfl
  simp only [hfinite, hedge, Bool.not_true, Bool.and_false, Bool.false_eq_true, if_false] at hrest
  obtain ⟨tip', b₂, hkeep, hrest⟩ := run_bind_eq_ok hrest
  cases hkeep
  cases hrest
  exact ⟨_, _, rfl, rfl⟩

theorem bracket_of_run_bracket (hp : p.Proper) (limit : Exact G) (rounds : ℕ) {calls : Calls}
    {tip : Point (Exact G)} {a : K} (htip : tip.step = .num a)
    {r : Bracketing (Exact G) × Calls}
    (h : (bracket p φ limit rounds calls Scalar.infinity tip).run b = (.ok r, b')) :
    ∃ low high rounds, r.1 = .bracket low high rounds := by
  induction rounds generalizing calls tip a b with
  | zero => cases h
  | succ rounds ih =>
    rw [bracket] at h
    split_ifs at h
    · obtain ⟨low, b₁, -, hrest⟩ := run_bind_eq_ok h
      cases hrest
      exact ⟨_, _, _, rfl⟩
    · obtain ⟨low, b₁, -, hrest⟩ := run_bind_eq_ok h
      obtain ⟨ends, b₂, -, hrest⟩ := run_bind_eq_ok hrest
      cases hrest
      exact ⟨_, _, _, rfl⟩
    · obtain ⟨⟨next, more⟩, b₁, hexpand, hrest⟩ := run_bind_eq_ok h
      obtain ⟨tip', a', rfl, htip'⟩ := reached_of_run_expand hφ hp htip hexpand
      exact ih htip' hrest

/-- Without a largest step, the first trial and bracketing end the search only with an accepted
step. -/
theorem accepted_of_run_approach (hp : p.Proper) (hmax : p.alphamax = Scalar.infinity)
    {calls : Calls}
    (h : (approach p φ (sampled V D 0) trial mayAccept).run b = (.ok (.ended t, calls), b')) :
    ∃ a, t = .num a ∧ (p.test (sampled V D 0)).accepts (sampled V D a) = .ok true := by
  rw [approach] at h
  simp only [Search.giveUp_bind] at h
  split_ifs at h with hstart hadmissible
  · obtain ⟨a, htrial⟩ := Exact.isFinite_iff.mp hadmissible.2.1
    subst htrial
    obtain ⟨first, b₁, hsample, hrest⟩ := run_bind_eq_ok h
    obtain rfl := run_sampleAt_eq_ok hφ hsample
    have hfinite : finite (sampled (G := G) V D a) = true := rfl
    rw [reduce_of_finite _ _ hfinite, pure_bind] at hrest
    simp only [hfinite, if_true, Bool.and_true, hmax] at hrest
    obtain ⟨tip, b₂, hkeep, hrest⟩ := run_bind_eq_ok hrest
    have htip : tip.step = .num a := by
      cases hkeep
      rfl
    split_ifs at hrest with hmay
    · obtain ⟨accepted, b₃, htest, hrest⟩ := run_bind_eq_ok hrest
      have haccepts := eq_ok_of_run_lift htest
      cases accepted with
      | true =>
        cases hrest
        exact ⟨a, rfl, haccepts⟩
      | false =>
        -- without a largest step, bracketing ends with a bracket
        obtain ⟨_, _, _, ⟨⟩⟩ := bracket_of_run_bracket hφ hp _ _ htip hrest
    · obtain ⟨_, _, _, ⟨⟩⟩ := bracket_of_run_bracket hφ hp _ _ htip hrest
  · cases h
  · cases h

end Unlimited

/-! ## The reasons -/

/-- Why the search from a trial step on a bench returns a step. -/
inductive Stops (p : HagerZhang (Exact G)) (φ : LineFunction ω (Exact G)) (V D : K → K)
    (trial : Exact G) (mayAccept : Bool) (b₀ : Bench ω (Exact G)) : K → Prop
  /-- The step passes the acceptance test. -/
  | accepted {a : K} : (p.test (sampled V D 0)).accepts (sampled V D a) = .ok true →
      Stops p φ V D trial mayAccept b₀ a
  /-- The step is the low end of a bracket that is no wider than the gap at its high end. -/
  | collapsed {a z : K} {rounds : ℕ} {low high : Point (Exact G)} {b : Bench ω (Exact G)} :
      AtRound p φ (sampled V D 0) trial mayAccept b₀ (rounds + 1) low high b →
      low.toSample = sampled V D a → high.toSample = sampled V D z → z - a ≤ G.spacing z →
      Stops p φ V D trial mayAccept b₀ a
  /-- The step is the low end of a bracket that a double secant step has shrunk. Before and after,
  the value at the high end was at most the neighbour of the value at the low end. -/
  | flat {a z a' z' : K} {low high low' high' : Point (Exact G)} {calls : Calls}
      {b b' : Bench ω (Exact G)} :
      AtDoubleSecant p φ (sampled V D 0) trial mayAccept b₀ low high b →
      (doubleSecant φ (p.test (sampled V D 0)) low high).run b =
        (.ok (.bracket low' high', calls), b') →
      low.toSample = sampled V D a → high.toSample = sampled V D z →
      low'.toSample = sampled V D a' → high'.toSample = sampled V D z' →
      .num (z' - a') < p.gamma * .num (z - a) → V z ≤ G.nextUp (V a) → V z' ≤ G.nextUp (V a') →
      Stops p φ V D trial mayAccept b₀ a'

section Samples

variable {low high : Point (Exact G)} {a z : K} (hlow : low.toSample = sampled V D a)
  (hhigh : high.toSample = sampled V D z)

include hlow hhigh

omit [IsStrictOrderedRing K] in
theorem flat_iff : flat low high = true ↔ V z ≤ G.nextUp (V a) := by
  rw [flat, congrArg Sample.value hlow, congrArg Sample.value hhigh]
  exact decide_eq_true_iff

omit [IsStrictOrderedRing K] in
theorem width_eq : high.step - low.step = .num (z - a) := by
  rw [congrArg Sample.step hlow, congrArg Sample.step hhigh]
  exact Exact.num_sub

end Samples

section Search

variable (hp : p.Proper) (hgap : ∀ x, 0 ≤ x → 0 < G.spacing x) (hφ : φ.Everywhere V D)
  (hD : D 0 < 0) (hstart : b₀.cache.samples = #[sampled V D 0])

include hp hgap hφ hD hstart

omit hφ in
theorem AtDoubleSecant.keeps {low high : Point (Exact G)} {r : Narrowing (Exact G)}
    {calls : Calls} (h : AtDoubleSecant p φ (sampled V D 0) trial mayAccept b₀ low high b)
    (hrun : (doubleSecant φ (p.test (sampled V D 0)) low high).run b = (.ok (r, calls), b')) :
    r.Keeps b'.cache (p.test (sampled V D 0)) ∧ Course φ b₀ b' := by
  obtain ⟨⟨rounds, hround⟩, hwidth⟩ := h
  have hbracket : Bracket b.cache (p.test (sampled V D 0)).limit low high :=
    hround.bracket hp hgap hD hstart
  have hslope := (hbracket.encloses.resolve_right hwidth).2
  constructor
  · exact (doubleSecant_spec hgap φ hbracket hslope).of_run_ok hrun
  · exact hround.course.trans ((keepsTo_doubleSecant _ low high).course_of_ok hrun).1

/-- A round that ends the search does so for one of the reasons. -/
theorem AtRound.stops {rounds : ℕ} {low high : Point (Exact G)}
    (h : AtRound p φ (sampled V D 0) trial mayAccept b₀ (rounds + 1) low high b)
    (hends : Ends p φ (p.test (sampled V D 0)) low high b t b') :
    ∃ a, t = .num a ∧ Stops p φ V D trial mayAccept b₀ a := by
  have hbracket : Bracket b.cache (p.test (sampled V D 0)).limit low high :=
    h.bracket hp hgap hD hstart
  obtain ⟨a, -, hlow⟩ := hbracket.lowEnd.exists_eq_sampled hφ hstart h.course
  obtain ⟨z, -, hhigh⟩ := hbracket.highEnd.exists_eq_sampled hφ hstart h.course
  cases hends with
  | collapsed hwidth =>
    refine ⟨a, congrArg Sample.step hlow, .collapsed h hlow hhigh ?_⟩
    rw [width_eq hlow hhigh, congrArg Sample.step hhigh] at hwidth
    exact hwidth
  | accepted hwidth hrun =>
    have hat : AtDoubleSecant p φ _ trial mayAccept b₀ low high b := ⟨⟨rounds, h⟩, hwidth⟩
    obtain ⟨⟨hpt, haccepts⟩, hcourse⟩ := hat.keeps hp hgap hD hstart hrun
    obtain ⟨x, -, hx⟩ := hpt.exists_eq_sampled hφ hstart hcourse
    rw [hx] at haccepts
    exact ⟨x, congrArg Sample.step hx, .accepted haccepts⟩
  | flat hwidth hrun hshrunk hold hnew =>
    have hat : AtDoubleSecant p φ _ trial mayAccept b₀ low high b := ⟨⟨rounds, h⟩, hwidth⟩
    obtain ⟨hkeeps, hcourse⟩ := hat.keeps hp hgap hD hstart hrun
    obtain ⟨a', -, hlow'⟩ := hkeeps.lowEnd.exists_eq_sampled hφ hstart hcourse
    obtain ⟨z', -, hhigh'⟩ := hkeeps.highEnd.exists_eq_sampled hφ hstart hcourse
    rw [width_eq hlow hhigh, width_eq hlow' hhigh'] at hshrunk
    have hvalues := (flat_iff hlow hhigh).mp hold
    have hvalues' := (flat_iff hlow' hhigh').mp hnew
    exact ⟨a', congrArg Sample.step hlow',
      .flat hat hrun hlow hhigh hlow' hhigh' hshrunk hvalues hvalues'⟩

/-- **Why a search stops.** Along a function whose values and slopes are numbers, from a start that
leads downhill, without a largest step and for any trial step:

* a search that returns has stopped for one of the three reasons;
* it stops as soon as a double secant step has shrunk the bracket and, before and after, the value
  at the high end is at most the neighbour of the value at the low end, however far below. -/
theorem stops_of_run (hmax : p.alphamax = Scalar.infinity) (trial : Exact G) (mayAccept : Bool) :
    (∀ r b, (step p φ trial mayAccept).run b₀ = (.ok r, b) →
      ∃ a, r.alpha = .num a ∧ Stops p φ V D trial mayAccept b₀ a) ∧
    ∀ low high low' high' calls b b',
      AtDoubleSecant p φ (sampled V D 0) trial mayAccept b₀ low high b →
      (doubleSecant φ (p.test (sampled V D 0)) low high).run b =
        (.ok (.bracket low' high', calls), b') →
      high'.step - low'.step < p.gamma * (high.step - low.step) →
      high.value ≤ Scalar.nextUp low.value → high'.value ≤ Scalar.nextUp low'.value →
      ∃ calls, (step p φ trial mayAccept).run b₀ = (.ok ⟨low'.step, calls⟩, b') := by
  have hzero := Cache.get?_zero_of_samples_eq hstart
  constructor
  · intro r b hrun
    rw [step, run_bind_ok (Search.run_cached hzero)] at hrun
    obtain ⟨⟨t | ⟨low, high, rounds⟩, calls⟩, b₁, happroach, hrest⟩ := run_bind_eq_ok hrun
    · cases hrest
      obtain ⟨a, rfl, haccepts⟩ := accepted_of_run_approach hφ hp hmax happroach
      exact ⟨a, rfl, .accepted haccepts⟩
    · have hfirst : AtRound p φ _ trial mayAccept b₀ rounds low high b₁ := .first happroach
      obtain ⟨rounds', low', high', b₂, hround, hends⟩ := hfirst.exists_ends hrest
      exact hround.stops hp hgap hφ hD hstart hends
  · rintro low high low' high' calls b b' ⟨⟨rounds, hround⟩, hwidth⟩ hrun hshrunk hold hnew
    exact hround.run_of_ends hzero
      (.flat hwidth hrun hshrunk (decide_eq_true hold) (decide_eq_true hnew))

end Search

def cubicValue (t : ℚ) : ℚ := t * (t * (4 * t - 5) - 1)

def cubicSlope (t : ℚ) : ℚ := t * (12 * t - 10) - 1

/-- A cubic, with its slope. It falls from `0` over `1 / 2` to its minimum short of `1`. -/
def cubic : LineFunction Unit (Exact Grid.even) where
  value t := return t * (t * (4.0 * t - 5.0) - 1.0)
  both t := return (t * (t * (4.0 * t - 5.0) - 1.0), t * (12.0 * t - 10.0) - 1.0)

theorem cubic_everywhere : cubic.Everywhere cubicValue cubicSlope := by
  intro t
  have hboth : cubic.both (.num t) = pure (.num (cubicValue t), .num (cubicSlope t)) := by
    simp only [cubic, cubicValue, cubicSlope, Exact.ofScientific_eq, Exact.num_mul, Exact.num_sub]
    norm_num
  rw [hboth]
  exact .pure _

/-- The search stops at `1 / 2`, which it does not accept, next to a high end that is lower by more
than a half. -/
theorem stops_of_run_cubic :
    let b₀ : Bench Unit (Exact Grid.even) :=
      { world := (), cache := .seeded (sampled cubicValue cubicSlope 0) }
    (∃ calls b,
      (step default cubic (.num 1) false).run b₀ = (.ok ⟨.num (1 / 2), calls⟩, b)) ∧
    Stops default cubic cubicValue cubicSlope (.num 1) false b₀ (1 / 2) ∧
    (default.test (sampled cubicValue cubicSlope 0)).accepts
      (sampled (G := Grid.even) cubicValue cubicSlope (1 / 2)) = .ok false ∧
    cubicValue 1 + 1 / 2 < cubicValue (1 / 2) := by
  intro b₀
  have hreturns : passes ((step default cubic (.num 1) false).run b₀)
      (fun r _ ↦ r.alpha = .num (1 / 2)) = true := by
    decide +kernel
  obtain ⟨⟨t, calls⟩, b, hrun, hstep⟩ := exists_ok_of_passes hreturns
  obtain rfl := of_decide_eq_true hstep
  obtain ⟨hreasons, -⟩ := stops_of_run default_proper (fun x _ ↦ Grid.even_spacing_pos x)
    cubic_everywhere (by norm_num [cubicSlope] : cubicSlope 0 < 0) (rfl : b₀.cache.samples = _) rfl
    (.num 1) false
  refine ⟨⟨calls, b, hrun⟩, ?_, ?_, by norm_num [cubicValue]⟩
  · obtain ⟨a, ha, hstops⟩ := hreasons _ b hrun
    rwa [Exact.num_inj.mp ha]
  · have hrejected : ((default.test (sampled cubicValue cubicSlope 0)).accepts
        (sampled (G := Grid.even) cubicValue cubicSlope (1 / 2))).toOption.map id = some false := by
      decide +kernel
    obtain ⟨_, haccepts, rfl⟩ := exists_ok_of_map_toOption hrejected
    exact haccepts

end NonlinearCG.HagerZhang
