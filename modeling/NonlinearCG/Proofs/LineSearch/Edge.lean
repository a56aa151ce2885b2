import Mathlib
import NonlinearCG.Proofs.LineSearch.Evidence
import NonlinearCG.Proofs.LineSearch.Nesting
import NonlinearCG.Proofs.LineSearch.Settle

/-!
# The edge of the admissible steps

A search judges a step before it returns it, with one exception. Where an expansion leads to the
largest step and the function still falls there, the step ends the search for its slope alone. A
point that is kept would have had its value compared with the limit at the top of the next round,
and the interval from the tip would have been bisected. So the function may have risen over a peak
beyond the tip, and the search returns the largest step although it is far above its start.

## When this happens

The full expansion has to meet the largest step exactly. If it exceeds that step, half of the way is
tried, which stays short of it (`mul_rho_of_expandedStep`); and when the search comes back from a
step at which the function is not finite, the step that it comes to lies before the largest one that
is then left (`retreat_stays`). `EdgeTip` names the tips from which the edge is met. They are the
only ones from which a search can return a step above the limit, and if the function is finite and
falls at the edge, the search does return it.
-/

namespace NonlinearCG.HagerZhang

variable {ω K : Type} [Field K] [LinearOrder K] {G : Grid K} {φ : LineFunction ω (Exact G)}
  {largest alphamax cold t : Exact G} {tip : Point (Exact G)} {p : HagerZhang (Exact G)}

/-! ## Expansions -/

/-- The first trial keeps below the largest step. -/
def Expansion.AtMost (largest : Exact G) : Expansion (Exact G) → Prop
  | .ended t => t ≤ largest
  | .reached _ alphamax => alphamax ≤ largest

/-- An expansion that ends the search ends it at the tip, or at the largest step that is left, if
the full expansion leads there and the function still falls. -/
def Expansion.Stays (φ : LineFunction ω (Exact G)) (rho largest alphamax cold : Exact G) :
    Expansion (Exact G) → Prop
  | .ended t => t = cold ∨ t = alphamax ∧ cold * rho = alphamax ∧
      ∃ s, φ.Samples s ∧ s.step = t ∧ finite s = true ∧ s.slope < 0.0
  | .reached _ alphamax' => alphamax' ≤ largest

section Expansion

variable [IsStrictOrderedRing K]

theorem Ahead.half_ne (hcold : IsStep cold) (h : Ahead cold alphamax t) : (cold + t) / 2.0 ≠ t := by
  intro heq
  have hlt := h.half_lt hcold
  obtain ⟨b, -, rfl⟩ := h.step
  rw [heq, Exact.num_lt] at hlt
  exact lt_irrefl b hlt

/-- The way back from a step stays below the largest one. It comes to the step that is then the
largest one only if the search need not come back at all. -/
theorem retreat_stays (φ : LineFunction ω (Exact G)) (hcold : IsStep cold) (attempts : ℕ)
    (calls : Calls) {s : Sample (Exact G)} (hs : Ahead cold alphamax s.step)
    (hle : alphamax ≤ largest) (hsamples : φ.Samples s) (b : Bench ω (Exact G)) :
    Meets (retreat φ cold attempts calls alphamax s) b
      (fun r _ ↦ r.1.alphamax ≤ largest ∧ φ.Samples r.1.sample ∧
        (r.1.sample.step = s.step ∧ r.1.alphamax = alphamax ∨
          r.1.sample.step ≠ r.1.alphamax))
      fun _ _ ↦ True := by
  induction attempts generalizing calls alphamax s b with
  | zero => exact ⟨hle, hsamples, Or.inl ⟨rfl, rfl⟩⟩
  | succ attempts ih =>
    rw [retreat]
    split_ifs
    · refine (Search.meets_countFailure b).bind ?_
      rintro - _ rfl
      refine Meets.bind ((sampleAt_spec φ _ _).imp_error fun _ _ _ ↦ trivial) ?_
      rintro s' b' ⟨-, hstep, hs'⟩
      have hahead := hstep ▸ hs.half hcold
      refine (ih _ hahead (Exact.le_trans hs.le_max hle) hs' b').imp_ok ?_
      rintro r _ ⟨hmax, hsample, hcases⟩
      refine ⟨hmax, hsample, Or.inr ?_⟩
      rcases hcases with ⟨hlast, hedge⟩ | hne
      · -- the middle is tried, and the step before it is the largest one from then on
        rw [hlast, hedge, hstep]
        exact hs.half_ne hcold
      · exact hne
    · exact ⟨hle, hsamples, Or.inl ⟨rfl, rfl⟩⟩

theorem isStep_mul_rho (hp : p.Proper) (h : IsStep t) : IsStep (t * p.rho) := by
  obtain ⟨r, hr, hrho⟩ := hp.rho
  obtain ⟨a, ha, rfl⟩ := h
  exact ⟨a * r, by positivity, by rw [hrho, Exact.num_mul]⟩

theorem mul_rho_of_expandedStep (hp : p.Proper) (hcold : IsStep cold) (hpos : .num 0 < cold)
    (hmax : cold ≤ alphamax) (ht : expandedStep p alphamax cold = some alphamax) :
    cold * p.rho = alphamax := by
  obtain ⟨r, hr, hrho⟩ := hp.rho
  obtain ⟨a, -, rfl⟩ := hcold
  obtain ⟨c, rfl, -, ⟨rfl, -⟩ | ⟨m, hm, hlt, -⟩⟩ :=
    eq_of_expandedStep hr hrho (Exact.num_lt.mp hpos) hmax ht
  · rw [hrho, Exact.num_mul]
  · rw [Exact.num_inj] at hm
    exact absurd hm hlt.ne

theorem Expansion.Stays.of_reached (hp : p.Proper) (hcold : IsStep cold) (hpos : .num 0 < cold)
    (hmax : cold ≤ alphamax) {last : Exact G} {s s' : Sample (Exact G)}
    (hs : expandedStep p alphamax cold = some s.step) (hs' : φ.Samples s')
    (hcases : s'.step = s.step ∧ last = alphamax ∨ s'.step ≠ last)
    (hfinite : ¬(!finite s') = true)
    (hreached : (decide (s'.slope < 0.0) && s'.step == last) = true) :
    (Expansion.ended s'.step).Stays φ p.rho largest alphamax cold := by
  rw [Bool.not_eq_true', Bool.not_eq_false] at hfinite
  rw [Bool.and_eq_true, decide_eq_true_eq] at hreached
  have hlast := Exact.eq_of_beq hreached.2
  rcases hcases with ⟨hstep, rfl⟩ | hne
  · rw [← hstep, hlast] at hs
    have hfull := mul_rho_of_expandedStep hp hcold hpos hmax hs
    exact Or.inr ⟨hlast, hfull, s', hs', rfl, hfinite, hreached.1⟩
  · -- a step that was halved lies below the step that was not finite
    exact absurd hlast hne

theorem expand_stays (φ : LineFunction ω (Exact G)) (hp : p.Proper) (hcold : IsStep tip.step)
    (hpos : .num 0 < tip.step) (hmax : tip.step ≤ alphamax) (hle : alphamax ≤ largest)
    (b : Bench ω (Exact G)) :
    Meets (expand p φ alphamax tip) b
      (fun r _ ↦ r.1.Stays φ p.rho largest alphamax tip.step) fun _ _ ↦ True := by
  rw [expand]
  rcases hc : expandedStep p alphamax tip.step with _ | c
  · exact Or.inl rfl
  refine Meets.bind ((sampleAt_spec φ c b).imp_error fun _ _ _ ↦ trivial) ?_
  rintro s b₁ ⟨-, rfl, hs⟩
  have hahead := ahead_expandedStep hp hcold hpos hmax hc
  refine (retreat_stays φ hcold _ _ hahead hle hs b₁).bind ?_
  rintro ⟨⟨s', last, attempts⟩, calls⟩ b₂ ⟨hlast, hs', hcases⟩
  dsimp only at hs' hcases ⊢
  have hends : ¬(!finite s') = true → (decide (s'.slope < 0.0) && s'.step == last) = true →
      (Expansion.ended s'.step).Stays φ p.rho largest alphamax tip.step :=
    Expansion.Stays.of_reached hp hcold hpos hmax hc hs' hcases
  split_ifs with hfinite hreached
  · exact Or.inl rfl
  -- the search ends ahead of the tip, with a warning or without one
  · exact (Search.meets_report _ b₂).bind fun _ _ _ ↦ hends hfinite hreached
  · exact hends hfinite hreached
  · exact (Search.meets_keep s' b₂).bind fun _ _ _ ↦ hlast

end Expansion

/-! ## The end of a search -/

/-- A tip that leads on downhill, and from which the full expansion leads to the largest step. -/
structure EdgeTip {α : Type} [Scalar α] (p : HagerZhang α) (φ : LineFunction ω α)
    (start : Sample α) (trial : α) (mayAccept : Bool) (b₀ : Bench ω α) (tip : Point α)
    (b : Bench ω α) : Prop where
  atTip : ∃ rounds, AtTip p φ start trial mayAccept b₀ (rounds + 1) p.alphamax tip b
  slope : ¬0.0 ≤ tip.slope
  value : ¬(p.test start).limit < tip.value
  full : tip.step * p.rho = p.alphamax

section Search

variable [IsStrictOrderedRing K] (hp : p.Proper) {V D : Exact G → Exact G} {v d : K} (hd : d < 0)
  {trial : Exact G} {mayAccept : Bool} {b₀ b : Bench ω (Exact G)}
  (hstart : b₀.cache.samples = #[⟨.num 0, .num v, .num d⟩])

include hp

theorem firstTrial_atMost (φ : LineFunction ω (Exact G)) (start : Sample (Exact G))
    (trial : Exact G) (mayAccept : Bool) (b : Bench ω (Exact G)) :
    Meets (firstTrial p φ start trial mayAccept) b (fun r _ ↦ r.1.AtMost p.alphamax)
      fun _ _ ↦ True := by
  rw [firstTrial]
  simp only [Search.giveUp_bind]
  by_cases hfirst : finite start = true
  swap
  · rw [if_neg hfirst]
    trivial
  rw [if_pos hfirst]
  by_cases htrial : 0.0 < trial ∧ Scalar.isFinite trial = true ∧ trial ≤ p.alphamax
  swap
  · rw [if_neg htrial]
    trivial
  rw [if_pos htrial]
  refine Meets.bind ((sampleAt_spec φ trial b).imp_error fun _ _ _ ↦ trivial) ?_
  rintro first b₁ ⟨-, rfl, -⟩
  have hahead := ahead_of_admissible htrial
  refine Meets.bind ((reduce_spec φ hp _ _ hahead b₁).imp_error fun _ _ _ ↦ trivial) ?_
  rintro ⟨s, calls⟩ b₂ ⟨-, hs⟩
  replace hs : Ahead (.num 0) p.alphamax s.step := hs
  dsimp only
  split_ifs
  · refine (Search.meets_keep s b₂).bind fun tip b₃ _ ↦ ?_
    refine Meets.bind ((Search.meets_lift _ b₃).imp_error fun _ _ _ ↦ trivial) ?_
    rintro accepted b₄ -
    split_ifs
    · exact hs.le_max
    · exact hs.max_le_self
  · exact hs.max_le_self
  · -- the zero step
    refine (Search.meets_report _ b₂).bind fun _ _ _ ↦ ?_
    have hzero : (0.0 : Exact G) ≤ p.alphamax := by
      rw [Exact.zero_eq]
      exact Exact.le_trans (Exact.le_of_lt hs.lt) hs.le_max
    exact hzero

include hd hstart

theorem AtTip.alphamax_le {rounds : ℕ}
    (h : AtTip p φ ⟨.num 0, .num v, .num d⟩ trial mayAccept b₀ rounds alphamax tip b) :
    alphamax ≤ p.alphamax := by
  induction h with
  | first htrial => exact (firstTrial_atMost hp φ _ trial mayAccept _).of_run_ok htrial
  | next h _ _ hexpand ih =>
    have htip := (h.spec hp hd hstart).1
    exact (expand_stays φ hp htip.step htip.step_pos htip.le_max ih _).of_run_ok hexpand

theorem AtTip.high_le {rounds k : ℕ} {low high : Point (Exact G)} {b' : Bench ω (Exact G)}
    (h : AtTip p φ ⟨.num 0, .num v, .num d⟩ trial mayAccept b₀ (rounds + 1) alphamax tip b)
    (hleads : Leads p φ (p.test ⟨.num 0, .num v, .num d⟩).limit rounds alphamax tip b
      (.bracket low high k) b') : high.step ≤ tip.step := by
  have htip := (h.spec hp hd hstart).1
  cases hleads with
  | risen _ _ => exact htip.step.le_self
  | crested _ _ hcached hbisect =>
    -- bisection stays in the interval from the previous point to the tip
    exact (htip.within_bisected hcached hbisect).le_hi

theorem AtTip.exits (hφ : φ.Computes V D) {rounds : ℕ} {b' : Bench ω (Exact G)}
    (h : AtTip p φ ⟨.num 0, .num v, .num d⟩ trial mayAccept b₀ (rounds + 1) alphamax tip b')
    (hleads : Leads p φ (p.test ⟨.num 0, .num v, .num d⟩).limit rounds alphamax tip b'
      (.ended t) b) :
    t ≤ p.alphamax ∧ (Settled b.cache (p.test ⟨.num 0, .num v, .num d⟩) t ∨
      t = p.alphamax ∧ D t < 0.0 ∧
        EdgeTip p φ ⟨.num 0, .num v, .num d⟩ trial mayAccept b₀ tip b') := by
  obtain ⟨htip, hedge⟩ := h.spec hp hd hstart
  have hmax := h.alphamax_le hp hd hstart
  cases hleads with
  | ended hslope hvalue hexpand =>
    have hlow := htip.lowEnd (exists_limit hp) hslope hvalue
    have hsees := sees_expand φ.testifies_gives p alphamax htip.entry
    have hgrows := (hsees.extends hexpand).grows
    have hstays := expand_stays φ hp htip.step htip.step_pos htip.le_max hmax b'
    rcases hstays.of_run_ok hexpand with rfl | ⟨rfl, hfull, s, hs, hstep, hfinite, hfalls⟩
    · exact ⟨Exact.le_trans htip.le_max hmax, Or.inl (hlow.mono hgrows).settled⟩
    · -- a step at which the function is finite cannot have been one where it was not
      have hstay : IsStep t := hfull ▸ isStep_mul_rho hp htip.step
      have hlargest := AtEdge.eq_of_computes hφ ⟨hstay, hedge, s, hs, hstep, hfinite⟩
      rw [(hφ.eq_of_samples hs).2, hstep] at hfalls
      subst hlargest
      exact ⟨hmax, Or.inr ⟨rfl, hfalls, ⟨rounds, h⟩, hslope, hvalue, hfull⟩⟩

/-- A search that returns ends at the zero step, settles, or comes to the edge. -/
theorem exits_of_run (hgap : ∀ x, 0 ≤ x → 0 < G.spacing x) (hφ : φ.Computes V D)
    {r : Step (Exact G)} (hrun : (step p φ trial mayAccept).run b₀ = (.ok r, b)) :
    r.alpha ≤ p.alphamax ∧
      ((r.alpha = 0.0 ∨ Settled b.cache (p.test ⟨.num 0, .num v, .num d⟩) r.alpha) ∨
        r.alpha = p.alphamax ∧ D r.alpha < 0.0 ∧
          ∃ tip b', EdgeTip p φ ⟨.num 0, .num v, .num d⟩ trial mayAccept b₀ tip b') := by
  rw [step, run_bind_ok (Search.run_cached (Cache.get?_zero_of_samples_eq hstart))] at hrun
  obtain ⟨⟨t | ⟨low, high, rounds⟩, calls⟩, b₁, happroach, hrest⟩ := run_bind_eq_ok hrun
  · cases hrest
    rcases exists_leads_of_approach happroach with
      ⟨t', heq, htrial⟩ | ⟨rounds, alphamax, tip, b', h, hleads⟩
    · cases heq
      -- the first trial has ended the search
      have hbegins := (firstTrial_spec φ hp hd trial mayAccept hstart).of_run_ok htrial
      have hatMost := (firstTrial_atMost hp φ _ trial mayAccept b₀).of_run_ok htrial
      exact ⟨hatMost, Or.inl hbegins⟩
    · obtain ⟨hle, hsettled | ⟨hlargest, hfalls, hedge⟩⟩ := h.exits hp hd hstart hφ hleads
      · exact ⟨hle, Or.inl (Or.inr hsettled)⟩
      · exact ⟨hle, Or.inr ⟨hlargest, hfalls, tip, b', hedge⟩⟩
  · -- the rounds settle on a step that is at most the high end, and so at most the tip
    have hbracket := (approach_spec φ hp hgap hd trial mayAccept hstart).of_run_ok happroach
    have hsettled := (narrow_spec hgap φ p rounds calls hbracket).of_run_ok hrest
    refine ⟨?_, Or.inl (Or.inr hsettled)⟩
    rcases exists_leads_of_approach happroach with
      ⟨t', heq, -⟩ | ⟨k, alphamax, tip, b', h, hleads⟩
    · cases heq
    · obtain ⟨γ, -, -, hγ⟩ := hp.gamma
      have hnarrow := narrow_upholds (φ.upholds_true low.step high.step) hgap hγ rounds calls
        trivial hbracket.within hbracket
      have htip := (h.spec hp hd hstart).1
      calc r.alpha ≤ high.step := (hnarrow.of_run_ok hrest).2.2
        _ ≤ tip.step := h.high_le hp hd hstart hleads
        _ ≤ alphamax := htip.le_max
        _ ≤ p.alphamax := h.alphamax_le hp hd hstart

/-- From an edge tip the search returns the largest step, if the function still falls there. -/
theorem EdgeTip.run {w e : Exact G} {world : ω}
    (h : EdgeTip p φ ⟨.num 0, .num v, .num d⟩ trial mayAccept b₀ tip b)
    (heval : (φ.both p.alphamax).run b.world = (.ok (w, e), world))
    (hfinite : Scalar.bothFinite w e = true) (hfalls : e < 0.0) :
    ∃ calls b', (step p φ trial mayAccept).run b₀ = (.ok ⟨p.alphamax, calls⟩, b') := by
  obtain ⟨⟨rounds, hatTip⟩, hslope, hvalue, hfull⟩ := h
  obtain ⟨r, hr, hrho⟩ := hp.rho
  obtain ⟨a, -, ha⟩ := (hatTip.spec hp hd hstart).1.step
  have hlargest : p.alphamax = .num (a * r) := by rw [← hfull, ha, hrho, Exact.num_mul]
  -- from the tip the full step is the largest one, where the sample is finite and still falls
  have hexpanded : expandedStep p p.alphamax tip.step = some p.alphamax := by
    rw [expandedStep, hfull, hlargest, if_neg (by simp)]
  have hsample : finite (⟨p.alphamax, w, e⟩ : Sample (Exact G)) = true := hfinite
  have hreached : (decide (e < 0.0) && p.alphamax == p.alphamax) = true := by
    rw [hlargest, Exact.num_beq, decide_eq_true hfalls, decide_eq_true rfl]
    rfl
  have hrun : (Search.sampleAt φ p.alphamax).run b =
      (.ok ⟨p.alphamax, w, e⟩, { b with world, made := b.made + .ofBoth }) := by
    rw [Search.sampleAt, run_bind_ok (Search.run_evaluate heval _)]
    rfl
  have hexpand : (expand p φ p.alphamax tip).run b =
      (.ok (.ended p.alphamax, .ofBoth), { b with world, made := b.made + .ofBoth }) := by
    rw [expand, hexpanded]
    simp only [run_bind_ok hrun, retreat_of_finite _ _ _ _ hsample, pure_bind, hsample, hreached]
    rfl
  obtain ⟨calls, hresume⟩ := hatTip.resume
  have happroach : (approach p φ ⟨.num 0, .num v, .num d⟩ trial mayAccept).run b₀ =
      (.ok (.ended p.alphamax, calls + .ofBoth),
        { b with world, made := b.made + .ofBoth }) := by
    rw [hresume, bracket, if_neg hslope, if_neg hvalue, run_bind_ok hexpand]
    rfl
  rw [step, run_bind_ok (Search.run_cached (Cache.get?_zero_of_samples_eq hstart)),
    run_bind_ok happroach]
  exact ⟨_, _, rfl⟩

end Search

/-- **Only the edge can lead uphill.** Along a function that is computed, from a start that leads
downhill and from any trial step:

* a search that returns returns a step between zero and the largest one, at which the function is
  finite, and at most the limit unless the search came to the edge from an edge tip;
* from an edge tip, the search returns the largest step if the function is finite and still falls
  there, whatever its value is. -/
theorem rises_only_at_edge [IsStrictOrderedRing K] (hp : p.Proper)
    (hgap : ∀ x, 0 ≤ x → 0 < G.spacing x) {V D : Exact G → Exact G} (hφ : φ.Computes V D)
    {start : Sample (Exact G)} {b₀ : Bench ω (Exact G)} (hzero : start.step = .num 0)
    (hvalue : start.value = V (.num 0)) (hslope : start.slope < 0.0)
    (hstart : b₀.cache.samples = #[start]) (trial : Exact G) (mayAccept : Bool) :
    (∀ r b, (step p φ trial mayAccept).run b₀ = (.ok r, b) →
      (.num 0 ≤ r.alpha ∧ r.alpha ≤ p.alphamax) ∧ Scalar.isFinite (V r.alpha) = true ∧
      (V r.alpha ≤ (p.test start).limit ∨ r.alpha = p.alphamax ∧ D r.alpha < 0.0 ∧
        ∃ tip b', EdgeTip p φ start trial mayAccept b₀ tip b')) ∧
    ∀ tip b' w, EdgeTip p φ start trial mayAccept b₀ tip b' →
      (φ.both p.alphamax).run b'.world = (.ok (V p.alphamax, D p.alphamax), w) →
      Scalar.bothFinite (V p.alphamax) (D p.alphamax) = true → D p.alphamax < 0.0 →
      ∃ calls b, (step p φ trial mayAccept).run b₀ = (.ok ⟨p.alphamax, calls⟩, b) := by
  have hentry := Cache.get?_zero_of_samples_eq hstart
  constructor
  · intro r b hrun
    obtain ⟨v, d, hd, rfl⟩ := exists_nums_of_finite (finite_of_run hentry hrun) hzero hslope
    obtain ⟨a, ha, haeq⟩ := isStep_of_run hp hgap hd hstart hrun
    obtain ⟨hle, hexits⟩ := exits_of_run hp hd hstart hgap hφ hrun
    refine ⟨⟨haeq ▸ Exact.num_le.mpr ha, hle⟩, ?_, ?_⟩
    · -- the search has seen a finite value at its step
      rcases seen_of_run φ.testifies_gives hstart Exact.zero_eq.symm hrun with
        ⟨heq, -⟩ | ⟨s, hs, hfinite, hstep⟩
      · rw [heq, Exact.zero_eq, ← hvalue]
        rfl
      · rw [← hstep, ← hφ.value_of_gives hs]
        exact (Bool.and_eq_true_iff.mp hfinite).1
    · rcases hexits with (heq | hsettled) | hedge
      · -- a search that does not move: the limit is at least the value at the start
        obtain ⟨l, hvl, hl⟩ := limit_eq_num (v := v) (d := d) hp
        rw [heq, Exact.zero_eq, ← hvalue, hl]
        exact Or.inl (Exact.num_le.mpr hvl)
      · obtain ⟨pt, hcached, hstep, hle⟩ := hsettled.exists_value_le hp hd
        rw [← hstep, ← value_eq_of_run hφ hvalue.symm hstart hrun hcached]
        exact Or.inl hle
      · exact Or.inr hedge
  · intro tip b' w h heval hfinite hfalls
    obtain ⟨rounds, hatTip⟩ := h.atTip
    obtain ⟨v, d, hd, rfl⟩ := exists_nums_of_finite hatTip.finite_start hzero hslope
    exact h.run hp hd hstart heval hfinite hfalls

def humpValue (t : Exact Grid.rational) : Exact Grid.rational := ((69.0 - 8.0 * t) * t - 135.0) * t

def humpSlope (t : Exact Grid.rational) : Exact Grid.rational := (138.0 - 24.0 * t) * t - 135.0

/-- The trial step `1` is below the start. It is expanded to `5`, which is the largest step and far
above the start, and that is returned. -/
theorem rises_only_at_edge_hump :
    let p : HagerZhang (Exact Grid.rational) := { default with alphamax := .num 5 }
    let start : Sample (Exact Grid.rational) := ⟨.num 0, .num 0, .num (-135)⟩
    let b₀ : Bench (List (Exact Grid.rational)) (Exact Grid.rational) :=
      { world := [], cache := .seeded start }
    ∃ calls b,
      (step p (.recorder humpValue humpSlope) (.num 1) false).run b₀ =
        (.ok ⟨.num 5, calls⟩, b) ∧
      (p.test start).limit = .num 0 ∧ humpValue (.num 5) = .num 50 ∧
      ∃ tip b', EdgeTip p (.recorder humpValue humpSlope) start (.num 1) false b₀ tip b' := by
  intro p start b₀
  have hp : p.Proper := ⟨by decide +kernel, rfl, rfl⟩
  have hreturns : passes ((step p (.recorder humpValue humpSlope) (.num 1) false).run b₀)
      (fun r _ ↦ r.alpha = .num 5) = true := by
    decide +kernel
  obtain ⟨⟨t, calls⟩, b, hrun, hstep⟩ := exists_ok_of_passes hreturns
  obtain rfl := of_decide_eq_true hstep
  obtain ⟨-, -, hedge⟩ := (rises_only_at_edge hp (fun x _ ↦ Grid.rational_spacing_pos x)
    (LineFunction.recorder_computes humpValue humpSlope) (rfl : start.step = .num 0)
    (by decide +kernel : start.value = humpValue (.num 0)) (by decide +kernel : start.slope < 0.0)
    (rfl : b₀.cache.samples = #[start]) (.num 1) false).1 _ _ hrun
  have hlimit : (p.test start).limit = .num 0 := by decide +kernel
  have hvalue : humpValue (.num 5) = .num 50 := by decide +kernel
  refine ⟨calls, b, hrun, hlimit, hvalue, (hedge.resolve_left ?_).2.2⟩
  rw [hlimit, hvalue]
  decide +kernel

end NonlinearCG.HagerZhang
