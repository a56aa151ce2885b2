import Mathlib
import NonlinearCG.Proofs.LineSearch.Tally

/-!
# Bisection

A bisection halves an interval until its middle has a nonnegative slope or the interval is as narrow
as the gap at its right end. The search grants it a number of halvings, which `Bisects` leaves out:
it relates the two ends on a bench to the outcome of as many rounds as it takes. `Bisects.run` says
that every grant of at least so many rounds leads to the same outcome, so an outcome in `Bisects`
is that of a bisection without a bound.

## Why it ends

The test compares the width of the interval with a gap that itself changes as the right end moves.
A positive lower bound on the gaps of the interval is enough: so many halvings that leave the width
below this bound are never used up (`exists_bisects`).

## The invariant

The ray leads downhill at both ends of a crested interval, at the left one from a value of at most
the limit (`Foot`) and at the right one from a value above it (`Crest`). A round that goes on keeps
one end and replaces the other by the middle, so that the interval stays crested
(`Bisects.halved`).
-/

namespace NonlinearCG.HagerZhang

/-! ## Rounds -/

section Rounds

variable {ω α : Type} [Scalar α]

def middle (low high : Point α) : α := (low.step + high.step) / 2.0

/-- An interval that is to be halved. -/
def Wide (low high : Point α) : Prop := Scalar.spacing high.step < high.step - low.step

/-- Why an evaluation at a step ends a bisection. -/
inductive Ruins (φ : LineFunction ω α) (t : α) : Fault α → Prop
  | notFinite {w w' : ω} {v d : α} : (φ.both t).run w = (.ok (v, d), w') →
      Scalar.bothFinite v d = false → Ruins φ t (.search (.bisectionNotFinite t))
  | breakdown {w w' : ω} {cause : Breakdown} : (φ.both t).run w = (.error cause, w') →
      Ruins φ t (.breakdown cause)

/-- The outcome of a bisection from the two ends of an interval on a bench, and the number of its
rounds. -/
inductive Bisects (φ : LineFunction ω α) (limit : α) : Point α → Point α → Bench ω α → ℕ →
    Except (Fault α) (Point α × Point α) → Bench ω α → Prop
  | narrow {low high : Point α} {b : Bench ω α} : ¬Wide low high →
      Bisects φ limit low high b 0 (.ok (low, high)) b
  | ruined {low high : Point α} {b b' : Bench ω α} {e : Fault α} : Wide low high →
      (probe φ .bisectionNotFinite (middle low high)).run b = (.error e, b') →
      Bisects φ limit low high b 1 (.error e) b'
  | risen {low high mid : Point α} {b b' : Bench ω α} : Wide low high →
      (probe φ .bisectionNotFinite (middle low high)).run b = (.ok mid, b') → 0.0 ≤ mid.slope →
      Bisects φ limit low high b 1 (.ok (low, mid)) b'
  | raise {low high mid : Point α} {b b' b'' : Bench ω α} {k : ℕ}
      {r : Except (Fault α) (Point α × Point α)} : Wide low high →
      (probe φ .bisectionNotFinite (middle low high)).run b = (.ok mid, b') → ¬0.0 ≤ mid.slope →
      mid.value ≤ limit → Bisects φ limit mid high b' k r b'' →
      Bisects φ limit low high b (k + 1) r b''
  | lower {low high mid : Point α} {b b' b'' : Bench ω α} {k : ℕ}
      {r : Except (Fault α) (Point α × Point α)} : Wide low high →
      (probe φ .bisectionNotFinite (middle low high)).run b = (.ok mid, b') → ¬0.0 ≤ mid.slope →
      ¬mid.value ≤ limit → Bisects φ limit low mid b' k r b'' →
      Bisects φ limit low high b (k + 1) r b''

variable {φ : LineFunction ω α} {limit : α} {low high mid : Point α} {b b' : Bench ω α} {k : ℕ}
  {r : Except (Fault α) (Point α × Point α)}

theorem bisect_of_not_wide (fuel : ℕ) (calls : Calls) (h : ¬Wide low high) :
    bisect φ limit fuel calls low high = pure ((low, high), calls) := by
  rw [Wide] at h
  cases fuel <;> rw [bisect, if_neg h]

theorem bisect_succ (fuel : ℕ) (calls : Calls) (h : Wide low high) :
    bisect φ limit (fuel + 1) calls low high =
      probe φ .bisectionNotFinite (middle low high) >>= fun mid ↦
        if 0.0 ≤ mid.slope then pure ((low, mid), calls + .ofBoth)
        else if mid.value ≤ limit then bisect φ limit fuel (calls + .ofBoth) mid high
        else bisect φ limit fuel (calls + .ofBoth) low mid := by
  rw [Wide] at h
  rw [bisect, if_pos h]
  rfl

/-- What a bisection returns with an outcome: it adds one evaluation for each of its rounds to the
account with which it began. -/
def charged {A : Type} (calls : Calls) (k : ℕ) (r : Except (Fault α) A) :
    Except (Fault α) (A × Calls) :=
  r.map (·, calls + ⟨k, k⟩)

omit [Scalar α] in
theorem charged_succ {A : Type} (calls : Calls) (k : ℕ) (r : Except (Fault α) A) :
    charged (calls + .ofBoth) k r = charged calls (k + 1) r := by
  have hcalls : calls + .ofBoth + ⟨k, k⟩ = calls + ⟨k + 1, k + 1⟩ := add_right_comm ..
  rw [charged, hcalls, charged]

/-- A grant of at least as many halvings as there are rounds leads to the outcome. -/
theorem Bisects.run (h : Bisects φ limit low high b k r b') {fuel : ℕ} (hk : k ≤ fuel)
    (calls : Calls) : (bisect φ limit fuel calls low high).run b = (charged calls k r, b') := by
  induction h generalizing fuel calls with
  | narrow hnot =>
    rw [bisect_of_not_wide fuel calls hnot]
    rfl
  | ruined hwide hprobe =>
    obtain ⟨fuel, rfl⟩ := Nat.exists_eq_add_of_le' hk
    rw [bisect_succ fuel calls hwide, run_bind_error hprobe]
    rfl
  | risen hwide hprobe hslope =>
    obtain ⟨fuel, rfl⟩ := Nat.exists_eq_add_of_le' hk
    rw [bisect_succ fuel calls hwide, run_bind_ok hprobe, if_pos hslope]
    rfl
  | raise hwide hprobe hslope hvalue _ ih =>
    obtain ⟨fuel, rfl⟩ := Nat.exists_eq_add_of_le' ((Nat.le_add_left 1 _).trans hk)
    rw [bisect_succ fuel calls hwide, run_bind_ok hprobe, if_neg hslope, if_pos hvalue,
      ih (Nat.le_of_succ_le_succ hk), charged_succ]
  | lower hwide hprobe hslope hvalue _ ih =>
    obtain ⟨fuel, rfl⟩ := Nat.exists_eq_add_of_le' ((Nat.le_add_left 1 _).trans hk)
    rw [bisect_succ fuel calls hwide, run_bind_ok hprobe, if_neg hslope, if_neg hvalue,
      ih (Nat.le_of_succ_le_succ hk), charged_succ]

/-! ## Recorded -/

/-- What rounds leave on a bench: each has made one evaluation, and all evaluations but the lost
ones are cached, in their order. -/
structure Recorded (b : Bench ω α) (k lost : ℕ) (b' : Bench ω α) : Prop where
  made : b'.made = b.made + ⟨k, k⟩
  failures : b'.cache.failures = b.cache.failures
  samples : ∃ added, b'.cache.samples = b.cache.samples ++ added ∧ added.size + lost = k

omit [Scalar α] in
theorem Recorded.refl (b : Bench ω α) : Recorded b 0 0 b :=
  ⟨rfl, rfl, #[], (Array.append_empty ..).symm, rfl⟩

omit [Scalar α] in
theorem Recorded.trans {b'' : Bench ω α} {j lost : ℕ} (h : Recorded b j 0 b')
    (h' : Recorded b' k lost b'') : Recorded b (k + j) lost b'' := by
  obtain ⟨added, hadded, hsize⟩ := h.samples
  obtain ⟨more, hmore, hsize'⟩ := h'.samples
  refine ⟨?_, h'.failures.trans h.failures, added ++ more, ?_, ?_⟩
  · rw [h'.made, h.made, add_assoc, add_comm k j]
    rfl
  · rw [hmore, hadded, Array.append_assoc]
  · rw [Array.size_append]
    omega

omit [Scalar α] in
theorem Recorded.grows {lost : ℕ} (h : Recorded b k lost b') : b.cache.Grows b'.cache := by
  intro i s hs
  obtain ⟨added, hadded, -⟩ := h.samples
  have hi : i < b.cache.samples.size := Cache.lt_size_of_get? hs
  rw [Cache.get?, hadded, Array.getElem?_append_left hi]
  exact hs

/-- What a probe at a step does: it caches a finite sample, and fails otherwise. -/
inductive Probes (φ : LineFunction ω α) (t : α) (b : Bench ω α) :
    Except (Fault α) (Point α) → Bench ω α → Prop
  | kept {v d : α} {b' : Bench ω α} : Scalar.bothFinite v d = true → Recorded b 1 0 b' →
      b'.cache.get? b.cache.size = some ⟨t, v, d⟩ →
      Probes φ t b (.ok ⟨⟨t, v, d⟩, b.cache.size⟩) b'
  | ruined {e : Fault α} {b' : Bench ω α} : Ruins φ t e → Recorded b 1 1 b' →
      Probes φ t b (.error e) b'

theorem probes_of_run {t : α} {result : Except (Fault α) (Point α)}
    (h : (probe φ .bisectionNotFinite t).run b = (result, b')) : Probes φ t b result b' := by
  rcases hboth : (φ.both t).run b.world with ⟨cause | ⟨v, d⟩, w⟩
  · have hsample : (Search.sampleAt φ t).run b = (.error (.breakdown cause),
        { b with world := w, made := b.made + .ofBoth }) :=
      run_bind_error (Search.run_evaluate_error hboth .ofBoth)
    rw [probe, run_bind_error hsample] at h
    cases h
    exact .ruined (.breakdown hboth) ⟨rfl, rfl, #[], (Array.append_empty ..).symm, rfl⟩
  · have hsample : (Search.sampleAt φ t).run b = (.ok ⟨t, v, d⟩,
        { b with world := w, made := b.made + .ofBoth }) :=
      run_bind_ok (Search.run_evaluate hboth .ofBoth)
    rw [probe, run_bind_ok hsample, finite] at h
    cases hfinite : Scalar.bothFinite v d with
    | true =>
      rw [hfinite] at h
      cases h
      exact .kept hfinite ⟨rfl, rfl, #[⟨t, v, d⟩], rfl, rfl⟩ (Cache.get?_push_size _ _)
    | false =>
      rw [hfinite] at h
      cases h
      exact .ruined (.notFinite hboth hfinite) ⟨rfl, rfl, #[], (Array.append_empty ..).symm, rfl⟩

/-- The evaluations that a bisection with an outcome has lost. -/
def lost {A : Type} : Except (Fault α) A → ℕ
  | .ok _ => 0
  | .error _ => 1

theorem Bisects.recorded (h : Bisects φ limit low high b k r b') : Recorded b k (lost r) b' := by
  induction h with
  | narrow => exact .refl _
  | ruined _ hprobe =>
    cases probes_of_run hprobe with
    | ruined _ hrecorded => exact hrecorded
  | risen _ hprobe =>
    cases probes_of_run hprobe with
    | kept _ hrecorded => exact hrecorded
  | raise _ hprobe _ _ _ ih | lower _ hprobe _ _ _ ih =>
    cases probes_of_run hprobe with
    | kept _ hrecorded => exact hrecorded.trans ih

/-- A bisection ends without a result only for an evaluation that fails or is not finite. -/
theorem Bisects.ruins {e : Fault α} (h : Bisects φ limit low high b k (.error e) b') :
    ∃ t, Ruins φ t e := by
  generalize hr : Except.error e = r at h
  induction h with
  | narrow | risen => cases hr
  | ruined _ hprobe =>
    cases hr
    cases probes_of_run hprobe with
    | ruined hruins _ => exact ⟨_, hruins⟩
  | raise _ _ _ _ _ ih | lower _ _ _ _ _ ih => exact ih hr

end Rounds

/-! ## Crested intervals -/

section Crested

variable {ω K : Type} [Field K] [LinearOrder K] {G : Grid K} {φ : LineFunction ω (Exact G)}
  {limit : Exact G} {low high mid : Point (Exact G)} {c c' : Cache (Exact G)}
  {b b' : Bench ω (Exact G)} {x m z : K} {k : ℕ}

/-- A cached point at a step from which the ray leads downhill, with a value of at most the
limit. -/
structure Foot (c : Cache (Exact G)) (limit : Exact G) (x : K) (pt : Point (Exact G)) : Prop where
  cached : c.get? pt.index = some pt.toSample
  step : pt.step = .num x
  value_le : pt.value ≤ limit
  slope_neg : pt.slope < 0.0

/-- A cached point at a step from which the ray leads downhill, with a value above the limit. -/
structure Crest (c : Cache (Exact G)) (limit : Exact G) (z : K) (pt : Point (Exact G)) : Prop where
  cached : c.get? pt.index = some pt.toSample
  step : pt.step = .num z
  lt_value : limit < pt.value
  slope_neg : pt.slope < 0.0

/-- What the interval between two steps is halved to: two points between them, the left one below
the limit, which are a bracket of at most half the width, or which are as close as the gap at the
right one, which is above the limit. -/
def Halved (c : Cache (Exact G)) (limit : Exact G) (x z : K)
    (ends : Point (Exact G) × Point (Exact G)) : Prop :=
  ∃ x' z', x ≤ x' ∧ x' ≤ z' ∧ z' ≤ z ∧ Foot c limit x' ends.1 ∧
    (c.get? ends.2.index = some ends.2.toSample ∧ ends.2.step = .num z' ∧ 0.0 ≤ ends.2.slope ∧
        z' - x' ≤ (z - x) / 2 ∨
      Crest c limit z' ends.2 ∧ z' - x' ≤ G.spacing z')

theorem Foot.mono (hc : c.Grows c') (h : Foot c limit x low) : Foot c' limit x low :=
  { h with cached := hc _ _ h.cached }

theorem Crest.mono (hc : c.Grows c') (h : Crest c limit z high) : Crest c' limit z high :=
  { h with cached := hc _ _ h.cached }

theorem wide_iff (hlow : low.step = .num x) (hhigh : high.step = .num z) :
    Wide low high ↔ G.spacing z < z - x := by
  rw [Wide, hlow, hhigh, Exact.num_sub, Exact.spacing_num, Exact.num_lt]

variable [IsStrictOrderedRing K]

theorem middle_eq (hlow : low.step = .num x) (hhigh : high.step = .num z) :
    middle low high = .num ((x + z) / 2) := by
  rw [middle, hlow, hhigh, Exact.num_add, Exact.two_eq, Exact.num_div two_ne_zero]

theorem slope_neg_of_not_nonneg {v d : Exact G} (hfinite : Scalar.bothFinite v d = true)
    (hslope : ¬0.0 ≤ d) : d < 0.0 := by
  obtain ⟨-, d, rfl⟩ := Exact.bothFinite_iff.mp hfinite
  rw [Exact.zero_eq] at hslope ⊢
  exact not_le.mp hslope

omit [IsStrictOrderedRing K] in
theorem limit_lt_of_not_le {u v d : Exact G} (hu : u ≤ limit)
    (hfinite : Scalar.bothFinite v d = true) (hvalue : ¬v ≤ limit) : limit < v := by
  obtain ⟨⟨v, rfl⟩, -⟩ := Exact.bothFinite_iff.mp hfinite
  cases limit with
  | num l => exact not_le.mp hvalue
  | top => exact absurd trivial hvalue
  | bot => exact trivial
  | nan => cases u <;> exact hu.elim

theorem Halved.widen {x₁ z₁ : K} {ends : Point (Exact G) × Point (Exact G)}
    (h : Halved c limit x₁ z₁ ends) (hx : x ≤ x₁) (hz : z₁ ≤ z) : Halved c limit x z ends := by
  obtain ⟨x', z', hx', hle, hz', hfoot, hends⟩ := h
  refine ⟨x', z', hx.trans hx', hle, hz'.trans hz, hfoot, hends.imp_left ?_⟩
  rintro ⟨hcached, hstep, hslope, hwidth⟩
  exact ⟨hcached, hstep, hslope, by linarith⟩

/-- A bisection of a crested interval that has a result has halved it. -/
theorem Bisects.halved {ends : Point (Exact G) × Point (Exact G)}
    (h : Bisects φ limit low high b k (.ok ends) b') (hlow : Foot b.cache limit x low)
    (hhigh : Crest b.cache limit z high) (hle : x ≤ z) : Halved b'.cache limit x z ends := by
  generalize hr : Except.ok ends = r at h
  induction h generalizing x z with
  | narrow hnot =>
    cases hr
    rw [wide_iff hlow.step hhigh.step, not_lt] at hnot
    exact ⟨x, z, le_rfl, hle, le_rfl, hlow, Or.inr ⟨hhigh, hnot⟩⟩
  | ruined => cases hr
  | risen _ hprobe hslope =>
    cases hr
    cases probes_of_run hprobe with
    | kept _ hrecorded hget =>
      refine ⟨x, (x + z) / 2, le_rfl, by linarith, by linarith, hlow.mono hrecorded.grows, ?_⟩
      exact Or.inl ⟨hget, middle_eq hlow.step hhigh.step, hslope, by linarith⟩
  -- the middle replaces an end, and the rest of the bisection takes place in that half
  | raise _ hprobe hslope hvalue _ ih =>
    cases probes_of_run hprobe with
    | kept hfinite hrecorded hget =>
      have hmid : Foot _ limit ((x + z) / 2) _ :=
        ⟨hget, middle_eq hlow.step hhigh.step, hvalue, slope_neg_of_not_nonneg hfinite hslope⟩
      exact (ih hmid (hhigh.mono hrecorded.grows) (by linarith) hr).widen (by linarith) le_rfl
  | lower _ hprobe hslope hvalue _ ih =>
    cases probes_of_run hprobe with
    | kept hfinite hrecorded hget =>
      have hmid : Crest _ limit ((x + z) / 2) _ :=
        ⟨hget, middle_eq hlow.step hhigh.step, limit_lt_of_not_le hlow.value_le hfinite hvalue,
          slope_neg_of_not_nonneg hfinite hslope⟩
      exact (ih (hlow.mono hrecorded.grows) hmid (by linarith) hr).widen le_rfl (by linarith)

/-! ## Every bisection ends -/

/-- A bisection ends after so many halvings as make an interval narrower than all of its gaps. -/
theorem exists_bisects {η : K} (n : ℕ) (hlow : low.step = .num x) (hhigh : high.step = .num z)
    (hle : x ≤ z) (hgap : ∀ y, x ≤ y → y ≤ z → η ≤ G.spacing y) (hwidth : z - x ≤ η * 2 ^ n)
    (b : Bench ω (Exact G)) : ∃ k r b', k ≤ n ∧ Bisects φ limit low high b k r b' := by
  induction n generalizing low high x z b with
  | zero =>
    -- the width is at most the gap at the high end
    have hnot : ¬Wide low high := by
      rw [wide_iff hlow hhigh, not_lt]
      have hz := hgap z hle le_rfl
      linarith
    exact ⟨0, _, _, le_rfl, .narrow hnot⟩
  | succ n ih =>
    by_cases hwide : Wide low high
    · rcases hprobe : (probe φ .bisectionNotFinite (middle low high)).run b with ⟨e | mid, b₁⟩
      · exact ⟨1, _, _, Nat.le_add_left 1 n, .ruined hwide hprobe⟩
      by_cases hslope : 0.0 ≤ mid.slope
      · exact ⟨1, _, _, Nat.le_add_left 1 n, .risen hwide hprobe hslope⟩
      have hmid : mid.step = .num ((x + z) / 2) := by
        cases probes_of_run hprobe with
        | kept => exact middle_eq hlow hhigh
      -- a half of the interval has half of its width, and its gaps are gaps of the interval
      rw [pow_succ] at hwidth
      by_cases hvalue : mid.value ≤ limit
      · obtain ⟨k, r, b', hk, hbisects⟩ := ih hmid hhigh (by linarith)
          (fun y hy ↦ hgap y (by linarith)) (by linarith) b₁
        exact ⟨k + 1, r, b', Nat.succ_le_succ hk, .raise hwide hprobe hslope hvalue hbisects⟩
      · obtain ⟨k, r, b', hk, hbisects⟩ := ih hlow hmid (by linarith)
          (fun y hy hy' ↦ hgap y hy (by linarith)) (by linarith) b₁
        exact ⟨k + 1, r, b', Nat.succ_le_succ hk, .lower hwide hprobe hslope hvalue hbisects⟩
    · exact ⟨0, _, _, Nat.zero_le _, .narrow hwide⟩

/-- **Bisection of a crested interval.** Where the gaps in the interval have a positive lower bound,
and for any objective, there is an outcome to which a bisection comes under every grant of at least
as many halvings as it makes rounds. Then

* it makes no more rounds than halvings make the interval as narrow as the bound on the gaps, which
  the search itself grants if its scalars do;
* each round is one evaluation, which is cached unless it ends the bisection without a result, and
  the bisection returns their number;
* it ends without a result only for an evaluation that fails or is not finite;
* its result is a bracket of at most half the width of the interval, or a crested interval that is
  as narrow as the gap at its right end. -/
theorem bisect_ends [Archimedean K] {η : K} (hη : 0 < η)
    (hgap : ∀ y, x ≤ y → y ≤ z → η ≤ G.spacing y) (φ : LineFunction ω (Exact G))
    (hlow : Foot b.cache limit x low) (hhigh : Crest b.cache limit z high) (hle : x ≤ z) :
    ∃ k r b', (∀ fuel, k ≤ fuel → ∀ calls,
        (bisect φ limit fuel calls low high).run b = (charged calls k r, b')) ∧
      (∀ n, z - x ≤ η * 2 ^ n → k ≤ n) ∧
      (z - x ≤ η * 2 ^ G.halvings x z →
        (bisectBetween φ limit low high).run b = (charged 0 k r, b')) ∧
      Recorded b k (lost r) b' ∧
      (∀ e, r = .error e → ∃ t, Ruins φ t e) ∧
      ∀ ends, r = .ok ends → Halved b'.cache limit x z ends := by
  have hexists : ∃ n : ℕ, z - x ≤ η * 2 ^ n := by
    obtain ⟨n, hn⟩ := pow_unbounded_of_one_lt ((z - x) / η) one_lt_two
    exact ⟨n, ((div_lt_iff₀' hη).mp hn).le⟩
  classical
  obtain ⟨k, r, b', hk, hbisects⟩ :
      ∃ k r b', k ≤ Nat.find hexists ∧ Bisects φ limit low high b k r b' :=
    exists_bisects _ hlow.step hhigh.step hle hgap (Nat.find_spec hexists) b
  have hleast (n : ℕ) (hn : z - x ≤ η * 2 ^ n) : k ≤ n := hk.trans (Nat.find_min' hexists hn)
  refine ⟨k, r, b', fun fuel ↦ hbisects.run, hleast, fun hhalvings ↦ ?_, hbisects.recorded, ?_, ?_⟩
  · rw [bisectBetween, hlow.step, hhigh.step]
    exact hbisects.run (hleast _ hhalvings) 0
  · rintro e rfl
    exact hbisects.ruins
  · rintro ends rfl
    exact hbisects.halved hlow hhigh hle

end Crested

/-- A step up at `0.7` that leads downhill everywhere, but for a rise just before it, if there is
one. -/
def ledge (rise : Bool) : LineFunction Unit (Exact Grid.even) where
  value t := return if t < 0.7 then 0.0 else 1.0
  both t := return (if t < 0.7 then 0.0 else 1.0,
    if rise ∧ 0.6 < t ∧ t < 0.7 then 1.0 else -1.0)

/-- The interval from `0` to `1` is halved to `[1 / 2, 5 / 8]`, where the slope is positive, in
three rounds. Without the rise it is halved until it is as narrow as the gap, in 52 rounds. -/
theorem bisect_ends_ledge :
    let low : Point (Exact Grid.even) := ⟨⟨.num 0, .num 0, .num (-1)⟩, 0⟩
    let high : Point (Exact Grid.even) := ⟨⟨.num 1, .num 1, .num (-1)⟩, 1⟩
    let b : Bench Unit (Exact Grid.even) :=
      { world := (), cache := { samples := #[low.toSample, high.toSample] } }
    (∃ ends b', (bisectBetween (ledge true) (.num 0) low high).run b = (.ok (ends, ⟨3, 3⟩), b') ∧
      ends.1.step = .num (1 / 2) ∧ ends.2.step = .num (5 / 8) ∧ Recorded b 3 0 b') ∧
    ∃ ends b' z',
      (bisectBetween (ledge false) (.num 0) low high).run b = (.ok (ends, ⟨52, 52⟩), b') ∧
      Crest b'.cache (.num 0) z' ends.2 ∧ Recorded b 52 0 b' := by
  intro low high b
  have hhalvings : (1 - 0 : ℚ) ≤ 1 / 2 ^ 52 * 2 ^ Grid.even.halvings 0 1 :=
    Grid.even_exhausts 0 1 1 one_pos le_rfl
  have hhalved (rise : Bool) {ends : Point (Exact Grid.even) × Point (Exact Grid.even)}
      {b' : Bench Unit (Exact Grid.even)} {j : ℕ}
      (hrun : (bisectBetween (ledge rise) (.num 0) low high).run b = (.ok (ends, ⟨j, j⟩), b')) :
      Recorded b j 0 b' ∧ Halved b'.cache (.num 0) 0 1 ends := by
    obtain ⟨k, r, b'', -, -, hbetween, hrecorded, -, hhalved⟩ := bisect_ends (b := b)
      (by norm_num : (0 : ℚ) < 1 / 2 ^ 52) (fun _ _ _ ↦ le_rfl) (ledge rise)
      (⟨rfl, rfl, by decide +kernel, by decide +kernel⟩ : Foot b.cache (.num 0) 0 low)
      (⟨rfl, rfl, by decide +kernel, by decide +kernel⟩ : Crest b.cache (.num 0) 1 high) zero_le_one
    obtain ⟨hr, rfl⟩ := Prod.mk.inj ((hbetween hhalvings).symm.trans hrun)
    cases r with
    | error e => cases hr
    | ok ends' =>
      obtain ⟨rfl, hcalls⟩ := Prod.mk.inj (Except.ok.inj hr)
      -- the account of the bisection began with nothing
      have hk : 0 + k = j := congrArg Calls.values hcalls
      rw [zero_add] at hk
      exact ⟨hk ▸ hrecorded, hhalved ends' rfl⟩
  constructor
  · have hruns : passes ((bisectBetween (ledge true) (.num 0) low high).run b) (fun r _ ↦
        r.2 = ⟨3, 3⟩ ∧ r.1.1.step = .num (1 / 2) ∧ r.1.2.step = .num (5 / 8)) = true := by
      decide +kernel
    obtain ⟨⟨ends, calls⟩, b', hrun, htest⟩ := exists_ok_of_passes hruns
    obtain ⟨rfl, hlow, hhigh⟩ := of_decide_eq_true htest
    exact ⟨ends, b', hrun, hlow, hhigh, (hhalved true hrun).1⟩
  · have hruns : passes ((bisectBetween (ledge false) (.num 0) low high).run b) (fun r _ ↦
        r.2 = ⟨52, 52⟩ ∧ r.1.2.slope = .num (-1)) = true := by
      decide +kernel
    obtain ⟨⟨ends, calls⟩, b', hrun, htest⟩ := exists_ok_of_passes hruns
    obtain ⟨rfl, hslope⟩ := of_decide_eq_true htest
    obtain ⟨hrecorded, x', z', -, -, -, -, ⟨-, -, hrise, -⟩ | ⟨hcrest, -⟩⟩ := hhalved false hrun
    · -- the slope at the higher end has stayed negative
      rw [hslope, Exact.zero_eq, Exact.num_le] at hrise
      norm_num at hrise
    · exact ⟨ends, b', z', hrun, hcrest, hrecorded⟩

end NonlinearCG.HagerZhang
