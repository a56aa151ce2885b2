import Mathlib
import NonlinearCG.LineSearch.HagerZhang
import NonlinearCG.Proofs.Exact.Number
import NonlinearCG.Proofs.Outcome

/-!
# The bench of a search

What a search may rely on while it works on a bench: the cache only grows, and a point that was
cached stays where it is. In exact arithmetic a point that a search keeps has a step, a value and a
slope that are numbers, and the step is not negative.
-/

namespace NonlinearCG

/-! ## Caches that grow -/

namespace Cache

variable {α : Type} {c c' c'' : Cache α}

/-- The samples of one cache stand at the same positions in another. -/
def Grows (c c' : Cache α) : Prop := ∀ i s, c.get? i = some s → c'.get? i = some s

theorem Grows.trans (h : c.Grows c') (h' : c'.Grows c'') : c.Grows c'' :=
  fun i s hs ↦ h' i s (h i s hs)

theorem lt_size_of_get? {i : ℕ} {s : Sample α} (h : c.get? i = some s) : i < c.size :=
  (Array.getElem?_eq_some_iff.mp h).1

theorem grows_of_samples_eq (h : c'.samples = c.samples) : c.Grows c' := by
  intro i s hs
  rwa [get?, h]

theorem get?_zero_of_samples_eq {s : Sample α} (h : c.samples = #[s]) : c.get? 0 = some s := by
  rw [get?, h]
  rfl

@[simp] theorem size_push (c : Cache α) (s : Sample α) : (c.push s).size = c.size + 1 :=
  Array.size_push ..

@[simp] theorem get?_push_size (c : Cache α) (s : Sample α) : (c.push s).get? c.size = some s :=
  Array.getElem?_push_size ..

theorem grows_push (c : Cache α) (s : Sample α) : c.Grows (c.push s) := by
  intro i t h
  have hi : i < c.samples.size := lt_size_of_get? h
  rw [get?, push, Array.getElem?_push_lt hi]
  exact (Array.getElem?_eq_getElem hi).symm.trans h

end Cache

/-! ## Steps -/

section Steps

variable {K : Type} [Field K] [LinearOrder K] {G : Grid K} {x y z : Exact G}

def IsStep (x : Exact G) : Prop := ∃ a, 0 ≤ a ∧ x = .num a

theorem IsStep.of_le_of_le (hx : IsStep x) (hz : IsStep z) (hxy : x ≤ y) (hyz : y ≤ z) :
    IsStep y := by
  obtain ⟨a, ha, rfl⟩ := hx
  obtain ⟨c, -, rfl⟩ := hz
  cases y with
  | num b => exact ⟨b, ha.trans hxy, rfl⟩
  | top => exact hyz.elim
  | bot | nan => exact hxy.elim

theorem IsStep.le_self (hx : IsStep x) : x ≤ x := by
  obtain ⟨a, -, rfl⟩ := hx
  exact Exact.num_le.mpr le_rfl

theorem IsStep.le_of_not_lt (hx : IsStep x) (hy : IsStep y) (h : ¬y < x) : x ≤ y := by
  obtain ⟨a, -, rfl⟩ := hx
  obtain ⟨b, -, rfl⟩ := hy
  exact not_lt.mp h

theorem IsStep.not_lt_of_le (hx : IsStep x) (hy : IsStep y) (h : x ≤ y) : ¬y < x := by
  obtain ⟨a, -, rfl⟩ := hx
  obtain ⟨b, -, rfl⟩ := hy
  exact not_lt.mpr (Exact.num_le.mp h)

theorem IsStep.lt_or_eq (hx : IsStep x) (hy : IsStep y) (h : x ≤ y) : x < y ∨ x = y := by
  obtain ⟨a, -, rfl⟩ := hx
  obtain ⟨b, -, rfl⟩ := hy
  exact (Exact.num_le.mp h).lt_or_eq.imp id (congrArg Exact.num)

theorem IsStep.half [IsStrictOrderedRing K] (hx : IsStep x) (hy : IsStep y) (h : x ≤ y) :
    IsStep ((x + y) / 2.0) ∧ x ≤ (x + y) / 2.0 ∧ (x + y) / 2.0 ≤ y := by
  obtain ⟨a, ha, rfl⟩ := hx
  obtain ⟨b, hb, rfl⟩ := hy
  have hab : a ≤ b := h
  rw [Exact.num_add, Exact.two_eq, Exact.num_div two_ne_zero]
  refine ⟨⟨(a + b) / 2, by positivity, rfl⟩, ?_, ?_⟩
  · exact Exact.num_le.mpr (by linarith)
  · exact Exact.num_le.mpr (by linarith)

theorem IsStep.between_of_eq_half [IsStrictOrderedRing K] (hx : IsStep x) (hy : IsStep y)
    (h : x ≤ y) (hz : z = (x + y) / 2.0) : x ≤ z ∧ z ≤ y := by
  rw [hz]
  exact (hx.half hy h).2

end Steps

/-! ## Failures -/

/-- A failure that is a verdict of the search. -/
def GaveUp {α : Type} (e : Fault α) : Prop := ∃ cause, e = .search cause

/-! ## Evaluations -/

/-- An evaluation of value and slope gave the sample. -/
def LineFunction.Samples {ω α : Type} (φ : LineFunction ω α) (s : Sample α) : Prop :=
  ∃ w w', (φ.both s.step).run w = (.ok (s.value, s.slope), w')

namespace Search

variable {ω α A : Type} {b : Bench ω α} {act : Eval ω A} {w : ω}

@[simp] theorem giveUp_bind {B : Type} (e : SearchError α) (k : A → Search ω α B) :
    giveUp e >>= k = giveUp e := rfl

@[simp] theorem lift_ok_bind {B : Type} (a : A) (k : A → Search ω α B) :
    lift (.ok a) >>= k = k a := rfl

theorem run_evaluate {a : A} (h : act.run b.world = (.ok a, w)) (cost : Calls) :
    (evaluate cost act).run b = (.ok a, { b with world := w, made := b.made + cost }) := by
  rw [evaluate, run_bind_ok (run_get _)]
  simp only [h]
  rfl

theorem run_evaluate_error {cause : Breakdown} (h : act.run b.world = (.error cause, w))
    (cost : Calls) : (evaluate cost act).run b =
      (.error (.breakdown cause), { b with world := w, made := b.made + cost }) := by
  rw [evaluate, run_bind_ok (run_get _)]
  simp only [h]
  rfl

theorem run_cached {start : Sample α} (h : b.cache.get? 0 = some start) :
    (cached 0).run b = (.ok ⟨start, 0⟩, b) := by
  rw [cached, run_bind_ok (run_get _), h]
  rfl

section Meets

variable {Q : A → Bench ω α → Prop} {E : Fault α → Bench ω α → Prop}

omit A in
theorem meets_cached (i : ℕ) (b : Bench ω α) :
    Meets (cached i) b (fun pt b' ↦ b' = b ∧ b.cache.get? i = some pt.toSample ∧ pt.index = i)
      fun e b' ↦ b' = b ∧ e = .breakdown .missingEntry ∧ b.cache.get? i = none := by
  refine Meets.bind_of_run (run_get b) ?_
  rcases hentry : b.cache.get? i with _ | s
  · exact ⟨rfl, rfl, rfl⟩
  · exact ⟨rfl, rfl, rfl⟩

theorem meets_giveUp {e : SearchError α} (h : E (.search e) b) : Meets (giveUp e) b Q E := h

omit A in
theorem meets_keep (s : Sample α) (b : Bench ω α) :
    Meets (keep s) b (fun pt b' ↦ pt = { s with index := b.cache.size } ∧
      b' = { b with cache := b.cache.push s }) E := by
  rw [Meets]
  exact ⟨rfl, rfl⟩

omit A in
theorem meets_report (e : Event α) (b : Bench ω α) :
    Meets (report e) b (fun _ b' ↦ b' = { b with log := b.log.push e }) E := by
  rw [Meets]
  rfl

omit A in
theorem meets_countFailure (b : Bench ω α) :
    Meets countFailure b (fun _ b' ↦ b' = { b with cache := b.cache.fail 1 }) E := by
  rw [Meets]
  rfl

theorem meets_lift (r : Except Breakdown A) (b : Bench ω α) :
    Meets (lift r) b (fun a b' ↦ r = .ok a ∧ b' = b)
      fun e b' ↦ ∃ cause, r = .error cause ∧ e = .breakdown cause ∧ b' = b := by
  cases r with
  | ok a => exact ⟨rfl, rfl⟩
  | error cause => exact ⟨cause, rfl, rfl, rfl⟩

theorem meets_evaluate (cost : Calls) (act : Eval ω A) (b : Bench ω α) :
    Meets (evaluate cost act) b
      (fun a b' ↦ ∃ w, act.run b.world = (.ok a, w) ∧
        b' = { b with world := w, made := b.made + cost })
      fun e b' ↦ ∃ cause w, act.run b.world = (.error cause, w) ∧ e = .breakdown cause ∧
        b' = { b with world := w, made := b.made + cost } := by
  rcases hact : act.run b.world with ⟨cause | a, w⟩
  · rw [Meets, run_evaluate_error hact]
    exact ⟨cause, w, rfl, rfl, rfl⟩
  · rw [Meets, run_evaluate hact]
    exact ⟨w, rfl, rfl⟩

omit A in
theorem meets_valueAt (φ : LineFunction ω α) (t : α) (b : Bench ω α) :
    Meets (valueAt φ t) b
      (fun v b' ↦ ∃ w, (φ.value t).run b.world = (.ok v, w) ∧
        b' = { b with world := w, made := b.made + .ofValue })
      fun e b' ↦ ∃ cause w, (φ.value t).run b.world = (.error cause, w) ∧
        e = .breakdown cause ∧ b' = { b with world := w, made := b.made + .ofValue } :=
  meets_evaluate ..

omit A in
theorem meets_sampleAt (φ : LineFunction ω α) (t : α) (b : Bench ω α) :
    Meets (sampleAt φ t) b
      (fun s b' ↦ s.step = t ∧ ∃ w, (φ.both t).run b.world = (.ok (s.value, s.slope), w) ∧
        b' = { b with world := w, made := b.made + .ofBoth })
      fun e b' ↦ ∃ cause w, (φ.both t).run b.world = (.error cause, w) ∧
        e = .breakdown cause ∧ b' = { b with world := w, made := b.made + .ofBoth } := by
  refine (meets_evaluate .ofBoth (φ.both t) b).bind ?_
  rintro ⟨v, d⟩ b' ⟨w, hrun, hb'⟩
  exact ⟨rfl, w, hrun, hb'⟩

end Meets

end Search

/-! ## Points of the ray -/

namespace HagerZhang

/-- A failure that is not the verdict on a bracket without opposite slopes. -/
def NotRefused {α : Type} (e : Fault α) : Prop := ∀ l h, e ≠ .search (.notDescent l h)

theorem notRefused_breakdown {α : Type} (cause : Breakdown) :
    NotRefused (.breakdown cause : Fault α) := by
  rintro _ _ ⟨⟩

theorem notRefused_bisection {α : Type} (t : α) : NotRefused (.search (.bisectionNotFinite t)) := by
  rintro _ _ ⟨⟩

theorem notRefused_secant {α : Type} (t : α) : NotRefused (.search (.secantNotFinite t)) := by
  rintro _ _ ⟨⟩

theorem notRefused_notConverged {α : Type} : NotRefused (.search .notConverged : Fault α) := by
  rintro _ _ ⟨⟩

theorem lift_spec {ω α A : Type} (r : Except Breakdown A) (b : Bench ω α) :
    Meets (Search.lift r) b (fun a b' ↦ r = .ok a ∧ b' = b) fun e _ ↦ NotRefused e := by
  refine (Search.meets_lift r b).imp_error ?_
  rintro _ _ ⟨cause, -, rfl, -⟩
  exact notRefused_breakdown cause

variable {ω K : Type} [Field K] [LinearOrder K] {G : Grid K}

/-- A cached point whose data are numbers, at a step that is not negative. -/
structure Cached (c : Cache (Exact G)) (pt : Point (Exact G)) : Prop where
  entry : c.get? pt.index = some pt.toSample
  step : IsStep pt.step
  value : ∃ v, pt.value = .num v
  slope : ∃ d, pt.slope = .num d

namespace Cached

variable {c c' : Cache (Exact G)} {pt : Point (Exact G)}

theorem mono (hc : c.Grows c') (h : Cached c pt) : Cached c' pt :=
  { h with entry := hc _ _ h.entry }

end Cached

omit [Field K] [LinearOrder K] in
theorem sampleAt_spec {α : Type} (φ : LineFunction ω α) (t : α) (b : Bench ω α) :
    Meets (Search.sampleAt φ t) b
      (fun s b' ↦ b'.cache = b.cache ∧ s.step = t ∧ φ.Samples s) fun e _ ↦ NotRefused e := by
  refine (Search.meets_sampleAt φ t b).imp ?_ ?_
  · rintro s _ ⟨rfl, w, hrun, rfl⟩
    exact ⟨rfl, rfl, b.world, w, hrun⟩
  · rintro _ _ ⟨cause, -, -, rfl, -⟩
    exact notRefused_breakdown cause

/-- A sample was cached at the end, as a point whose data are numbers. -/
structure Kept (c c' : Cache (Exact G)) (s : Sample (Exact G)) (pt : Point (Exact G)) : Prop where
  grows : c.Grows c'
  cached : Cached c' pt
  sample : pt.toSample = s
  index : pt.index = c.size
  size : c'.size = c.size + 1

theorem keep_spec {s : Sample (Exact G)} (hs : finite s = true) (hstep : IsStep s.step)
    (b : Bench ω (Exact G)) {E : Fault (Exact G) → Bench ω (Exact G) → Prop} :
    Meets (Search.keep s) b (fun pt b' ↦ Kept b.cache b'.cache s pt) E := by
  obtain ⟨hvalue, hslope⟩ := Exact.bothFinite_iff.mp hs
  exact ⟨Cache.grows_push _ _, ⟨Cache.get?_push_size _ _, hstep, hvalue, hslope⟩, rfl, rfl,
    Cache.size_push _ _⟩

/-! ## Finite samples -/

section Finite

variable {α : Type} [Scalar α] {φ : LineFunction ω α} {s : Sample α}

omit [Field K] [LinearOrder K] in
theorem reduce_of_finite {p : HagerZhang α} (attempts : ℕ) (calls : Calls)
    (hs : finite s = true) : reduce p φ attempts calls s = pure (s, calls) := by
  cases attempts with
  | zero => rfl
  | succ attempts => rw [reduce, if_pos hs]

theorem retreat_of_finite (cold : α) (attempts : ℕ) (calls : Calls) (alphamax : α)
    (hs : finite s = true) :
    retreat φ cold attempts calls alphamax s = pure (⟨s, alphamax, attempts⟩, calls) := by
  cases attempts with
  | zero => rfl
  | succ attempts =>
    rw [retreat, if_neg]
    simp [hs]

end Finite

end HagerZhang

end NonlinearCG
