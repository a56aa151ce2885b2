import Mathlib
import NonlinearCG.Proofs.LineSearch.Ray
import NonlinearCG.Proofs.LineSearch.Tips

/-!
# What a search has seen

A search caches nothing but finite samples that an evaluation gave, and it settles on nothing but a
step at which it has seen one. Both hold for any type of scalars, and however the search ends.

## Testimony

What an evaluation gave is a matter of the world as it was then. `Testifies` says of a property of
samples and worlds that evaluations give samples with the property and that later evaluations do not
take it away. If the world keeps a record of its evaluations, the property may be that the sample is
in the record.

## The invariant

`Sound` compares a bench with the cache at first: the cache has grown, and what it has in addition
is testified and finite. A part of the search that is handed points of the cache hands on points of
the cache. So the positions that it reads are positions of the cache.
-/

namespace NonlinearCG

variable {ω α : Type} [Scalar α]

/-! ## Testimony -/

/-- Evaluations give samples with a property, and do not take it away. -/
structure LineFunction.Testifies (φ : LineFunction ω α) (M : Sample α → ω → Prop) : Prop where
  both {t v d : α} {w w' : ω} : (φ.both t).run w = (.ok (v, d), w') → M ⟨t, v, d⟩ w'
  value {t v : α} {w w' : ω} : (φ.value t).run w = (.ok v, w') → M ⟨t, v, Scalar.nan⟩ w'
  lasts_both {s : Sample α} {t : α} {r : Except Breakdown (α × α)} {w w' : ω} : M s w →
    (φ.both t).run w = (r, w') → M s w'
  lasts_value {s : Sample α} {t : α} {r : Except Breakdown α} {w w' : ω} : M s w →
    (φ.value t).run w = (r, w') → M s w'

theorem LineFunction.testifies_gives (φ : LineFunction ω α) :
    φ.Testifies fun s _ ↦ φ.Gives s where
  both h := .both ⟨_, _, h⟩
  value h := .value h
  lasts_both h _ := h
  lasts_value h _ := h

/-- The world keeps a record of the steps at which the function was evaluated, the latest one
first. -/
structure LineFunction.Records (φ : LineFunction ω α) (seen : ω → List α) : Prop where
  both {t : α} {r : Except Breakdown (α × α)} {w w' : ω} : (φ.both t).run w = (r, w') →
    seen w' = t :: seen w
  value {t : α} {r : Except Breakdown α} {w w' : ω} : (φ.value t).run w = (r, w') →
    seen w' = t :: seen w

theorem LineFunction.Records.testifies {φ : LineFunction ω α} {seen : ω → List α}
    (hφ : φ.Records seen) : φ.Testifies fun s w ↦ s.step ∈ seen w ∧ φ.Gives s where
  both h := ⟨hφ.both h ▸ List.mem_cons_self, .both ⟨_, _, h⟩⟩
  value h := ⟨hφ.value h ▸ List.mem_cons_self, .value h⟩
  lasts_both hs h := ⟨hφ.both h ▸ List.mem_cons_of_mem _ hs.1, hs.2⟩
  lasts_value hs h := ⟨hφ.value h ▸ List.mem_cons_of_mem _ hs.1, hs.2⟩

/-- A function with its slope, evaluated in a world that is the record. -/
def LineFunction.recorder (V D : α → α) : LineFunction (List α) α where
  value t := do
    modify (t :: ·)
    return V t
  both t := do
    modify (t :: ·)
    return (V t, D t)

omit [Scalar α] in
theorem LineFunction.recorder_records (V D : α → α) :
    (LineFunction.recorder V D).Records id where
  both h := by
    cases h
    rfl
  value h := by
    cases h
    rfl

omit [Scalar α] in
theorem LineFunction.recorder_computes (V D : α → α) :
    (LineFunction.recorder V D).Computes V D where
  value h := by
    cases h
    rfl
  both h := by
    cases h
    exact ⟨rfl, rfl⟩

/-- A function that falls along a line up to a wall at `1`, behind which it is infinite. -/
def wallValue : Exact Grid.rational → Exact Grid.rational
  | .num t => if t ≤ 1 then .num (-t) else .top
  | z => z

/-- An evaluation of the function ends with the breakdown. -/
def LineFunction.Raises (φ : LineFunction ω α) (cause : Breakdown) : Prop :=
  ∃ t w w', (φ.both t).run w = (.error cause, w')

/-! ## Breakdowns of the arithmetic -/

theorem Scalar.eq_of_divide_eq_error {x y : α} {cause : Breakdown}
    (h : Scalar.divide x y = .error cause) : cause = .divisionByZero := by
  rw [Scalar.divide] at h
  split_ifs at h
  cases h
  rfl

theorem eq_of_secant_eq_error {a b d e : α} {cause : Breakdown}
    (h : secant a b d e = .error cause) : cause = .divisionByZero := by
  rw [secant] at h
  split_ifs at h
  exact Scalar.eq_of_divide_eq_error h

theorem WolfeTest.eq_divisionByZero {test : WolfeTest α} {s : Sample α} {cause : Breakdown}
    (h : test.accepts s = .error cause) : cause = .divisionByZero := by
  rw [accepts] at h
  rcases hrise : Scalar.divide (s.value - test.value) s.step with cause' | rise
  · rw [hrise] at h
    cases h
    exact Scalar.eq_of_divide_eq_error hrise
  · rw [hrise] at h
    cases h

namespace HagerZhang

/-! ## The invariant -/

/-- A point of the cache. -/
def Holds (c : Cache α) (pt : Point α) : Prop := c.get? pt.index = some pt.toSample

/-- One bench comes after another: the cache has grown by finite samples that are testified, and no
testimony was lost. -/
structure Extends (M : Sample α → ω → Prop) (b b' : Bench ω α) : Prop where
  grows : b.cache.Grows b'.cache
  lasts {s : Sample α} : M s b.world → M s b'.world
  entry {i : ℕ} {s : Sample α} : b'.cache.get? i = some s →
    b.cache.get? i = some s ∨ M s b'.world ∧ finite s = true

/-- A step of the cache, or one at which a finite sample is testified. -/
def Backed (M : Sample α → ω → Prop) (b : Bench ω α) (t : α) : Prop :=
  (∃ pt, Holds b.cache pt ∧ pt.step = t) ∨ ∃ s, M s b.world ∧ finite s = true ∧ s.step = t

/-- A failure is not due to a position outside the cache, unless the function itself fails so. -/
def InRange (φ : LineFunction ω α) (e : Fault α) : Prop :=
  e = .breakdown .missingEntry → φ.Raises .missingEntry

/-- A double secant step hands on points of the cache. -/
def Narrowing.Evident (c : Cache α) : Narrowing α → Prop
  | .accepted pt => Holds c pt
  | .bracket low high => Holds c low ∧ Holds c high

/-- A round hands on points of the cache, or ends with a step that is backed. -/
def Round.Evident (M : Sample α → ω → Prop) (b : Bench ω α) : Round α → Prop
  | .ended t => Backed M b t
  | .narrowed low high => Holds b.cache low ∧ Holds b.cache high

/-- An expansion leads to a point of the cache, or ends with a step that is backed. -/
def Expansion.Evident (M : Sample α → ω → Prop) (b : Bench ω α) :
    Expansion α → Prop
  | .ended t => t = 0.0 ∨ Backed M b t
  | .reached tip _ => Holds b.cache tip

/-- Bracketing leads to points of the cache, or ends with a step that is backed. -/
def Bracketing.Evident (M : Sample α → ω → Prop) (b : Bench ω α) :
    Bracketing α → Prop
  | .ended t => t = 0.0 ∨ Backed M b t
  | .bracket low high _ => Holds b.cache low ∧ Holds b.cache high

section Invariant

variable {φ : LineFunction ω α} {M : Sample α → ω → Prop} {c c' : Cache α} {b b' b'' : Bench ω α}
  {pt : Point α} {cause : Breakdown}

omit [Scalar α] in
theorem Holds.mono (hc : c.Grows c') (h : Holds c pt) : Holds c' pt := hc _ _ h

theorem Extends.refl (M : Sample α → ω → Prop) (b : Bench ω α) : Extends M b b :=
  ⟨fun _ _ hs ↦ hs, id, Or.inl⟩

theorem Extends.trans (h : Extends M b b') (h' : Extends M b' b'') : Extends M b b'' := by
  refine ⟨h.grows.trans h'.grows, fun hM ↦ h'.lasts (h.lasts hM), fun hs ↦ ?_⟩
  rcases h'.entry hs with hbefore | hafter
  · exact (h.entry hbefore).imp_right fun hM ↦ ⟨h'.lasts hM.1, hM.2⟩
  · exact Or.inr hafter

theorem Extends.of_cache_eq (hcache : b'.cache = b.cache)
    (hlasts : ∀ {s}, M s b.world → M s b'.world) : Extends M b b' :=
  ⟨hcache ▸ fun _ _ hs ↦ hs, hlasts, fun hs ↦ Or.inl (hcache ▸ hs)⟩

omit [Scalar α] in
@[simp] theorem inRange_search (e : SearchError α) : InRange φ (.search e) := by
  rintro ⟨⟩

omit [Scalar α] in
theorem inRange_of_ne (h : cause ≠ .missingEntry) : InRange φ (.breakdown cause : Fault α) := by
  rintro ⟨⟩
  exact absurd rfl h

omit [Scalar α] in
theorem inRange_of_raises (h : φ.Raises cause) : InRange φ (.breakdown cause : Fault α) := by
  rintro ⟨⟩
  exact h

theorem inRange_of_secant {x y d e : α} (h : secant x y d e = .error cause) :
    InRange φ (.breakdown cause : Fault α) := by
  refine inRange_of_ne ?_
  rw [eq_of_secant_eq_error h]
  decide

theorem inRange_of_accepts {test : WolfeTest α} {s : Sample α} (h : test.accepts s = .error cause) :
    InRange φ (.breakdown cause : Fault α) := by
  refine inRange_of_ne ?_
  rw [WolfeTest.eq_divisionByZero h]
  decide

theorem inRange_of_secondSecant {low high low' high' mid : Point α}
    (h : secondSecant low high low' high' mid = .error cause) :
    InRange φ (.breakdown cause : Fault α) := by
  rw [secondSecant] at h
  split_ifs at h
  · exact inRange_of_secant h
  · exact inRange_of_secant h

end Invariant

/-! ## Parts of a search -/

/-- The part of a search, from a bench, leads to a later one, with a result of which something is
said, or with a failure that is in range. -/
def Sees (φ : LineFunction ω α) (M : Sample α → ω → Prop) (b : Bench ω α) {A : Type}
    (act : Search ω α A) (Q : A → Bench ω α → Prop) : Prop :=
  match act.run b with
  | (.ok a, b') => Extends M b b' ∧ Q a b'
  | (.error e, b') => Extends M b b' ∧ InRange φ e

section Rules

variable {A B : Type} {φ : LineFunction ω α} {M : Sample α → ω → Prop} {b b' : Bench ω α}
  {act : Search ω α A} {Q : A → Bench ω α → Prop}

theorem Sees.of_run_ok (h : Sees φ M b act Q) {a : A} (hrun : act.run b = (.ok a, b')) :
    Extends M b b' ∧ Q a b' := by
  rwa [Sees, hrun] at h

theorem Sees.of_run_error (h : Sees φ M b act Q) {e : Fault α} (hrun : act.run b = (.error e, b')) :
    Extends M b b' ∧ InRange φ e := by
  rwa [Sees, hrun] at h

theorem Sees.extends (h : Sees φ M b act Q) {r : Except (Fault α) A} (hrun : act.run b = (r, b')) :
    Extends M b b' := by
  cases r with
  | ok a => exact (h.of_run_ok hrun).1
  | error e => exact (h.of_run_error hrun).1

theorem sees_pure {a : A} (ha : Q a b) : Sees φ M b (pure a) Q := ⟨.refl M b, ha⟩

theorem sees_giveUp (e : SearchError α) : Sees φ M b (Search.giveUp e : Search ω α A) Q :=
  ⟨.refl M b, inRange_search e⟩

theorem sees_lift {r : Except Breakdown A}
    (hr : ∀ cause, r = .error cause → InRange φ (.breakdown cause : Fault α)) :
    Sees φ M b (Search.lift r) fun a _ ↦ r = .ok a := by
  cases r with
  | ok a => exact ⟨.refl M b, rfl⟩
  | error cause => exact ⟨.refl M b, hr cause rfl⟩

theorem Sees.bind {k : A → Search ω α B} {R : B → Bench ω α → Prop} (h : Sees φ M b act Q)
    (hk : ∀ a b', Extends M b b' → Q a b' → Sees φ M b' (k a) R) : Sees φ M b (act >>= k) R := by
  rcases hact : act.run b with ⟨e | a, b'⟩
  · rw [Sees, run_bind_error hact]
    exact h.of_run_error hact
  · obtain ⟨hext, ha⟩ := h.of_run_ok hact
    have hrest := hk a b' hext ha
    rw [Sees, run_bind_ok hact]
    rcases hrun : (k a).run b' with ⟨e | a', b''⟩
    · obtain ⟨hext', he⟩ := hrest.of_run_error hrun
      exact ⟨hext.trans hext', he⟩
    · obtain ⟨hext', ha'⟩ := hrest.of_run_ok hrun
      exact ⟨hext.trans hext', ha'⟩

theorem Sees.imp {R : A → Bench ω α → Prop} (h : Sees φ M b act Q) (hQR : ∀ a b', Q a b' → R a b') :
    Sees φ M b act R := by
  rcases hact : act.run b with ⟨e | a, b'⟩
  · rw [Sees, hact]
    exact h.of_run_error hact
  · rw [Sees, hact]
    exact (h.of_run_ok hact).imp_right (hQR a b')

theorem sees_report (e : Event α) : Sees φ M b (Search.report e) fun _ b' ↦ b'.world = b.world :=
  ⟨⟨fun _ _ hs ↦ hs, id, Or.inl⟩, rfl⟩

theorem sees_countFailure : Sees φ M b Search.countFailure fun _ _ ↦ True :=
  ⟨⟨fun _ _ hs ↦ hs, id, Or.inl⟩, trivial⟩

theorem sees_cached {i : ℕ} (hi : i < b.cache.size) :
    Sees φ M b (Search.cached i) fun pt b' ↦ b' = b ∧ Holds b.cache pt := by
  have hentry : b.cache.get? i = some b.cache.samples[i] := Array.getElem?_eq_getElem hi
  rw [Sees, Search.cached, run_bind_ok (run_get b), hentry]
  exact ⟨.refl M b, rfl, hentry⟩

theorem sees_keep {s : Sample α} (hM : M s b.world) (hfinite : finite s = true) :
    Sees φ M b (Search.keep s) fun pt b' ↦ Holds b'.cache pt ∧ pt.toSample = s := by
  refine ⟨⟨Cache.grows_push _ s, id, fun {i s'} hs' ↦ ?_⟩, Cache.get?_push_size _ _, rfl⟩
  rw [Cache.get?, Cache.push, Array.getElem?_push] at hs'
  split_ifs at hs'
  · cases hs'
    exact Or.inr ⟨hM, hfinite⟩
  · exact Or.inl hs'

theorem sees_sampleAt (hφ : φ.Testifies M) (t : α) :
    Sees φ M b (Search.sampleAt φ t) fun s b' ↦ M s b'.world ∧ s.step = t := by
  rcases hrun : (φ.both t).run b.world with ⟨cause | ⟨v, d⟩, w⟩
  · rw [Sees, Search.sampleAt, run_bind_error (Search.run_evaluate_error hrun _)]
    exact ⟨.of_cache_eq rfl fun hM ↦ hφ.lasts_both hM hrun, inRange_of_raises ⟨t, _, _, hrun⟩⟩
  · rw [Sees, Search.sampleAt, run_bind_ok (Search.run_evaluate hrun _)]
    exact ⟨.of_cache_eq rfl fun hM ↦ hφ.lasts_both hM hrun, hφ.both hrun, rfl⟩

end Rules

/-! ## Keeping a bracket -/

section Operations

variable {φ : LineFunction ω α} {M : Sample α → ω → Prop} (hφ : φ.Testifies M) {b : Bench ω α}
  {low high mid : Point α}

include hφ

theorem sees_probe (refusal : α → SearchError α) (t : α) :
    Sees φ M b (probe φ refusal t) fun pt b' ↦ Holds b'.cache pt := by
  rw [probe]
  refine (sees_sampleAt hφ t).bind fun s b₁ _ hs ↦ ?_
  split_ifs with hfinite
  · exact (sees_keep hs.1 hfinite).imp fun pt b₂ hpt ↦ hpt.1
  · exact sees_giveUp _

theorem sees_bisect (limit : α) (fuel : ℕ) (calls : Calls) (hlow : Holds b.cache low)
    (hhigh : Holds b.cache high) :
    Sees φ M b (bisect φ limit fuel calls low high) fun r b' ↦
      Holds b'.cache r.1.1 ∧ Holds b'.cache r.1.2 := by
  induction fuel generalizing calls low high b with
  | zero =>
    rw [bisect]
    split_ifs
    · exact ⟨.refl M b, inRange_of_ne (by decide)⟩
    · exact sees_pure ⟨hlow, hhigh⟩
  | succ fuel ih =>
    rw [bisect]
    split_ifs
    · refine (sees_probe hφ _ _).bind fun mid b₁ hext hmid ↦ ?_
      split_ifs
      · exact sees_pure ⟨hlow.mono hext.grows, hmid⟩
      · exact ih _ hmid (hhigh.mono hext.grows)
      · exact ih _ (hlow.mono hext.grows) hmid
    · exact sees_pure ⟨hlow, hhigh⟩

theorem sees_update (limit : α) (hlow : Holds b.cache low) (hhigh : Holds b.cache high)
    (hmid : Holds b.cache mid) :
    Sees φ M b (update φ limit low high mid) fun r b' ↦
      Holds b'.cache r.1.1 ∧ Holds b'.cache r.1.2 := by
  rw [update]
  split_ifs
  · exact sees_pure ⟨hlow, hhigh⟩
  · exact sees_pure ⟨hlow, hmid⟩
  · exact sees_pure ⟨hmid, hhigh⟩
  · exact sees_bisect hφ limit _ _ hlow hmid

theorem sees_doubleSecant (test : WolfeTest α) (hlow : Holds b.cache low)
    (hhigh : Holds b.cache high) :
    Sees φ M b (doubleSecant φ test low high) fun r b' ↦ r.1.Evident b'.cache := by
  -- the points stay in the cache while it grows from one part of the step to the next
  rw [doubleSecant]
  simp only [Search.giveUp_bind]
  split_ifs
  · refine (sees_lift fun _ ↦ inRange_of_secant).bind fun c b₁ h₁ _ ↦ ?_
    refine (sees_probe hφ _ c).bind fun mid b₂ h₂ hmid ↦ ?_
    refine (sees_lift fun _ ↦ inRange_of_accepts).bind fun accepted b₃ h₃ _ ↦ ?_
    have hext := (h₁.trans h₂).trans h₃
    split_ifs
    · exact sees_pure (hmid.mono h₃.grows)
    refine (sees_update hφ _ (hlow.mono hext.grows) (hhigh.mono hext.grows)
      (hmid.mono h₃.grows)).bind fun r b₄ h₄ hr ↦ ?_
    refine (sees_lift fun _ ↦ inRange_of_secondSecant).bind fun c' b₅ h₅ _ ↦ ?_
    split_ifs
    · refine (sees_probe hφ _ c').bind fun mid' b₆ h₆ hmid' ↦ ?_
      refine (sees_lift fun _ ↦ inRange_of_accepts).bind fun accepted' b₇ h₇ _ ↦ ?_
      have hext' := (h₅.trans h₆).trans h₇
      split_ifs
      · exact sees_pure (hmid'.mono h₇.grows)
      · refine (sees_update hφ _ (hr.1.mono hext'.grows) (hr.2.mono hext'.grows)
          (hmid'.mono h₇.grows)).bind fun r' b₈ _ hr' ↦ ?_
        exact sees_pure hr'
    · exact sees_pure ⟨hr.1.mono h₅.grows, hr.2.mono h₅.grows⟩
  · exact sees_giveUp _

/-! ## The first trial -/

theorem sees_reduce (p : HagerZhang α) (attempts : ℕ) (calls : Calls) {s : Sample α}
    (hs : M s b.world) :
    Sees φ M b (reduce p φ attempts calls s) fun r b' ↦ M r.1 b'.world := by
  induction attempts generalizing calls s b with
  | zero => exact sees_pure hs
  | succ attempts ih =>
    rw [reduce]
    split_ifs
    · exact sees_pure hs
    · refine sees_countFailure.bind fun _ b₁ _ _ ↦ ?_
      exact (sees_sampleAt hφ _).bind fun s' b₂ _ hs' ↦ ih _ hs'.1

theorem sees_firstTrial (p : HagerZhang α) (start : Sample α) (trial : α) (mayAccept : Bool) :
    Sees φ M b (firstTrial p φ start trial mayAccept) fun r b' ↦ r.1.Evident M b' := by
  rw [firstTrial]
  simp only [Search.giveUp_bind]
  split_ifs
  · refine (sees_sampleAt hφ trial).bind fun first b₁ _ hfirst ↦ ?_
    refine (sees_reduce hφ p _ _ hfirst.1).bind fun r b₂ _ hs ↦ ?_
    split_ifs with hfinite
    · refine (sees_keep hs hfinite).bind fun tip b₃ _ htip ↦ ?_
      refine (sees_lift fun _ ↦ inRange_of_accepts).bind fun accepted b₄ h₄ _ ↦ ?_
      split_ifs
      · refine (sees_report _).bind fun _ b₅ h₅ _ ↦ ?_
        have hheld := htip.1.mono (h₄.trans h₅).grows
        exact sees_pure (Or.inr (Or.inl ⟨tip, hheld, congrArg Sample.step htip.2⟩))
      · exact sees_pure (htip.1.mono h₄.grows)
    · refine (sees_keep hs hfinite).bind fun tip b₃ _ htip ↦ ?_
      exact sees_pure htip.1
    · exact (sees_report _).bind fun _ _ _ _ ↦ sees_pure (Or.inl rfl)
  · exact sees_giveUp _
  · exact sees_giveUp _

/-! ## Bracketing -/

omit hφ in
theorem sees_lowEnd (limit : α) {i : ℕ} (hi : i ≤ b.cache.size) (hsize : 0 < b.cache.size) :
    Sees φ M b (lowEnd limit i) fun pt b' ↦ b' = b ∧ Holds b.cache pt := by
  induction i with
  | zero => exact sees_cached hsize
  | succ i ih =>
    rw [lowEnd]
    refine (sees_cached hi).bind fun s b' _ hs ↦ ?_
    obtain ⟨rfl, hheld⟩ := hs
    split_ifs
    · exact sees_pure ⟨rfl, hheld⟩
    · exact ih (Nat.le_of_succ_le hi)

theorem sees_retreat (cold : α) (attempts : ℕ) (calls : Calls) (alphamax : α) {s : Sample α}
    (hs : M s b.world) :
    Sees φ M b (retreat φ cold attempts calls alphamax s) fun r b' ↦ M r.1.sample b'.world := by
  induction attempts generalizing calls alphamax s b with
  | zero => exact sees_pure hs
  | succ attempts ih =>
    rw [retreat]
    split_ifs
    · refine sees_countFailure.bind fun _ b₁ _ _ ↦ ?_
      exact (sees_sampleAt hφ _).bind fun s' b₂ _ hs' ↦ ih _ _ hs'.1
    · exact sees_pure hs

theorem sees_expand (p : HagerZhang α) (alphamax : α) {tip : Point α} (htip : Holds b.cache tip) :
    Sees φ M b (expand p φ alphamax tip) fun r b' ↦ r.1.Evident M b' := by
  rw [expand]
  cases expandedStep p alphamax tip.step with
  | none => exact sees_pure (Or.inr (Or.inl ⟨tip, htip, rfl⟩))
  | some c =>
    refine (sees_sampleAt hφ c).bind fun s b₁ h₁ hs ↦ ?_
    refine (sees_retreat hφ tip.step _ _ alphamax hs.1).bind fun r b₂ h₂ hr ↦ ?_
    dsimp only
    split_ifs with hinfinite
    · exact sees_pure (Or.inr (Or.inl ⟨tip, htip.mono (h₁.trans h₂).grows, rfl⟩))
    all_goals
      rw [Bool.not_eq_true', Bool.not_eq_false] at hinfinite
    · refine (sees_report _).bind fun _ b₃ h₃ _ ↦ ?_
      exact sees_pure (Or.inr (Or.inr ⟨r.1.sample, h₃.lasts hr, hinfinite, rfl⟩))
    · exact sees_pure (Or.inr (Or.inr ⟨r.1.sample, hr, hinfinite, rfl⟩))
    · refine (sees_keep hr hinfinite).bind fun tip' b₃ _ htip' ↦ ?_
      exact sees_pure htip'.1

theorem sees_bracket (p : HagerZhang α) (limit : α) (rounds : ℕ) (calls : Calls) (alphamax : α)
    {tip : Point α} (htip : Holds b.cache tip) :
    Sees φ M b (bracket p φ limit rounds calls alphamax tip) fun r b' ↦ r.1.Evident M b' := by
  induction rounds generalizing calls alphamax tip b with
  | zero => exact sees_giveUp _
  | succ rounds ih =>
    have hlt := Cache.lt_size_of_get? htip
    rw [bracket]
    split_ifs
    · refine (sees_lowEnd limit hlt.le (by omega)).bind fun low b₁ _ hlow ↦ ?_
      obtain ⟨rfl, hheld⟩ := hlow
      exact sees_pure ⟨hheld, htip⟩
    · refine (sees_cached (by omega)).bind fun low b₁ _ hlow ↦ ?_
      obtain ⟨rfl, hheld⟩ := hlow
      refine (sees_bisect hφ limit _ _ hheld htip).bind fun r b₂ _ hr ↦ ?_
      exact sees_pure hr
    · refine (sees_expand hφ p alphamax htip).bind fun r b₁ _ hr ↦ ?_
      obtain ⟨t | ⟨tip', alphamax'⟩, more⟩ := r
      · exact sees_pure hr
      · exact ih _ alphamax' hr

theorem sees_approach (p : HagerZhang α) (start : Sample α) (trial : α) (mayAccept : Bool) :
    Sees φ M b (approach p φ start trial mayAccept) fun r b' ↦ r.1.Evident M b' := by
  rw [approach_eq]
  refine (sees_firstTrial hφ p start trial mayAccept).bind fun r b₁ _ hr ↦ ?_
  obtain ⟨t | ⟨tip, alphamax⟩, calls⟩ := r
  · exact sees_pure hr
  · exact sees_bracket hφ p _ _ calls alphamax hr

/-! ## Narrowing -/

theorem sees_round (p : HagerZhang α) (test : WolfeTest α) (hlow : Holds b.cache low)
    (hhigh : Holds b.cache high) :
    Sees φ M b (round p φ test low high) fun r b' ↦ r.1.Evident M b' := by
  rw [round]
  split_ifs
  · exact sees_pure (Or.inl ⟨low, hlow, rfl⟩)
  refine (sees_doubleSecant hφ test hlow hhigh).bind fun r b₁ _ hr ↦ ?_
  obtain ⟨point | ⟨low', high'⟩, calls⟩ := r
  · exact sees_pure (Or.inl ⟨point, hr, rfl⟩)
  · dsimp only
    split_ifs
    · exact sees_pure (Or.inl ⟨low', hr.1, rfl⟩)
    · exact sees_pure hr
    · refine (sees_probe hφ _ _).bind fun mid b₂ h₂ hmid ↦ ?_
      refine (sees_update hφ _ (hr.1.mono h₂.grows) (hr.2.mono h₂.grows) hmid).bind
        fun r' b₃ _ hr' ↦ ?_
      exact sees_pure hr'

theorem sees_narrow (p : HagerZhang α) (test : WolfeTest α) (rounds : ℕ) (calls : Calls)
    (hlow : Holds b.cache low) (hhigh : Holds b.cache high) :
    Sees φ M b (narrow p φ test rounds calls low high) fun r b' ↦ Backed M b' r.alpha := by
  induction rounds generalizing calls low high b with
  | zero => exact sees_giveUp _
  | succ rounds ih =>
    rw [narrow]
    refine (sees_round hφ p test hlow hhigh).bind fun r b₁ _ hr ↦ ?_
    obtain ⟨t | ⟨low', high'⟩, more⟩ := r
    · exact sees_pure hr
    · exact ih _ hr.1 hr.2

/-! ## Whole searches -/

/-- However a search ends, the cache has grown by finite samples that are testified. A search that
returns has seen a finite sample at its step, or has cached one, unless it returns the zero step. -/
theorem sees_step (p : HagerZhang α) (trial : α) (mayAccept : Bool) (hsize : 0 < b.cache.size) :
    Sees φ M b (step p φ trial mayAccept) fun r b' ↦ r.alpha = 0.0 ∨ Backed M b' r.alpha := by
  rw [step]
  refine (sees_cached hsize).bind fun start b₁ _ hstart ↦ ?_
  obtain ⟨rfl, -⟩ := hstart
  refine (sees_approach hφ p start.toSample trial mayAccept).bind fun r b₂ _ hr ↦ ?_
  obtain ⟨t | ⟨low, high, rounds⟩, calls⟩ := r
  · exact sees_pure hr
  · exact (sees_narrow hφ p _ rounds calls hr.1 hr.2).imp fun r b₃ hr' ↦ Or.inr hr'

/-! ## The states of a search -/

section States

variable {p : HagerZhang α} {start : Sample α} {trial : α} {mayAccept : Bool}
  {b₀ b' : Bench ω α} {rounds : ℕ} {alphamax : α} {tip : Point α} {r : Except (Fault α) (Step α)}

theorem AtTip.extends (h : AtTip p φ start trial mayAccept b₀ rounds alphamax tip b) :
    Extends M b₀ b ∧ Holds b.cache tip := by
  induction h with
  | first htrial => exact (sees_firstTrial hφ p start trial mayAccept).of_run_ok htrial
  | next _ _ _ hexpand ih =>
    obtain ⟨hext, htip⟩ := ih
    obtain ⟨hext', htip'⟩ := (sees_expand hφ p _ htip).of_run_ok hexpand
    exact ⟨hext.trans hext', htip'⟩

theorem AtRound.extends (h : AtRound p φ start trial mayAccept b₀ rounds low high b) :
    Extends M b₀ b ∧ Holds b.cache low ∧ Holds b.cache high := by
  induction h with
  | first happroach => exact (sees_approach hφ p start trial mayAccept).of_run_ok happroach
  | next _ hround ih =>
    obtain ⟨hext, hlow, hhigh⟩ := ih
    obtain ⟨hext', hends⟩ := (sees_round hφ p _ hlow hhigh).of_run_ok hround
    exact ⟨hext.trans hext', hends⟩

theorem AtTip.extends_of_run (hstart : b₀.cache.get? 0 = some start)
    (h : AtTip p φ start trial mayAccept b₀ rounds alphamax tip b)
    (hrun : (step p φ trial mayAccept).run b₀ = (r, b')) : Extends M b b' := by
  obtain ⟨calls, hresume⟩ := h.resume
  have hbracket := sees_bracket hφ p (p.test start).limit rounds calls alphamax (h.extends hφ).2
  rw [step, run_bind_ok (Search.run_cached hstart)] at hrun
  rcases hresult : (bracket p φ (p.test start).limit rounds calls alphamax tip).run b with
    ⟨e | ⟨t | ⟨low, high, k⟩, total⟩, b₁⟩
  -- the approach fails, ends the search, or hands a bracket to the rounds
  · rw [run_bind_error (hresume.trans hresult)] at hrun
    cases hrun
    exact hbracket.extends hresult
  · rw [run_bind_ok (hresume.trans hresult)] at hrun
    cases hrun
    exact hbracket.extends hresult
  · rw [run_bind_ok (hresume.trans hresult)] at hrun
    obtain ⟨hext, hlow, hhigh⟩ := hbracket.of_run_ok hresult
    exact hext.trans ((sees_narrow hφ p _ k total hlow hhigh).extends hrun)

theorem AtRound.extends_of_run (hstart : b₀.cache.get? 0 = some start)
    (h : AtRound p φ start trial mayAccept b₀ rounds low high b)
    (hrun : (step p φ trial mayAccept).run b₀ = (r, b')) : Extends M b b' := by
  obtain ⟨-, hlow, hhigh⟩ := h.extends hφ
  obtain ⟨calls, hresume⟩ := h.resume hstart
  rw [hresume] at hrun
  exact (sees_narrow hφ p _ rounds calls hlow hhigh).extends hrun

end States

end Operations

/-- A search that returns the zero step had a finite start. At any other step that it returns it has
seen a finite sample. -/
theorem seen_of_run {φ : LineFunction ω α} {M : Sample α → ω → Prop} (hφ : φ.Testifies M)
    {p : HagerZhang α} {start : Sample α} {trial : α} {mayAccept : Bool} {b₀ b : Bench ω α}
    {r : Step α} (hstart : b₀.cache.samples = #[start]) (hzero : start.step = 0.0)
    (hrun : (step p φ trial mayAccept).run b₀ = (.ok r, b)) :
    (r.alpha = 0.0 ∧ finite start = true) ∨
      ∃ s, M s b.world ∧ finite s = true ∧ s.step = r.alpha := by
  have hentry := Cache.get?_zero_of_samples_eq hstart
  have hfinite : finite start = true := by
    rw [step, run_bind_ok (Search.run_cached hentry)] at hrun
    obtain ⟨_, _, happroach, -⟩ := run_bind_eq_ok hrun
    exact finite_of_approach happroach
  obtain ⟨hext, hend⟩ :=
    (sees_step hφ p trial mayAccept (Cache.lt_size_of_get? hentry)).of_run_ok hrun
  rcases hend with hend | ⟨pt, hheld, hstep⟩ | hseen
  · exact Or.inl ⟨hend, hfinite⟩
  · rcases hext.entry hheld with hbefore | ⟨hM, hpt⟩
    · -- the only point that was cached before is the start
      have hmem : pt.toSample ∈ b₀.cache.samples := Array.mem_of_getElem? hbefore
      rw [hstart, Array.mem_singleton] at hmem
      exact Or.inl ⟨by rw [← hstep, hmem, hzero], hfinite⟩
    · exact Or.inr ⟨pt.toSample, hM, hpt, hstep⟩
  · exact Or.inr hseen

end HagerZhang

/-! ## Backtracking -/

namespace Backtracking

variable {φ : LineFunction ω α} {M : Sample α → ω → Prop} (hφ : φ.Testifies M)

include hφ

theorem valueAt_testifies (t : α) (b : Bench ω α) :
    Meets (Search.valueAt φ t) b (fun v b' ↦ M ⟨t, v, Scalar.nan⟩ b'.world) fun _ _ ↦ True := by
  refine (Search.meets_valueAt φ t b).imp ?_ fun _ _ _ ↦ trivial
  rintro v _ ⟨w, hrun, rfl⟩
  exact hφ.value hrun

theorem descend_testifies (p : Backtracking α) (start : Sample α) (reductions : ℕ) (calls : Calls)
    {t v : α} {b : Bench ω α} (hM : M ⟨t, v, Scalar.nan⟩ b.world) :
    Meets (p.descend φ start reductions calls t v) b
      (fun r b' ↦ M ⟨r.1.1, r.1.2, Scalar.nan⟩ b'.world ∧ Scalar.isFinite r.1.2 = true)
      fun _ _ ↦ True := by
  have hfinite : ∀ {t v : α}, ¬p.rejects start t v = true → Scalar.isFinite v = true := by
    intro t v h
    by_contra hinfinite
    rw [rejects, Bool.eq_false_iff.mpr hinfinite] at h
    exact h rfl
  induction reductions generalizing calls t v b with
  | zero =>
    rw [descend]
    split_ifs with hrejects
    · trivial
    · exact ⟨hM, hfinite hrejects⟩
  | succ reductions ih =>
    rw [descend]
    split_ifs with hrejects
    · refine Meets.bind ((Search.meets_lift _ b).imp_error fun _ _ _ ↦ trivial) ?_
      rintro t' _ ⟨-, rfl⟩
      exact (valueAt_testifies hφ t' _).bind fun v' b' hM' ↦ ih _ hM'
    · refine (Search.meets_countFailure b).bind ?_
      rintro - _ rfl
      exact (valueAt_testifies hφ _ _).bind fun v' b' hM' ↦ ih _ hM'
    · exact ⟨hM, hfinite hrejects⟩

theorem seen_of_run {p : Backtracking α} {trial : α} {b₀ b : Bench ω α} {r : Step α}
    (hrun : (p.step φ trial).run b₀ = (.ok r, b)) :
    ∃ s, M s b.world ∧ Scalar.isFinite s.value = true ∧ s.step = r.alpha := by
  have hstep : Meets (p.step φ trial) b₀ (fun r b' ↦ ∃ s, M s b'.world ∧
      Scalar.isFinite s.value = true ∧ s.step = r.alpha) fun _ _ ↦ True := by
    rw [step]
    refine Meets.bind ((Search.meets_cached 0 b₀).imp_error fun _ _ _ ↦ trivial) ?_
    rintro start _ ⟨rfl, -⟩
    split_ifs
    · refine (valueAt_testifies hφ trial _).bind fun v b₁ hM ↦ ?_
      refine (descend_testifies hφ p start.toSample _ _ hM).bind fun r b₂ hr ↦ ?_
      exact ⟨_, hr.1, hr.2, rfl⟩
    · trivial
  exact hstep.of_run_ok hrun

end Backtracking

/-! ## Both searches -/

/-- The step of a line search from a trial step that may be accepted at once. -/
def Strategy.step (S : Strategy α) (φ : LineFunction ω α) (trial : α) (mayAccept : Bool) :
    Search ω α (Step α) :=
  match S with
  | .hagerZhang p => p.step φ trial mayAccept
  | .backtracking p => p.step φ trial

/-- A search that returns has seen a finite value at its step, unless it returns the zero step from
a finite start. -/
theorem Strategy.seen_of_run {φ : LineFunction ω α} {M : Sample α → ω → Prop} (hφ : φ.Testifies M)
    {S : Strategy α} {start : Sample α} {trial : α} {mayAccept : Bool} {b₀ b : Bench ω α}
    {r : Step α} (hstart : b₀.cache.samples = #[start]) (hzero : start.step = 0.0)
    (hrun : (S.step φ trial mayAccept).run b₀ = (.ok r, b)) :
    (r.alpha = 0.0 ∧ HagerZhang.finite start = true) ∨
      ∃ s, M s b.world ∧ Scalar.isFinite s.value = true ∧ s.step = r.alpha := by
  cases S with
  | hagerZhang p =>
    refine (HagerZhang.seen_of_run hφ hstart hzero hrun).imp_right ?_
    rintro ⟨s, hM, hfinite, hstep⟩
    exact ⟨s, hM, (Bool.and_eq_true_iff.mp hfinite).1, hstep⟩
  | backtracking p => exact Or.inr (Backtracking.seen_of_run hφ hrun)

end NonlinearCG
