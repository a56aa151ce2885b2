import Mathlib
import NonlinearCG.LineSearch.Strategy
import NonlinearCG.LineSearch.TrialStep
import NonlinearCG.Proofs.LineSearch.Bench

/-!
# The course of a search

Every part of a line search is made of a few moves on its bench: it evaluates the function along the
ray, counts a refused evaluation, caches a sample that an evaluation gave, and reports. `Course` is
the relation between two benches that such moves lead from one to the other. It does not matter
what the search compares, so the relation holds for any type of scalars and any function, with a
state or without.

`KeepsTo` says of a part of a search that it takes such a course, also where it gives up. It is
proved here once for every part of the prediction, of the Hager–Zhang search and of backtracking;
what the moves preserve then holds of all of them.
-/

namespace NonlinearCG

variable {ω α A B : Type}

/-! ## Moves on a bench -/

section Moves

variable [Scalar α]

/-- A sample that an evaluation gave: of value and slope, or of the value alone. -/
inductive LineFunction.Gives (φ : LineFunction ω α) : Sample α → Prop
  | both {s : Sample α} : φ.Samples s → Gives φ s
  | value {t v : α} {w w' : ω} : (φ.value t).run w = (.ok v, w') → Gives φ ⟨t, v, Scalar.nan⟩

/-- A bench that a search along a function comes to from a given one. -/
inductive Course (φ : LineFunction ω α) (b₀ : Bench ω α) : Bench ω α → Prop
  | start : Course φ b₀ b₀
  | value {b : Bench ω α} {t v : α} {w : ω} : Course φ b₀ b →
      (φ.value t).run b.world = (.ok v, w) →
      Course φ b₀ { b with world := w, made := b.made + .ofValue }
  | both {b : Bench ω α} {t : α} {r : α × α} {w : ω} : Course φ b₀ b →
      (φ.both t).run b.world = (.ok r, w) →
      Course φ b₀ { b with world := w, made := b.made + .ofBoth }
  | refuse {b : Bench ω α} : Course φ b₀ b → Course φ b₀ { b with cache := b.cache.fail 1 }
  | keep {b : Bench ω α} {s : Sample α} : Course φ b₀ b → φ.Gives s →
      Course φ b₀ { b with cache := b.cache.push s }
  | report {b : Bench ω α} (e : Event α) : Course φ b₀ b →
      Course φ b₀ { b with log := b.log.push e }

namespace Course

variable {φ : LineFunction ω α} {b₀ b b' : Bench ω α}

theorem trans (h : Course φ b₀ b) (h' : Course φ b b') : Course φ b₀ b' := by
  induction h' with
  | start => exact h
  | value _ hrun ih => exact ih.value hrun
  | both _ hrun ih => exact ih.both hrun
  | refuse _ ih => exact ih.refuse
  | keep _ hs ih => exact ih.keep hs
  | report e _ ih => exact ih.report e

theorem gives (h : Course φ b₀ b) {i : ℕ} {s : Sample α} (hs : b.cache.get? i = some s) :
    b₀.cache.get? i = some s ∨ φ.Gives s := by
  induction h with
  | start => exact Or.inl hs
  | value _ _ ih | both _ _ ih | refuse _ ih | report _ _ ih => exact ih hs
  | @keep b s' _ hs' ih =>
    rw [Cache.get?, Cache.push, Array.getElem?_push] at hs
    split_ifs at hs
    · cases hs
      exact Or.inr hs'
    · exact ih hs

end Course

/-- The part of a search evaluates nothing but the function, takes a course along it, and returns
what is said of it. Where a breakdown ends it, nothing is said. -/
def Search.KeepsTo (φ : LineFunction ω α) (act : Search ω α A) (Q : A → Prop) : Prop :=
  ∀ b, match act.run b with
    | (.ok a, b') => Course φ b b' ∧ Q a
    | (.error (.search _), b') => Course φ b b'
    | (.error (.breakdown _), _) => True

end Moves

/-! ## Parts of a search -/

namespace Search

section Rules

variable [Scalar α] {φ : LineFunction ω α} {act : Search ω α A} {Q : A → Prop}

theorem KeepsTo.course_of_ok (h : KeepsTo φ act Q) {b b' : Bench ω α} {a : A}
    (hrun : act.run b = (.ok a, b')) : Course φ b b' ∧ Q a := by
  have hb := h b
  rwa [hrun] at hb

theorem keepsTo_pure {a : A} (ha : Q a) : KeepsTo φ (pure a) Q := fun _ ↦ ⟨.start, ha⟩

theorem keepsTo_giveUp (e : SearchError α) : KeepsTo φ (giveUp e : Search ω α A) Q :=
  fun _ ↦ Course.start


theorem keepsTo_lift (r : Except Breakdown A) :
    KeepsTo φ (lift r : Search ω α A) fun _ ↦ True := by
  intro b
  cases r with
  | ok a => exact ⟨.start, trivial⟩
  | error cause => trivial

theorem KeepsTo.bind {k : A → Search ω α B} {R : B → Prop} (h : KeepsTo φ act Q)
    (hk : ∀ a, Q a → KeepsTo φ (k a) R) : KeepsTo φ (act >>= k) R := by
  intro b
  have hb := h b
  rcases hact : act.run b with ⟨(cause | e) | a, b'⟩
  · rw [run_bind_error hact]
    trivial
  · rw [run_bind_error hact]
    rwa [hact] at hb
  · rw [run_bind_ok hact]
    rw [hact] at hb
    have hrest := hk a hb.2 b'
    rcases hrun : (k a).run b' with ⟨(cause | e) | a', b''⟩
    · trivial
    · rw [hrun] at hrest
      exact hb.1.trans hrest
    · rw [hrun] at hrest
      exact ⟨hb.1.trans hrest.1, hrest.2⟩

theorem keepsTo_cached (i : ℕ) : KeepsTo φ (cached i) fun _ ↦ True := by
  intro b
  rw [cached, run_bind_ok (run_get b)]
  cases b.cache.get? i with
  | some s => exact ⟨.start, trivial⟩
  | none => trivial

theorem keepsTo_report (e : Event α) : KeepsTo φ (report e) fun _ ↦ True :=
  fun _ ↦ ⟨.report e .start, trivial⟩

theorem keepsTo_countFailure : KeepsTo φ countFailure fun _ ↦ True :=
  fun _ ↦ ⟨.refuse .start, trivial⟩

theorem keepsTo_keep {s : Sample α} (hs : φ.Gives s) : KeepsTo φ (keep s) fun _ ↦ True :=
  fun _ ↦ ⟨.keep .start hs, trivial⟩

theorem keepsTo_valueAt (t : α) : KeepsTo φ (valueAt φ t) fun v ↦ φ.Gives ⟨t, v, Scalar.nan⟩ := by
  intro b
  rcases hrun : (φ.value t).run b.world with ⟨cause | v, w⟩
  · rw [valueAt, run_evaluate_error hrun]
    trivial
  · rw [valueAt, run_evaluate hrun]
    exact ⟨.value .start hrun, .value hrun⟩

theorem keepsTo_sampleAt (t : α) : KeepsTo φ (sampleAt φ t) φ.Gives := by
  intro b
  rcases hrun : (φ.both t).run b.world with ⟨cause | ⟨v, d⟩, w⟩
  · rw [sampleAt, run_bind_error (run_evaluate_error hrun _)]
    trivial
  · rw [sampleAt, run_bind_ok (run_evaluate hrun _)]
    exact ⟨.both .start hrun, .both ⟨_, _, hrun⟩⟩

end Rules

end Search

open Search

variable [Scalar α] {φ : LineFunction ω α}

/-! ## Prediction -/

namespace TrialStep

theorem keepsTo_reduce (rule : Rule α) (reductions : ℕ) (calls : Calls) (t v : α) :
    KeepsTo φ (TrialStep.reduce rule φ reductions calls t v) fun _ ↦ True := by
  induction reductions generalizing calls t v with
  | zero => exact keepsTo_pure trivial
  | succ reductions ih =>
    rw [TrialStep.reduce]
    split_ifs
    · exact keepsTo_pure trivial
    · refine (keepsTo_valueAt _).bind fun v _ ↦ ?_
      refine keepsTo_countFailure.bind fun _ _ ↦ ?_
      exact ih _ _ v

theorem keepsTo_propose (rule : Rule α) (alpha : α) :
    KeepsTo φ (propose rule φ alpha) fun _ ↦ True := by
  rw [propose]
  refine (keepsTo_cached 0).bind fun start _ ↦ ?_
  refine (keepsTo_valueAt _).bind fun v _ ↦ ?_
  refine (keepsTo_reduce rule _ _ _ v).bind fun r _ ↦ ?_
  obtain ⟨_ | r, calls⟩ := r
  · exact keepsTo_pure trivial
  · exact (keepsTo_lift _).bind fun _ _ ↦ keepsTo_pure trivial

end TrialStep

/-! ## Backtracking -/

namespace Backtracking

theorem keepsTo_descend (p : Backtracking α) (start : Sample α) (reductions : ℕ) (calls : Calls)
    {t v : α} (hv : φ.Gives ⟨t, v, Scalar.nan⟩) :
    KeepsTo φ (p.descend φ start reductions calls t v)
      fun r ↦ φ.Gives ⟨r.1.1, r.1.2, Scalar.nan⟩ := by
  induction reductions generalizing calls t v with
  | zero =>
    rw [descend]
    split_ifs
    · exact keepsTo_giveUp _
    · exact keepsTo_pure hv
  | succ reductions ih =>
    rw [descend]
    split_ifs
    · refine (keepsTo_lift _).bind fun t' _ ↦ ?_
      exact (keepsTo_valueAt t').bind fun v' hv' ↦ ih _ hv'
    · refine keepsTo_countFailure.bind fun _ _ ↦ ?_
      exact (keepsTo_valueAt _).bind fun v' hv' ↦ ih _ hv'
    · exact keepsTo_pure hv

theorem keepsTo_step (p : Backtracking α) (trial : α) :
    KeepsTo φ (p.step φ trial) fun _ ↦ True := by
  rw [step]
  refine (keepsTo_cached 0).bind fun start _ ↦ ?_
  split_ifs
  · refine (keepsTo_valueAt trial).bind fun v hv ↦ ?_
    refine (keepsTo_descend p start.toSample _ _ hv).bind fun r hr ↦ ?_
    exact (keepsTo_keep hr).bind fun _ _ ↦ keepsTo_pure trivial
  · exact keepsTo_giveUp _

end Backtracking

/-! ## The Hager–Zhang search -/

namespace HagerZhang

theorem keepsTo_probe (refusal : α → SearchError α) (t : α) :
    KeepsTo φ (probe φ refusal t) fun _ ↦ True := by
  rw [probe]
  refine (keepsTo_sampleAt t).bind fun s hs ↦ ?_
  split_ifs
  · exact keepsTo_keep hs
  · exact keepsTo_giveUp _

theorem keepsTo_bisect (limit : α) (fuel : ℕ) (calls : Calls) (low high : Point α) :
    KeepsTo φ (bisect φ limit fuel calls low high) fun _ ↦ True := by
  induction fuel generalizing calls low high with
  | zero =>
    rw [bisect]
    split_ifs
    · exact fun _ ↦ trivial
    · exact keepsTo_pure trivial
  | succ fuel ih =>
    rw [bisect]
    split_ifs
    · refine (keepsTo_probe _ _).bind fun mid _ ↦ ?_
      split_ifs
      · exact keepsTo_pure trivial
      · exact ih _ mid high
      · exact ih _ low mid
    · exact keepsTo_pure trivial

theorem keepsTo_update (limit : α) (low high mid : Point α) :
    KeepsTo φ (update φ limit low high mid) fun _ ↦ True := by
  rw [update]
  split_ifs
  · exact keepsTo_pure trivial
  · exact keepsTo_pure trivial
  · exact keepsTo_pure trivial
  · exact keepsTo_bisect limit _ _ low mid

theorem keepsTo_doubleSecant (test : WolfeTest α) (low high : Point α) :
    KeepsTo φ (doubleSecant φ test low high) fun _ ↦ True := by
  rw [doubleSecant]
  split_ifs
  · refine (keepsTo_lift _).bind fun c _ ↦ ?_
    refine (keepsTo_probe _ c).bind fun mid _ ↦ ?_
    refine (keepsTo_lift _).bind fun accepted _ ↦ ?_
    split_ifs
    · exact keepsTo_pure trivial
    refine (keepsTo_update _ low high mid).bind fun r _ ↦ ?_
    refine (keepsTo_lift _).bind fun c' _ ↦ ?_
    split_ifs
    · refine (keepsTo_probe _ c').bind fun mid' _ ↦ ?_
      refine (keepsTo_lift _).bind fun accepted' _ ↦ ?_
      split_ifs
      · exact keepsTo_pure trivial
      · exact (keepsTo_update _ _ _ mid').bind fun _ _ ↦ keepsTo_pure trivial
    · exact keepsTo_pure trivial
  · exact keepsTo_giveUp _

theorem keepsTo_reduce (p : HagerZhang α) (attempts : ℕ) (calls : Calls) {s : Sample α}
    (hs : φ.Gives s) : KeepsTo φ (p.reduce φ attempts calls s) fun r ↦ φ.Gives r.1 := by
  induction attempts generalizing calls s with
  | zero => exact keepsTo_pure hs
  | succ attempts ih =>
    rw [reduce]
    split_ifs
    · exact keepsTo_pure hs
    · refine keepsTo_countFailure.bind fun _ _ ↦ ?_
      exact (keepsTo_sampleAt _).bind fun s' hs' ↦ ih _ hs'

theorem keepsTo_lowEnd (limit : α) (i : ℕ) :
    KeepsTo φ (lowEnd limit i : Search ω α _) fun _ ↦ True := by
  induction i with
  | zero => exact keepsTo_cached 0
  | succ i ih =>
    rw [lowEnd]
    refine (keepsTo_cached i).bind fun s _ ↦ ?_
    split_ifs
    · exact keepsTo_pure trivial
    · exact ih

theorem keepsTo_retreat (cold : α) (attempts : ℕ) (calls : Calls) (alphamax : α) {s : Sample α}
    (hs : φ.Gives s) :
    KeepsTo φ (retreat φ cold attempts calls alphamax s) fun r ↦ φ.Gives r.1.sample := by
  induction attempts generalizing calls alphamax s with
  | zero => exact keepsTo_pure hs
  | succ attempts ih =>
    rw [retreat]
    split_ifs
    · refine keepsTo_countFailure.bind fun _ _ ↦ ?_
      exact (keepsTo_sampleAt _).bind fun s' hs' ↦ ih _ _ hs'
    · exact keepsTo_pure hs

theorem keepsTo_expand (p : HagerZhang α) (alphamax : α) (tip : Point α) :
    KeepsTo φ (p.expand φ alphamax tip) fun _ ↦ True := by
  rw [expand]
  cases p.expandedStep alphamax tip.step with
  | none => exact keepsTo_pure trivial
  | some c =>
    refine (keepsTo_sampleAt c).bind fun s hs ↦ ?_
    refine (keepsTo_retreat tip.step _ _ alphamax hs).bind fun r hr ↦ ?_
    dsimp only
    split_ifs
    · exact keepsTo_pure trivial
    · exact (keepsTo_report _).bind fun _ _ ↦ keepsTo_pure trivial
    · exact keepsTo_pure trivial
    · exact (keepsTo_keep hr).bind fun _ _ ↦ keepsTo_pure trivial

theorem keepsTo_bracket (p : HagerZhang α) (limit : α) (rounds : ℕ) (calls : Calls) (alphamax : α)
    (tip : Point α) : KeepsTo φ (p.bracket φ limit rounds calls alphamax tip) fun _ ↦ True := by
  induction rounds generalizing calls alphamax tip with
  | zero => exact keepsTo_giveUp _
  | succ rounds ih =>
    rw [bracket]
    split_ifs
    · exact (keepsTo_lowEnd limit _).bind fun _ _ ↦ keepsTo_pure trivial
    · refine (keepsTo_cached _).bind fun low _ ↦ ?_
      exact (keepsTo_bisect limit _ _ low tip).bind fun _ _ ↦ keepsTo_pure trivial
    · refine (keepsTo_expand p alphamax tip).bind fun r _ ↦ ?_
      obtain ⟨t | ⟨tip, alphamax⟩, more⟩ := r
      · exact keepsTo_pure trivial
      · exact ih _ alphamax tip

theorem keepsTo_approach (p : HagerZhang α) (start : Sample α) (trial : α) (mayAccept : Bool) :
    KeepsTo φ (p.approach φ start trial mayAccept) fun _ ↦ True := by
  rw [approach]
  simp only [giveUp_bind]
  split_ifs
  · refine (keepsTo_sampleAt trial).bind fun first hfirst ↦ ?_
    refine (keepsTo_reduce p _ _ hfirst).bind fun s hs ↦ ?_
    split_ifs
    · refine (keepsTo_keep hs).bind fun tip _ ↦ ?_
      refine (keepsTo_lift _).bind fun accepted _ ↦ ?_
      split_ifs
      · exact (keepsTo_report _).bind fun _ _ ↦ keepsTo_pure trivial
      · exact keepsTo_bracket p _ _ _ _ tip
    · exact (keepsTo_keep hs).bind fun tip _ ↦ keepsTo_bracket p _ _ _ _ tip
    · exact (keepsTo_report _).bind fun _ _ ↦ keepsTo_pure trivial
  · exact keepsTo_giveUp _
  · exact keepsTo_giveUp _

theorem keepsTo_round (p : HagerZhang α) (test : WolfeTest α) (low high : Point α) :
    KeepsTo φ (p.round φ test low high) fun _ ↦ True := by
  rw [round]
  split_ifs
  · exact keepsTo_pure trivial
  refine (keepsTo_doubleSecant test low high).bind fun r _ ↦ ?_
  obtain ⟨point | ⟨low', high'⟩, calls⟩ := r
  · exact keepsTo_pure trivial
  · dsimp only
    split_ifs
    · exact keepsTo_pure trivial
    · exact keepsTo_pure trivial
    · refine (keepsTo_probe _ _).bind fun mid _ ↦ ?_
      exact (keepsTo_update _ low' high' mid).bind fun _ _ ↦ keepsTo_pure trivial

theorem keepsTo_narrow (p : HagerZhang α) (test : WolfeTest α) (rounds : ℕ) (calls : Calls)
    (low high : Point α) : KeepsTo φ (p.narrow φ test rounds calls low high) fun _ ↦ True := by
  induction rounds generalizing calls low high with
  | zero => exact keepsTo_giveUp _
  | succ rounds ih =>
    rw [narrow]
    refine (keepsTo_round p test low high).bind fun r _ ↦ ?_
    obtain ⟨t | ⟨low, high⟩, more⟩ := r
    · exact keepsTo_pure trivial
    · exact ih _ low high

theorem keepsTo_step (p : HagerZhang α) (trial : α) (mayAccept : Bool) :
    KeepsTo φ (p.step φ trial mayAccept) fun _ ↦ True := by
  rw [step]
  refine (keepsTo_cached 0).bind fun start _ ↦ ?_
  refine (keepsTo_approach p _ trial mayAccept).bind fun r _ ↦ ?_
  obtain ⟨t | ⟨low, high, rounds⟩, calls⟩ := r
  · exact keepsTo_pure trivial
  · exact keepsTo_narrow p _ rounds _ low high

end HagerZhang

end NonlinearCG
