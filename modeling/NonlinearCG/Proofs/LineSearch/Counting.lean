import Mathlib
import NonlinearCG.LineSearch.Strategy
import NonlinearCG.LineSearch.TrialStep
import NonlinearCG.Proofs.LineSearch.Bench

/-!
# The accounts that a search keeps

Every part of a search adds up its evaluations by itself and hands the account on. `Counts` says
that this goes right: what a part adds to the account with which it begins is what its bench has
seen of evaluations in the meantime. The rules for it follow the way in which parts are put
together, and each part of the prediction, of backtracking and of the Hager–Zhang search is shown to
count right once, whatever it compares and whatever the function along the ray does.
-/

namespace NonlinearCG

variable {ω α A B : Type}

namespace Calls

instance : Zero Calls := ⟨{}⟩

instance : AddCommMonoid Calls where
  add_assoc a b c := congrArg₂ Calls.mk (Nat.add_assoc ..) (Nat.add_assoc ..)
  zero_add a := congrArg₂ Calls.mk (Nat.zero_add _) (Nat.zero_add _)
  add_zero _ := rfl
  add_comm a b := congrArg₂ Calls.mk (Nat.add_comm ..) (Nat.add_comm ..)
  nsmul := nsmulRec

instance : IsRightCancelAdd Calls where
  add_right_cancel c _ _ h := congrArg₂ Calls.mk
    (Nat.add_right_cancel (m := c.values) (congrArg Calls.values h))
    (Nat.add_right_cancel (m := c.gradients) (congrArg Calls.gradients h))

end Calls

namespace Search

/-- A part of a search that begins with an account and returns one has added its evaluations. -/
def Counts (act : Search ω α A) (calls : Calls) (account : A → Calls) : Prop :=
  ∀ b a b', act.run b = (.ok a, b') → account a + b.made = calls + b'.made

section Rules

variable {act : Search ω α A} {calls : Calls} {account : A → Calls}

theorem Counts.bind {f : A → Search ω α B} {account' : B → Calls} (h : Counts act calls account)
    (hf : ∀ a, Counts (f a) (account a) account') : Counts (act >>= f) calls account' := by
  intro b r b'' hrun
  obtain ⟨a, b', hact, hrest⟩ := run_bind_eq_ok hrun
  refine add_right_cancel (b := b'.made) ?_
  calc account' r + b.made + b'.made
      = account' r + b'.made + b.made := add_right_comm ..
    _ = account a + b''.made + b.made := by rw [hf a _ _ _ hrest]
    _ = account a + b.made + b''.made := add_right_comm ..
    _ = calls + b'.made + b''.made := by rw [h _ _ _ hact]
    _ = calls + b''.made + b'.made := add_right_comm ..

/-- What was counted before a part begins an account of its own is added to it. -/
theorem Counts.add (h : Counts act calls account) (before : Calls) :
    Counts act (before + calls) fun a ↦ before + account a := by
  intro b a b' hrun
  rw [add_assoc, h b a b' hrun, add_assoc]

theorem counts_of_made_eq (h : ∀ b a b', act.run b = (.ok a, b') → b'.made = b.made)
    (calls : Calls) : Counts act calls fun _ ↦ calls := by
  intro b a b' hrun
  rw [h b a b' hrun]

theorem counts_pure {a : A} (h : account a = calls) :
    Counts (pure a : Search ω α A) calls account := by
  rintro b _ _ ⟨⟩
  rw [h]

theorem counts_throw (e : Fault α) : Counts (throw e : Search ω α A) calls account := by
  rintro b a b' ⟨⟩

theorem counts_lift (r : Except Breakdown A) (calls : Calls) :
    Counts (lift r : Search ω α A) calls fun _ ↦ calls := by
  refine counts_of_made_eq (fun b a b' hrun ↦ ?_) calls
  obtain ⟨-, rfl⟩ := (meets_lift r b).of_run_ok hrun
  rfl

theorem counts_cached (i : ℕ) (calls : Calls) :
    Counts (cached i : Search ω α (Point α)) calls fun _ ↦ calls := by
  refine counts_of_made_eq (fun b pt b' hrun ↦ ?_) calls
  obtain ⟨rfl, -⟩ := (meets_cached i b).of_run_ok hrun
  rfl

theorem counts_keep (s : Sample α) (calls : Calls) :
    Counts (keep s : Search ω α (Point α)) calls fun _ ↦ calls := by
  refine counts_of_made_eq ?_ calls
  rintro b _ _ ⟨⟩
  rfl

theorem counts_report (e : Event α) (calls : Calls) :
    Counts (report e : Search ω α Unit) calls fun _ ↦ calls := by
  refine counts_of_made_eq ?_ calls
  rintro b _ _ ⟨⟩
  rfl

theorem counts_countFailure (calls : Calls) :
    Counts (countFailure : Search ω α Unit) calls fun _ ↦ calls := by
  refine counts_of_made_eq ?_ calls
  rintro b _ _ ⟨⟩
  rfl

theorem counts_valueAt (φ : LineFunction ω α) (t : α) (calls : Calls) :
    Counts (valueAt φ t) calls fun _ ↦ calls + .ofValue := by
  intro b v b' hrun
  obtain ⟨w, -, rfl⟩ := (meets_valueAt φ t b).of_run_ok hrun
  rw [add_assoc, add_comm Calls.ofValue]

theorem counts_sampleAt (φ : LineFunction ω α) (t : α) (calls : Calls) :
    Counts (sampleAt φ t) calls fun _ ↦ calls + .ofBoth := by
  intro b s b' hrun
  obtain ⟨-, w, -, rfl⟩ := (meets_sampleAt φ t b).of_run_ok hrun
  rw [add_assoc, add_comm Calls.ofBoth]

end Rules

end Search

open Search

variable [Scalar α] (φ : LineFunction ω α)

/-! ## Prediction -/

namespace TrialStep

theorem counts_reduce (rule : Rule α) (reductions : ℕ) (calls : Calls) (t v : α) :
    Counts (TrialStep.reduce rule φ reductions calls t v) calls Prod.snd := by
  induction reductions generalizing calls t v with
  | zero => exact counts_pure rfl
  | succ reductions ih =>
    rw [TrialStep.reduce]
    split_ifs
    · exact counts_pure rfl
    · refine (counts_valueAt φ _ calls).bind fun v ↦ ?_
      exact (counts_countFailure _).bind fun _ ↦ ih _ _ v

theorem counts_propose (rule : Rule α) (alpha : α) : Counts (propose rule φ alpha) 0 Prod.snd := by
  rw [propose]
  refine (counts_cached 0 _).bind fun start ↦ ?_
  refine (counts_valueAt φ _ _).bind fun v ↦ ?_
  refine (counts_reduce φ rule _ _ _ v).bind ?_
  rintro ⟨_ | ⟨t, v⟩, calls⟩
  · exact counts_pure rfl
  · exact (counts_lift _ _).bind fun _ ↦ counts_pure rfl

end TrialStep

/-! ## Backtracking -/

namespace Backtracking

variable (p : Backtracking α)

theorem counts_descend (start : Sample α) (reductions : ℕ) (calls : Calls) (t v : α) :
    Counts (p.descend φ start reductions calls t v) calls Prod.snd := by
  induction reductions generalizing calls t v with
  | zero =>
    rw [descend]
    split_ifs
    · exact counts_throw _
    · exact counts_pure rfl
  | succ reductions ih =>
    rw [descend]
    split_ifs
    · refine (counts_lift _ calls).bind fun t' ↦ ?_
      exact (counts_valueAt φ t' calls).bind fun v' ↦ ih _ t' v'
    · refine (counts_countFailure calls).bind fun _ ↦ ?_
      exact (counts_valueAt φ _ calls).bind fun v' ↦ ih _ _ v'
    · exact counts_pure rfl

theorem counts_step (trial : α) : Counts (p.step φ trial) 0 Step.calls := by
  rw [step]
  refine (counts_cached 0 _).bind fun start ↦ ?_
  split_ifs
  · refine (counts_valueAt φ trial _).bind fun v ↦ ?_
    refine (counts_descend φ p start.toSample _ _ trial v).bind fun r ↦ ?_
    exact (counts_keep _ _).bind fun _ ↦ counts_pure rfl
  · exact counts_throw _

end Backtracking

/-! ## The Hager–Zhang search -/

namespace HagerZhang

theorem counts_probe (refusal : α → SearchError α) (t : α) (calls : Calls) :
    Counts (probe φ refusal t) calls fun _ ↦ calls + .ofBoth := by
  refine (counts_sampleAt φ t calls).bind fun s ↦ ?_
  split_ifs
  · exact counts_keep s _
  · exact counts_throw _

theorem counts_bisect (limit : α) (fuel : ℕ) (calls : Calls) (low high : Point α) :
    Counts (bisect φ limit fuel calls low high) calls Prod.snd := by
  induction fuel generalizing calls low high with
  | zero =>
    rw [bisect]
    split_ifs
    · exact counts_throw _
    · exact counts_pure rfl
  | succ fuel ih =>
    rw [bisect]
    split_ifs
    · refine (counts_probe φ _ _ calls).bind fun mid ↦ ?_
      split_ifs
      · exact counts_pure rfl
      · exact ih _ mid high
      · exact ih _ low mid
    · exact counts_pure rfl

theorem counts_update (limit : α) (low high mid : Point α) :
    Counts (update φ limit low high mid) 0 Prod.snd := by
  rw [update]
  split_ifs
  · exact counts_pure rfl
  · exact counts_pure rfl
  · exact counts_pure rfl
  · exact counts_bisect φ limit _ 0 low mid

theorem counts_doubleSecant (test : WolfeTest α) (low high : Point α) :
    Counts (doubleSecant φ test low high) 0 Prod.snd := by
  rw [doubleSecant]
  split_ifs
  · refine (counts_lift _ _).bind fun c ↦ ?_
    refine (counts_probe φ _ c _).bind fun mid ↦ ?_
    refine (counts_lift _ _).bind fun accepted ↦ ?_
    split_ifs
    · exact counts_pure rfl
    -- the evaluations of the first update are added to the first one
    refine ((counts_update φ _ low high mid).add .ofBoth).bind fun r ↦ ?_
    refine (counts_lift _ _).bind fun c' ↦ ?_
    split_ifs
    · refine (counts_probe φ _ c' _).bind fun mid' ↦ ?_
      refine (counts_lift _ _).bind fun accepted' ↦ ?_
      split_ifs
      · exact counts_pure rfl
      · refine ((counts_update φ _ _ _ mid').add (.ofBoth + r.2 + .ofBoth)).bind fun _ ↦ ?_
        exact counts_pure rfl
    · exact counts_pure rfl
  · exact counts_throw _

theorem counts_reduce (p : HagerZhang α) (attempts : ℕ) (calls : Calls) (s : Sample α) :
    Counts (p.reduce φ attempts calls s) calls Prod.snd := by
  induction attempts generalizing calls s with
  | zero => exact counts_pure rfl
  | succ attempts ih =>
    rw [reduce]
    split_ifs
    · exact counts_pure rfl
    · refine (counts_countFailure calls).bind fun _ ↦ ?_
      exact (counts_sampleAt φ _ calls).bind fun s' ↦ ih _ s'

theorem counts_lowEnd (limit : α) (i : ℕ) (calls : Calls) :
    Counts (lowEnd limit i : Search ω α (Point α)) calls fun _ ↦ calls := by
  induction i with
  | zero => exact counts_cached 0 calls
  | succ i ih =>
    rw [lowEnd]
    refine (counts_cached i calls).bind fun s ↦ ?_
    split_ifs
    · exact counts_pure rfl
    · exact ih

theorem counts_retreat (cold : α) (attempts : ℕ) (calls : Calls) (alphamax : α) (s : Sample α) :
    Counts (retreat φ cold attempts calls alphamax s) calls Prod.snd := by
  induction attempts generalizing calls alphamax s with
  | zero => exact counts_pure rfl
  | succ attempts ih =>
    rw [retreat]
    split_ifs
    · refine (counts_countFailure calls).bind fun _ ↦ ?_
      exact (counts_sampleAt φ _ calls).bind fun s' ↦ ih _ _ s'
    · exact counts_pure rfl

theorem counts_expand (p : HagerZhang α) (alphamax : α) (tip : Point α) :
    Counts (p.expand φ alphamax tip) 0 Prod.snd := by
  rw [expand]
  cases p.expandedStep alphamax tip.step with
  | none => exact counts_pure rfl
  | some c =>
    refine (counts_sampleAt φ c _).bind fun s ↦ ?_
    refine (counts_retreat φ tip.step _ _ alphamax s).bind fun r ↦ ?_
    dsimp only
    split_ifs
    · exact counts_pure rfl
    · exact (counts_report _ _).bind fun _ ↦ counts_pure rfl
    · exact counts_pure rfl
    · exact (counts_keep _ _).bind fun _ ↦ counts_pure rfl

theorem counts_bracket (p : HagerZhang α) (limit : α) (rounds : ℕ) (calls : Calls) (alphamax : α)
    (tip : Point α) : Counts (p.bracket φ limit rounds calls alphamax tip) calls Prod.snd := by
  induction rounds generalizing calls alphamax tip with
  | zero => exact counts_throw _
  | succ rounds ih =>
    rw [bracket]
    split_ifs
    · exact (counts_lowEnd limit _ calls).bind fun _ ↦ counts_pure rfl
    · refine (counts_cached _ calls).bind fun low ↦ ?_
      refine ((counts_bisect φ limit _ 0 low tip).add calls).bind fun _ ↦ ?_
      exact counts_pure rfl
    · refine ((counts_expand φ p alphamax tip).add calls).bind ?_
      rintro ⟨t | ⟨tip, alphamax⟩, more⟩
      · exact counts_pure rfl
      · exact ih _ alphamax tip

theorem counts_approach (p : HagerZhang α) (start : Sample α) (trial : α) (mayAccept : Bool) :
    Counts (p.approach φ start trial mayAccept) 0 Prod.snd := by
  rw [approach]
  simp only [giveUp_bind]
  split_ifs
  · refine (counts_sampleAt φ trial _).bind fun first ↦ ?_
    refine (counts_reduce φ p _ _ first).bind ?_
    rintro ⟨s, calls⟩
    dsimp only
    split_ifs
    · refine (counts_keep _ _).bind fun tip ↦ ?_
      refine (counts_lift _ _).bind fun accepted ↦ ?_
      split_ifs
      · exact (counts_report _ _).bind fun _ ↦ counts_pure rfl
      · exact counts_bracket φ p _ _ _ _ tip
    · exact (counts_keep _ _).bind fun tip ↦ counts_bracket φ p _ _ _ _ tip
    · exact (counts_report _ _).bind fun _ ↦ counts_pure rfl
  · exact counts_throw _
  · exact counts_throw _

theorem counts_round (p : HagerZhang α) (test : WolfeTest α) (low high : Point α) :
    Counts (p.round φ test low high) 0 Prod.snd := by
  rw [round]
  split_ifs
  · exact counts_pure rfl
  refine (counts_doubleSecant φ test low high).bind ?_
  rintro ⟨point | ⟨low', high'⟩, calls⟩
  · exact counts_pure rfl
  · dsimp only
    split_ifs
    · exact counts_pure rfl
    · exact counts_pure rfl
    · refine (counts_probe φ _ _ calls).bind fun mid ↦ ?_
      refine ((counts_update φ _ low' high' mid).add (calls + .ofBoth)).bind fun _ ↦ ?_
      exact counts_pure rfl

theorem counts_narrow (p : HagerZhang α) (test : WolfeTest α) (rounds : ℕ) (calls : Calls)
    (low high : Point α) : Counts (p.narrow φ test rounds calls low high) calls Step.calls := by
  induction rounds generalizing calls low high with
  | zero => exact counts_throw _
  | succ rounds ih =>
    rw [narrow]
    refine ((counts_round φ p test low high).add calls).bind ?_
    rintro ⟨t | ⟨low, high⟩, more⟩
    · exact counts_pure rfl
    · exact ih _ low high

theorem counts_step (p : HagerZhang α) (trial : α) (mayAccept : Bool) :
    Counts (p.step φ trial mayAccept) 0 Step.calls := by
  rw [step]
  refine (counts_cached 0 _).bind fun start ↦ ?_
  refine (counts_approach φ p _ trial mayAccept).bind ?_
  rintro ⟨t | ⟨low, high, rounds⟩, calls⟩
  · exact counts_pure rfl
  · exact counts_narrow φ p _ rounds _ low high

end HagerZhang

end NonlinearCG
