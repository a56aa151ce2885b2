import Mathlib
import NonlinearCG.Proofs.LineSearch.Bench

/-!
# Where the verdicts of a search come from

A Hager–Zhang search looks at its start and at its trial step before it evaluates anything. Past
these two checks it may still fail, but not for a reason that has to do with them: every later part
of the search fails with a breakdown, or with a verdict on a bracket, on an evaluation or on the
number of rounds. The verdict that the trial step is not admissible is therefore given exactly on
the trial steps that are not, from a start that is finite. This holds for any type of scalars.
-/

namespace NonlinearCG.HagerZhang

open Std.Do

set_option mvcgen.warning false

variable {ω α : Type} [Scalar α]

/-! ## Past the first checks -/

/-- A failure of a search that has evaluated its trial step. -/
def Late {α : Type} : Fault α → Prop
  | .breakdown _ => True
  | .search (.notDescent ..) | .search (.secantNotFinite _) => True
  | .search (.bisectionNotFinite _) | .search .notConverged => True
  | .search _ => False

variable (φ : LineFunction ω α)

omit [Scalar α] in
theorem sampleAt_late (t : α) :
    ⦃fun _ ↦ ⌜True⌝⦄
    Search.sampleAt φ t
    ⦃post⟨fun _ _ ↦ ⌜True⌝, fun e _ ↦ ⌜Late e⌝⟩⦄ := by
  mvcgen [Search.sampleAt, Search.evaluate, Search.lift]

theorem probe_late (refusal : α → SearchError α) (hrefusal : ∀ t, Late (.search (refusal t)))
    (t : α) :
    ⦃fun _ ↦ ⌜True⌝⦄
    probe φ refusal t
    ⦃post⟨fun _ _ ↦ ⌜True⌝, fun e _ ↦ ⌜Late e⌝⟩⦄ := by
  mvcgen [probe, sampleAt_late, Search.keep, Search.giveUp]
  exact hrefusal t

theorem bisect_late (limit : α) (fuel : ℕ) (calls : Calls) (low high : Point α) :
    ⦃fun _ ↦ ⌜True⌝⦄
    bisect φ limit fuel calls low high
    ⦃post⟨fun _ _ ↦ ⌜True⌝, fun e _ ↦ ⌜Late e⌝⟩⦄ := by
  induction fuel generalizing calls low high with
  | zero =>
    unfold bisect
    mvcgen
  | succ fuel ih =>
    unfold bisect
    have hprobe := probe_late φ .bisectionNotFinite fun _ ↦ trivial
    mvcgen [hprobe, ih]

theorem update_late (limit : α) (low high mid : Point α) :
    ⦃fun _ ↦ ⌜True⌝⦄
    update φ limit low high mid
    ⦃post⟨fun _ _ ↦ ⌜True⌝, fun e _ ↦ ⌜Late e⌝⟩⦄ := by
  mvcgen [update, bisectBetween, bisect_late]

theorem doubleSecant_late (test : WolfeTest α) (low high : Point α) :
    ⦃fun _ ↦ ⌜True⌝⦄
    doubleSecant φ test low high
    ⦃post⟨fun _ _ ↦ ⌜True⌝, fun e _ ↦ ⌜Late e⌝⟩⦄ := by
  have hprobe := probe_late φ .secantNotFinite fun _ ↦ trivial
  mvcgen [doubleSecant, Search.giveUp, Search.lift, hprobe, update_late]

theorem reduce_late (p : HagerZhang α) (attempts : ℕ) (calls : Calls) (s : Sample α) :
    ⦃fun _ ↦ ⌜True⌝⦄
    reduce p φ attempts calls s
    ⦃post⟨fun _ _ ↦ ⌜True⌝, fun e _ ↦ ⌜Late e⌝⟩⦄ := by
  induction attempts generalizing calls s with
  | zero =>
    unfold reduce
    mvcgen
  | succ attempts ih =>
    unfold reduce
    mvcgen [Search.countFailure, sampleAt_late, ih]

theorem retreat_late (cold : α) (attempts : ℕ) (calls : Calls) (alphamax : α) (s : Sample α) :
    ⦃fun _ ↦ ⌜True⌝⦄
    retreat φ cold attempts calls alphamax s
    ⦃post⟨fun _ _ ↦ ⌜True⌝, fun e _ ↦ ⌜Late e⌝⟩⦄ := by
  induction attempts generalizing calls alphamax s with
  | zero =>
    unfold retreat
    mvcgen
  | succ attempts ih =>
    unfold retreat
    mvcgen [Search.countFailure, sampleAt_late, ih]

theorem expand_late (p : HagerZhang α) (alphamax : α) (tip : Point α) :
    ⦃fun _ ↦ ⌜True⌝⦄
    expand p φ alphamax tip
    ⦃post⟨fun _ _ ↦ ⌜True⌝, fun e _ ↦ ⌜Late e⌝⟩⦄ := by
  mvcgen [expand, sampleAt_late, retreat_late, Search.report, Search.keep]

omit [Scalar α] in
theorem cached_late (i : ℕ) :
    ⦃fun _ : Bench ω α ↦ ⌜True⌝⦄
    Search.cached i
    ⦃post⟨fun _ _ ↦ ⌜True⌝, fun e _ ↦ ⌜Late e⌝⟩⦄ := by
  mvcgen [Search.cached]

theorem lowEnd_late (limit : α) (i : ℕ) :
    ⦃fun _ : Bench ω α ↦ ⌜True⌝⦄
    lowEnd limit i
    ⦃post⟨fun _ _ ↦ ⌜True⌝, fun e _ ↦ ⌜Late e⌝⟩⦄ := by
  induction i with
  | zero =>
    unfold lowEnd
    mvcgen [cached_late]
  | succ i ih =>
    unfold lowEnd
    mvcgen [cached_late, ih]

theorem bracket_late (p : HagerZhang α) (limit : α) (rounds : ℕ) (calls : Calls) (alphamax : α)
    (tip : Point α) :
    ⦃fun _ ↦ ⌜True⌝⦄
    bracket p φ limit rounds calls alphamax tip
    ⦃post⟨fun _ _ ↦ ⌜True⌝, fun e _ ↦ ⌜Late e⌝⟩⦄ := by
  induction rounds generalizing calls alphamax tip with
  | zero =>
    unfold bracket
    mvcgen [Search.giveUp]
  | succ rounds ih =>
    unfold bracket
    mvcgen [lowEnd_late, cached_late, bisectBetween, bisect_late, expand_late, ih]

theorem round_late (p : HagerZhang α) (test : WolfeTest α) (low high : Point α) :
    ⦃fun _ ↦ ⌜True⌝⦄
    round p φ test low high
    ⦃post⟨fun _ _ ↦ ⌜True⌝, fun e _ ↦ ⌜Late e⌝⟩⦄ := by
  have hprobe := probe_late φ .bisectionNotFinite fun _ ↦ trivial
  mvcgen [round, doubleSecant_late, hprobe, update_late]

theorem narrow_late (p : HagerZhang α) (test : WolfeTest α) (rounds : ℕ) (calls : Calls)
    (low high : Point α) :
    ⦃fun _ ↦ ⌜True⌝⦄
    narrow p φ test rounds calls low high
    ⦃post⟨fun _ _ ↦ ⌜True⌝, fun e _ ↦ ⌜Late e⌝⟩⦄ := by
  induction rounds generalizing calls low high with
  | zero =>
    unfold narrow
    mvcgen [Search.giveUp]
  | succ rounds ih =>
    unfold narrow
    mvcgen [round_late, ih]

/-! ## The first checks -/

/-- A trial step that a search accepts as one: a finite positive number that is at most the largest
step. -/
def Admissible (p : HagerZhang α) (trial : α) : Prop :=
  0.0 < trial ∧ Scalar.isFinite trial ∧ trial ≤ p.alphamax

/-- Past its two checks, the first stage of a search fails for other reasons. -/
theorem approach_late (p : HagerZhang α) {start : Sample α} {trial : α} (mayAccept : Bool)
    (hstart : finite start = true) (htrial : p.Admissible trial) :
    ⦃fun _ ↦ ⌜True⌝⦄
    approach p φ start trial mayAccept
    ⦃post⟨fun _ _ ↦ ⌜True⌝, fun e _ ↦ ⌜Late e⌝⟩⦄ := by
  have hbracket := bracket_late φ p
  mvcgen [approach, Search.giveUp, Search.report, Search.lift, Search.keep, sampleAt_late,
    reduce_late, hbracket]

section Search

variable {φ} {p : HagerZhang α} {start : Sample α} {trial : α} {mayAccept : Bool}
  {b b' : Bench ω α}

theorem run_of_not_admissible (hzero : b.cache.get? 0 = some start) (hstart : finite start = true)
    (htrial : ¬p.Admissible trial) :
    (step p φ trial mayAccept).run b = (.error (.search (.stepNotAdmissible trial)), b) := by
  rw [step, run_bind_ok (Search.run_cached hzero)]
  have hguard : ¬(0.0 < trial ∧ Scalar.isFinite trial = true ∧ trial ≤ p.alphamax) := htrial
  refine run_bind_error ?_
  rw [approach]
  simp only [hstart, if_true, if_neg hguard]
  rfl

/-- A search that gives up on a trial step has found it not to be admissible, from a finite
start. -/
theorem not_admissible_of_run (hzero : b.cache.get? 0 = some start) {t : α}
    (h : (step p φ trial mayAccept).run b = (.error (.search (.stepNotAdmissible t)), b')) :
    finite start = true ∧ t = trial ∧ ¬p.Admissible trial := by
  by_cases hstart : finite start = true
  · by_cases htrial : p.Admissible trial
    · rw [step, run_bind_ok (Search.run_cached hzero)] at h
      rcases run_bind_eq_error h with happroach | ⟨⟨r, calls⟩, b₁, -, hrest⟩
      · have happroached :=
          meets_of_triple (s := b) (approach_late φ p mayAccept hstart htrial) trivial
        exact (happroached.of_run_error happroach).elim
      · cases r with
        | ended t => cases hrest
        | bracket low high rounds =>
          have hnarrowed :=
            meets_of_triple (s := b₁) (narrow_late φ p (p.test start) rounds calls low high) trivial
          exact (hnarrowed.of_run_error hrest).elim
    · cases (run_of_not_admissible hzero hstart htrial).symm.trans h
      exact ⟨hstart, rfl, htrial⟩
  · rw [step, run_bind_ok (Search.run_cached hzero), approach, if_neg hstart] at h
    cases h

end Search

end NonlinearCG.HagerZhang
