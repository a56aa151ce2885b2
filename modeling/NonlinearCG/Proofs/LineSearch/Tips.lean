import Mathlib
import NonlinearCG.Proofs.LineSearch.Rounds

/-!
# The tips of a search

Bracketing is a loop as well. It is entered after the first trial, at a cached point of finite value
and slope, and each expansion that does not end the search leads to a further point. This file names
the first trial and the states in which the loop can be: the point that is judged, which is called
the tip, the largest step that is left, and the bench there. `AtTip.resume` says that nothing is
lost by looking at them.
-/

namespace NonlinearCG.HagerZhang

variable {ω α : Type} [Scalar α]

/-- The first trial: the stage before bracketing. -/
def firstTrial (p : HagerZhang α) (φ : LineFunction ω α) (start : Sample α) (trial : α)
    (mayAccept : Bool) : Search ω α (Expansion α × Calls) := do
  unless finite start do Search.giveUp .startNotFinite
  unless 0.0 < trial ∧ Scalar.isFinite trial ∧ trial ≤ p.alphamax do
    Search.giveUp (.stepNotAdmissible trial)
  let first ← Search.sampleAt φ trial
  let (s, calls) ← reduce p φ (finiteAttempts - 1) .ofBoth first
  unless finite s do
    Search.report .noFiniteTrial
    return (.ended 0.0, calls)
  let tip ← Search.keep s
  if mayAccept && finite first then
    if ← Search.lift ((p.test start).accepts s) then
      Search.report (.trialAccepted s.step)
      return (.ended s.step, calls)
  return (.reached tip p.alphamax, calls)

/-- The number of rounds that bracketing and narrowing share. -/
def rounds (p : HagerZhang α) : ℕ := (p.linesearchmax - 1).toNat

/-- What follows the first trial: the end of the search, or bracketing. -/
def afterTrial (p : HagerZhang α) (φ : LineFunction ω α) (limit : α) :
    Expansion α × Calls → Search ω α (Bracketing α × Calls)
  | (.ended t, calls) => return (.ended t, calls)
  | (.reached tip alphamax, calls) => bracket p φ limit p.rounds calls alphamax tip

theorem approach_eq (p : HagerZhang α) (φ : LineFunction ω α) (start : Sample α) (trial : α)
    (mayAccept : Bool) :
    approach p φ start trial mayAccept =
      firstTrial p φ start trial mayAccept >>= afterTrial p φ (p.test start).limit := by
  rw [approach, firstTrial]
  simp only [Search.giveUp_bind]
  split_ifs
  · simp only [bind_assoc]
    refine bind_congr fun first ↦ bind_congr ?_
    rintro ⟨s, calls⟩
    dsimp only
    split_ifs
    · simp only [bind_assoc]
      refine bind_congr fun tip ↦ bind_congr fun accepted ↦ ?_
      split_ifs
      · simp only [bind_assoc, pure_bind]
        rfl
      · rfl
    · simp only [bind_assoc, pure_bind]
      rfl
    · simp only [bind_assoc, pure_bind]
      rfl
  -- a search that gives up at once leaves nothing to compare
  · rfl
  · rfl

/-- The search from a trial step on a bench comes to the top of bracketing, with a number of rounds
left, the largest step that is left, a tip, and another bench. -/
inductive AtTip (p : HagerZhang α) (φ : LineFunction ω α) (start : Sample α) (trial : α)
    (mayAccept : Bool) (b₀ : Bench ω α) : ℕ → α → Point α → Bench ω α → Prop
  /-- The first trial leads to the first tip. -/
  | first {alphamax : α} {tip : Point α} {b : Bench ω α} {calls : Calls} :
      (firstTrial p φ start trial mayAccept).run b₀ = (.ok (.reached tip alphamax, calls), b) →
      AtTip p φ start trial mayAccept b₀ p.rounds alphamax tip b
  /-- An expansion leads to the next one. -/
  | next {rounds : ℕ} {alphamax alphamax' : α} {tip tip' : Point α} {b b' : Bench ω α}
      {calls : Calls} :
      AtTip p φ start trial mayAccept b₀ (rounds + 1) alphamax tip b →
      ¬0.0 ≤ tip.slope → ¬(p.test start).limit < tip.value →
      (expand p φ alphamax tip).run b = (.ok (.reached tip' alphamax', calls), b') →
      AtTip p φ start trial mayAccept b₀ rounds alphamax' tip' b'

variable {p : HagerZhang α} {φ : LineFunction ω α} {start : Sample α} {trial : α}
  {mayAccept : Bool} {b₀ b : Bench ω α} {rounds : ℕ} {alphamax : α} {tip : Point α}

/-- Bracketing from a tip does what the whole approach does, from the account of the evaluations
before it. -/
theorem AtTip.resume (h : AtTip p φ start trial mayAccept b₀ rounds alphamax tip b) :
    ∃ calls, (approach p φ start trial mayAccept).run b₀ =
      (bracket p φ (p.test start).limit rounds calls alphamax tip).run b := by
  induction h with
  | first htrial =>
    rw [approach_eq, run_bind_ok htrial]
    exact ⟨_, rfl⟩
  | next _ hslope hvalue hexpand ih =>
    obtain ⟨calls, ih⟩ := ih
    rw [ih, bracket, if_neg hslope, if_neg hvalue, run_bind_ok hexpand]
    exact ⟨_, rfl⟩

theorem AtTip.finite_start (h : AtTip p φ start trial mayAccept b₀ rounds alphamax tip b) :
    finite start = true := by
  induction h with
  | first htrial =>
    by_contra hfinite
    rw [firstTrial, if_neg hfinite] at htrial
    cases htrial
  | next _ _ _ _ ih => exact ih

/-- The ways in which bracketing leads on from its last tip. -/
inductive Leads (p : HagerZhang α) (φ : LineFunction ω α) (limit : α) (rounds : ℕ) (alphamax : α)
    (tip : Point α) (b : Bench ω α) : Bracketing α → Bench ω α → Prop
  /-- The slope has turned upwards. -/
  | risen {low : Point α} {b' : Bench ω α} : 0.0 ≤ tip.slope →
      (lowEnd limit tip.index).run b = (.ok low, b') →
      Leads p φ limit rounds alphamax tip b (.bracket low tip rounds) b'
  /-- The value is above the limit. -/
  | crested {low low' high' : Point α} {b₁ b' : Bench ω α} {calls : Calls} :
      ¬0.0 ≤ tip.slope → limit < tip.value →
      (Search.cached (tip.index - 1)).run b = (.ok low, b₁) →
      (bisectBetween φ limit low tip).run b₁ = (.ok ((low', high'), calls), b') →
      Leads p φ limit rounds alphamax tip b (.bracket low' high' rounds) b'
  /-- The expansion ends the search. -/
  | ended {t : α} {b' : Bench ω α} {calls : Calls} : ¬0.0 ≤ tip.slope → ¬limit < tip.value →
      (expand p φ alphamax tip).run b = (.ok (.ended t, calls), b') →
      Leads p φ limit rounds alphamax tip b (.ended t) b'

/-- Bracketing that returns has come to a last tip. -/
theorem AtTip.exists_leads {r : Bracketing α} {calls total : Calls} {b' : Bench ω α}
    (h : AtTip p φ start trial mayAccept b₀ rounds alphamax tip b)
    (hrun : (bracket p φ (p.test start).limit rounds calls alphamax tip).run b =
      (.ok (r, total), b')) :
    ∃ rounds alphamax tip b, AtTip p φ start trial mayAccept b₀ (rounds + 1) alphamax tip b ∧
      Leads p φ (p.test start).limit rounds alphamax tip b r b' := by
  induction rounds generalizing calls alphamax tip b with
  | zero => cases hrun
  | succ rounds ih =>
    rw [bracket] at hrun
    split_ifs at hrun with hslope hvalue
    · obtain ⟨low, b₁, hlow, hrest⟩ := run_bind_eq_ok hrun
      cases hrest
      exact ⟨rounds, alphamax, tip, b, h, .risen hslope hlow⟩
    · obtain ⟨low, b₁, hlow, hrest⟩ := run_bind_eq_ok hrun
      obtain ⟨⟨⟨low', high'⟩, more⟩, b₂, hbisect, hrest⟩ := run_bind_eq_ok hrest
      cases hrest
      exact ⟨rounds, alphamax, tip, b, h, .crested hslope hvalue hlow hbisect⟩
    · obtain ⟨⟨t | ⟨tip', alphamax'⟩, more⟩, b₁, hexpand, hrest⟩ := run_bind_eq_ok hrun
      · cases hrest
        exact ⟨rounds, alphamax, tip, b, h, .ended hslope hvalue hexpand⟩
      · exact ih (.next h hslope hvalue hexpand) hrest

theorem exists_leads_of_approach {r : Bracketing α} {calls : Calls} {b' : Bench ω α}
    (hrun : (approach p φ start trial mayAccept).run b₀ = (.ok (r, calls), b')) :
    (∃ t, r = .ended t ∧
        (firstTrial p φ start trial mayAccept).run b₀ = (.ok (.ended t, calls), b')) ∨
      ∃ rounds alphamax tip b, AtTip p φ start trial mayAccept b₀ (rounds + 1) alphamax tip b ∧
        Leads p φ (p.test start).limit rounds alphamax tip b r b' := by
  rw [approach_eq] at hrun
  obtain ⟨⟨t | ⟨tip, alphamax⟩, more⟩, b₁, htrial, hrest⟩ := run_bind_eq_ok hrun
  · cases hrest
    exact Or.inl ⟨t, rfl, htrial⟩
  · exact Or.inr ((AtTip.first htrial).exists_leads hrest)

end NonlinearCG.HagerZhang
