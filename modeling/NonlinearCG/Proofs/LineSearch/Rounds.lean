import Mathlib
import NonlinearCG.Proofs.LineSearch.Bench

/-!
# The rounds of a search

The narrowing stage of a Hager–Zhang search is a loop of rounds. This file names the states in
which the loop can be: the brackets with which it is at the top of a round, and the bench there.
`AtRound.resume` says that nothing is lost by looking at them: from any of these states on, the
remaining rounds do what the whole search does.
-/

namespace NonlinearCG.HagerZhang

variable {ω α : Type} [Scalar α]

/-- The search from a trial step on a bench comes to the top of a round, with a number of rounds
left, a bracket, and another bench. -/
inductive AtRound (p : HagerZhang α) (φ : LineFunction ω α) (start : Sample α) (trial : α)
    (mayAccept : Bool) (b₀ : Bench ω α) : ℕ → Point α → Point α → Bench ω α → Prop
  /-- Bracketing leads to the first round. -/
  | first {rounds : ℕ} {low high : Point α} {b : Bench ω α}
      {calls : Calls} :
      (approach p φ start trial mayAccept).run b₀ = (.ok (.bracket low high rounds, calls), b) →
      AtRound p φ start trial mayAccept b₀ rounds low high b
  /-- A round leads to the next one. -/
  | next {rounds : ℕ} {low high low' high' : Point α} {b b' : Bench ω α} {calls : Calls} :
      AtRound p φ start trial mayAccept b₀ (rounds + 1) low high b →
      (round p φ (p.test start) low high).run b = (.ok (.narrowed low' high', calls), b') →
      AtRound p φ start trial mayAccept b₀ rounds low' high' b'

/-- The search comes to a double secant step on a bracket: a round is left, and the bracket is wider
than the gap at its high end. -/
def AtDoubleSecant (p : HagerZhang α) (φ : LineFunction ω α) (start : Sample α) (trial : α)
    (mayAccept : Bool) (b₀ : Bench ω α) (low high : Point α) (b : Bench ω α) : Prop :=
  (∃ rounds, AtRound p φ start trial mayAccept b₀ (rounds + 1) low high b) ∧
    ¬high.step - low.step ≤ Scalar.spacing high.step

variable {p : HagerZhang α} {φ : LineFunction ω α} {start : Sample α} {trial : α}
  {mayAccept : Bool} {b₀ b : Bench ω α} {rounds : ℕ} {low high : Point α}

/-- The rounds that are left do what the whole search does, from the account of the evaluations
before them. -/
theorem AtRound.resume (hstart : b₀.cache.get? 0 = some start)
    (h : AtRound p φ start trial mayAccept b₀ rounds low high b) :
    ∃ calls, (step p φ trial mayAccept).run b₀ =
      (narrow p φ (p.test start) rounds calls low high).run b := by
  induction h with
  | first happroach =>
    rw [step, run_bind_ok (Search.run_cached hstart), run_bind_ok happroach]
    exact ⟨_, rfl⟩
  | next _ hround ih =>
    obtain ⟨calls, ih⟩ := ih
    rw [ih, narrow, run_bind_ok hround]
    exact ⟨_, rfl⟩

theorem finite_of_approach {r : Bracketing α × Calls}
    (h : (approach p φ start trial mayAccept).run b₀ = (.ok r, b)) : finite start = true := by
  rw [approach] at h
  by_contra hfinite
  rw [if_neg hfinite] at h
  cases h

theorem AtRound.finite_start (h : AtRound p φ start trial mayAccept b₀ rounds low high b) :
    finite start = true := by
  induction h with
  | first happroach => exact finite_of_approach happroach
  | next _ _ ih => exact ih

theorem AtRound.run_of_collapsed (hstart : b₀.cache.get? 0 = some start)
    (h : AtRound p φ start trial mayAccept b₀ (rounds + 1) low high b)
    (hwidth : high.step - low.step ≤ Scalar.spacing high.step) :
    ∃ calls, (step p φ trial mayAccept).run b₀ = (.ok ⟨low.step, calls⟩, b) := by
  obtain ⟨calls, hrun⟩ := h.resume hstart
  rw [hrun, narrow, round, if_pos hwidth]
  exact ⟨_, rfl⟩

end NonlinearCG.HagerZhang
