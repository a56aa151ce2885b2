import Mathlib
import NonlinearCG.Proofs.Run.Visits

/-!
# The history of a run

`Visits` says to which iterates a run comes, one at a time. Each iterate and the session there
determine the next ones, so that all these iterates form a single sequence. Of two lists of visited
iterates, the latest one first, the shorter is the end of the longer (`Visits.isSuffix`), and from
its latest iterate the run has moved on (`Visits.moved_of_lt`). Nothing is visited after the iterate
at which a run ends (`EndsWith.length_le`).

A run that has ended, with results or by an interruption, is then known together with the session
that it leaves behind: `Visits.run_of_endsWith`, `exists_interrupted_session`.
-/

namespace NonlinearCG

/-- The session after a run whose iterations have left a session. -/
def Session.closed {ω α : Type} (σ : Session ω α) : Session ω α :=
  { σ with observers := Observer.finalizeAll σ.observers }

namespace Minimizer

variable {ω α : Type} [Scalar α] {n : ℕ} {m : Minimizer ω α} {f : Objective ω α n}
  {view : Vec α n → Tensor α} {x : Vec α n} {σ₀ σ σ' σ₁ : Session ω α} {it it' : Iterate α n}
  {past path path' : List (Iterate α n)} {verdict verdict' : Verdict}

/-! ## One sequence of iterates -/

theorem Visits.length_pos (h : Visits m f view x σ₀ path verdict σ) : 0 < path.length := by
  cases h with
  | start | move => exact Nat.succ_pos _

theorem Visits.exists_start (h : Visits m f view x σ₀ path verdict σ) :
    ∃ it σ, (m.start f view x).run (m.opened σ₀) = (.ok it, σ) := by
  induction h with
  | start hstart => exact ⟨_, _, hstart⟩
  | move _ _ _ _ ih => exact ih

/-- The number of iterates that a run has visited determines them. -/
theorem Visits.unique (h : Visits m f view x σ₀ path verdict σ)
    (h' : Visits m f view x σ₀ path' verdict' σ') (hlength : path.length = path'.length) :
    path = path' ∧ verdict = verdict' ∧ σ = σ' := by
  induction h generalizing path' verdict' σ' with
  | start hstart =>
    cases h' with
    | start hstart' =>
      cases hstart.symm.trans hstart'
      exact ⟨rfl, rfl, rfl⟩
    | move => cases hlength
  | move _ _ _ hrun ih =>
    cases h' with
    | start => cases hlength
    | move hvisits' _ _ hrun' =>
      obtain ⟨hpath, -, rfl⟩ := ih hvisits' (Nat.succ.inj hlength)
      cases hpath
      cases hrun.symm.trans hrun'
      exact ⟨rfl, rfl, rfl⟩

theorem Visits.isSuffix (h : Visits m f view x σ₀ path verdict σ)
    (h' : Visits m f view x σ₀ path' verdict' σ') (hle : path.length ≤ path'.length) :
    path <:+ path' := by
  by_cases hlength : path.length = path'.length
  · rw [(h.unique h' hlength).1]
  induction h' with
  | start =>
    have hpos := h.length_pos
    rw [List.length_singleton] at hle hlength
    omega
  | @move it it' past _ _ _ _ hvisits _ _ _ ih =>
    rw [List.length_cons] at hle hlength
    refine List.IsSuffix.trans ?_ (List.suffix_cons it' (it :: past))
    by_cases hbefore : path.length = (it :: past).length
    · rw [(h.unique hvisits hbefore).1]
    · exact ih (by omega) hbefore

theorem Visits.moved_of_lt (h : Visits m f view x σ₀ (it :: past) verdict σ)
    (h' : Visits m f view x σ₀ path' verdict' σ') (hlt : (it :: past).length < path'.length) :
    verdict.converged = false ∧ it.iteration < m.budget ∧
      ∃ it' verdict' σ', (m.advance f view it).run σ = (.ok (.moved it' verdict'), σ') := by
  induction h' with
  | start =>
    rw [List.length_cons, List.length_singleton] at hlt
    omega
  | @move it₀ it' past' verdict₀ _ σ₁ _ hvisits hverdict hbudget hrun ih =>
    have hnext : (it' :: it₀ :: past').length = (it₀ :: past').length + 1 := rfl
    by_cases hbefore : (it :: past).length = (it₀ :: past').length
    · obtain ⟨hpath, rfl, rfl⟩ := h.unique hvisits hbefore
      cases hpath
      exact ⟨hverdict, hbudget, _, _, _, hrun⟩
    · exact ih (by omega)

theorem Visits.exists_of_isSuffix (h : Visits m f view x σ₀ path verdict σ)
    (hsuffix : path' <:+ path) (hne : path' ≠ []) :
    ∃ verdict σ, Visits m f view x σ₀ path' verdict σ := by
  induction h with
  | start hstart =>
    rcases List.suffix_cons_iff.mp hsuffix with rfl | hnil
    · exact ⟨_, _, .start hstart⟩
    · exact absurd (List.suffix_nil.mp hnil) hne
  | move hvisits hverdict hbudget hrun ih =>
    rcases List.suffix_cons_iff.mp hsuffix with rfl | hbefore
    · exact ⟨_, _, hvisits.move hverdict hbudget hrun⟩
    · exact ih hbefore

/-! ## Runs that have ended -/

theorem EndsWith.length_le {e : Ending α n} (hends : EndsWith m it verdict e)
    (h : Visits m f view x σ₀ (it :: past) verdict σ)
    (h' : Visits m f view x σ₀ path' verdict' σ') : path'.length ≤ (it :: past).length := by
  by_contra hlt
  obtain ⟨hverdict, hbudget, _, _, _, hrun⟩ := h.moved_of_lt h' (Nat.lt_of_not_le hlt)
  cases hends with
  | converged hconverged => cases hverdict.symm.trans hconverged
  | exhausted _ hexhausted => exact hbudget.ne hexhausted
  | stuck _ _ hstuck => cases hstuck.symm.trans (moves_of_run hrun).recovered

theorem Visits.run_of_converged (h : Visits m f view x σ₀ (it :: past) verdict σ)
    (hverdict : verdict.converged = true) :
    (m.run f view x).run (m.opened σ₀) = (.ok ⟨it, verdict, .converged⟩, σ.closed) := by
  cases h with
  | start => cases hverdict
  | @move it₀ _ _ _ _ _ _ hvisits hbefore hbudget hrun =>
    obtain ⟨steps, hsteps⟩ := Nat.exists_eq_succ_of_ne_zero (Nat.sub_pos_of_lt hbudget).ne'
    rw [hvisits.resume hbefore, hsteps, iterate, run_bind_ok hrun]
    simp only [hverdict, if_true]
    rfl

/-- A run from which an ending was read off has that ending. The last iteration was the one that
led to the last iterate, or one that was stuck there. -/
theorem Visits.run_of_endsWith {e : Ending α n} (h : Visits m f view x σ₀ (it :: past) verdict σ)
    (hends : EndsWith m it verdict e) :
    ∃ σ₁, (m.run f view x).run (m.opened σ₀) = (.ok e, σ₁.closed) ∧
      (σ₁ = σ ∨ (m.advance f view it).run σ = (.ok .stuck, σ₁)) := by
  cases hends with
  | converged hverdict => exact ⟨σ, h.run_of_converged hverdict, Or.inl rfl⟩
  | exhausted hverdict hbudget =>
    refine ⟨σ, ?_, Or.inl rfl⟩
    rw [h.resume hverdict, hbudget, Nat.sub_self]
    rfl
  | stuck hverdict hbudget hrecovered =>
    obtain ⟨σ₁, hstuck⟩ := run_advance_of_not_recovered m f view σ hrecovered
    obtain ⟨steps, hsteps⟩ := Nat.exists_eq_succ_of_ne_zero (Nat.sub_pos_of_lt hbudget).ne'
    refine ⟨σ₁, ?_, Or.inr hstuck⟩
    rw [h.resume hverdict, hsteps, iterate, run_bind_ok hstuck]
    rfl

theorem GoesOn.run_eq_of_interrupted (h : m.GoesOn f view x σ₀ it past σ) {i : Interrupt α n}
    (hadvance : (m.advance f view it).run σ = (.error i, σ')) :
    (m.run f view x).run (m.opened σ₀) = (.error i, σ'.closed) := by
  obtain ⟨verdict, hvisits, hverdict, hbudget⟩ := h
  obtain ⟨steps, hsteps⟩ := Nat.exists_eq_succ_of_ne_zero (Nat.sub_pos_of_lt hbudget).ne'
  rw [hvisits.resume hverdict, hsteps, iterate, run_bind_error hadvance]
  rfl

theorem GoesOn.length_le_of_interrupted (h : m.GoesOn f view x σ₀ it past σ) {i : Interrupt α n}
    (hadvance : (m.advance f view it).run σ = (.error i, σ'))
    (h' : Visits m f view x σ₀ path' verdict' σ₁) : path'.length ≤ (it :: past).length := by
  obtain ⟨verdict, hvisits, -, -⟩ := h
  by_contra hlt
  obtain ⟨-, -, _, _, _, hmoved⟩ := hvisits.moved_of_lt h' (Nat.lt_of_not_le hlt)
  cases hadvance.symm.trans hmoved

theorem exists_interrupted_session {i : Interrupt α n}
    (hstart : (m.start f view x).run (m.opened σ₀) = (.ok it, σ))
    (h : (m.run f view x).run (m.opened σ₀) = (.error i, σ')) :
    ∃ it past σ σ₁, m.GoesOn f view x σ₀ it past σ ∧
      (m.advance f view it).run σ = (.error i, σ₁) ∧ σ' = σ₁.closed := by
  obtain ⟨it, past, σ, σ₁, hgoes, hadvance⟩ := exists_interrupted hstart h
  cases h.symm.trans (hgoes.run_eq_of_interrupted hadvance)
  exact ⟨it, past, σ, σ₁, hgoes, hadvance, rfl⟩

/-! ## The whole history -/

/-- All the iterates of a run, in their order. -/
structure IsHistory (m : Minimizer ω α) (f : Objective ω α n) (view : Vec α n → Tensor α)
    (x : Vec α n) (σ₀ : Session ω α) (history : List (Iterate α n)) : Prop where
  visited : ∃ verdict σ, Visits m f view x σ₀ history.reverse verdict σ
  complete {path : List (Iterate α n)} {verdict : Verdict} {σ : Session ω α} :
    Visits m f view x σ₀ path verdict σ → path.length ≤ history.length

/-- A run whose start succeeds has a history, however it ends. -/
theorem exists_history (hstart : (m.start f view x).run (m.opened σ₀) = (.ok it, σ)) :
    ∃ history, m.IsHistory f view x σ₀ history := by
  rcases hrun : (m.run f view x).run (m.opened σ₀) with ⟨i | e, σ'⟩
  · obtain ⟨it, past, σ, σ₁, hgoes, hadvance⟩ := exists_interrupted hstart hrun
    obtain ⟨verdict, hvisits, -, -⟩ := id hgoes
    refine ⟨(it :: past).reverse, ⟨verdict, σ, ?_⟩, fun h' ↦ ?_⟩
    · rwa [List.reverse_reverse]
    · rw [List.length_reverse]
      exact hgoes.length_le_of_interrupted hadvance h'
  · obtain ⟨it, past, verdict, σ, hvisits, hends⟩ := exists_last hrun
    refine ⟨(it :: past).reverse, ⟨verdict, σ, ?_⟩, fun h' ↦ ?_⟩
    · rwa [List.reverse_reverse]
    · rw [List.length_reverse]
      exact hends.length_le hvisits h'

end Minimizer

end NonlinearCG
