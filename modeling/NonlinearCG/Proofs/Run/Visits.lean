import Mathlib
import NonlinearCG.Proofs.Run.Advance

/-!
# The iterates of a run

A run is a loop of iterations. `Visits` names the states that the loop goes through: the iterates so
far, the latest one first, with the verdict on it and the session that it leaves behind. It holds
for any type of scalars, any line search and any refreshing of the preconditioner, and nothing is
lost by looking at it:

* `Visits.resume`: from a visited iterate on, the remaining iterations do what the whole run does;
* `exists_last`: what a run returns is its last visited iterate, with the reason for which it went
  no further;
* `exists_interrupted`: a run that is interrupted after its start is interrupted in an iteration
  from a visited iterate.

What holds of every visited iterate therefore holds of the results.
-/

namespace NonlinearCG.Minimizer

variable {ω α : Type} [Scalar α] {n : ℕ}

/-- The number of iterations that a run may do. -/
def budget (m : Minimizer ω α) : ℕ := m.options.iterations.steps

/-- The run from a point comes to an iterate, by way of earlier ones. -/
inductive Visits (m : Minimizer ω α) (f : Objective ω α n) (view : Vec α n → Tensor α)
    (x : Vec α n) (σ₀ : Session ω α) : List (Iterate α n) → Verdict → Session ω α → Prop
  | start {it : Iterate α n} {σ : Session ω α} :
      (m.start f view x).run (m.opened σ₀) = (.ok it, σ) → Visits m f view x σ₀ [it] {} σ
  | move {it it' : Iterate α n} {past : List (Iterate α n)} {verdict verdict' : Verdict}
      {σ σ' : Session ω α} :
      Visits m f view x σ₀ (it :: past) verdict σ → verdict.converged = false →
      it.iteration < m.budget → (m.advance f view it).run σ = (.ok (.moved it' verdict'), σ') →
      Visits m f view x σ₀ (it' :: it :: past) verdict' σ'

/-- The run from a point is to go on from an iterate: no criterion is met there, and the budget is
not used up. -/
def GoesOn (m : Minimizer ω α) (f : Objective ω α n) (view : Vec α n → Tensor α) (x : Vec α n)
    (σ₀ : Session ω α) (it : Iterate α n) (past : List (Iterate α n)) (σ : Session ω α) : Prop :=
  ∃ verdict, Visits m f view x σ₀ (it :: past) verdict σ ∧ verdict.converged = false ∧
    it.iteration < m.budget

variable {m : Minimizer ω α} {f : Objective ω α n} {view : Vec α n → Tensor α} {x : Vec α n}
  {σ₀ σ σ' : Session ω α} {it it' : Iterate α n} {past : List (Iterate α n)} {verdict : Verdict}

/-! ## Iterates and results -/

namespace Visits

/-- Induction on the iterates of a run: what holds of the first one, and passes from an iterate to
the one that an iteration leads to, holds of every iterate. -/
@[elab_as_elim]
theorem head_induction
    {motive : ∀ it past verdict σ, Visits m f view x σ₀ (it :: past) verdict σ → Prop}
    {it : Iterate α n} {past : List (Iterate α n)} {verdict : Verdict} {σ : Session ω α}
    (h : Visits m f view x σ₀ (it :: past) verdict σ)
    (start : ∀ {it σ} (hstart : (m.start f view x).run (m.opened σ₀) = (.ok it, σ)),
      motive it [] {} σ (.start hstart))
    (move : ∀ {it it' past verdict verdict' σ σ'} (h : Visits m f view x σ₀ (it :: past) verdict σ)
      (hverdict : verdict.converged = false) (hlt : it.iteration < m.budget)
      (hrun : (m.advance f view it).run σ = (.ok (.moved it' verdict'), σ')),
      motive it past verdict σ h →
        motive it' (it :: past) verdict' σ' (h.move hverdict hlt hrun)) :
    motive it past verdict σ h := by
  cases h with
  | start hstart => exact start hstart
  | move hbefore hverdict hlt hrun =>
    have ih := head_induction hbefore start move
    exact move hbefore hverdict hlt hrun ih

theorem iteration_eq_length (h : Visits m f view x σ₀ (it :: past) verdict σ) :
    it.iteration = past.length := by
  induction h using head_induction with
  | start hstart => exact (starts_of_run hstart).iteration
  | move _ _ _ hrun ih => rw [(moves_of_run hrun).iteration, ih, List.length_cons]

theorem iteration_le (h : Visits m f view x σ₀ (it :: past) verdict σ) :
    it.iteration ≤ m.budget := by
  cases h with
  | start hstart =>
    rw [(starts_of_run hstart).iteration]
    exact Nat.zero_le _
  | move _ _ hlt hrun =>
    rw [(moves_of_run hrun).iteration]
    exact hlt

end Visits

/-! ## Resuming a run -/

/-- The outcome of a run, from that of its loop. -/
def finalized (r : Except (Interrupt α n) (Ending α n) × Session ω α) :
    Except (Interrupt α n) (Ending α n) × Session ω α :=
  (r.1, { r.2 with observers := Observer.finalizeAll r.2.observers })

/-- From a visited iterate that does not meet a criterion, the iterations that are left do what the
whole run does. -/
theorem Visits.resume (h : Visits m f view x σ₀ (it :: past) verdict σ)
    (hverdict : verdict.converged = false) :
    (m.run f view x).run (m.opened σ₀) =
      finalized ((m.iterate f view (m.budget - it.iteration) it).run σ) := by
  induction h using head_induction with
  | start hstart =>
    rw [run, run_bind_ok hstart, (starts_of_run hstart).iteration]
    rfl
  | @move it₀ it' _ _ _ _ _ _ hverdict₀ hlt hrun ih =>
    -- the iteration before is the first of those that were left there
    have hleft : m.budget - it₀.iteration = m.budget - it'.iteration + 1 := by
      rw [(moves_of_run hrun).iteration]
      omega
    rw [ih hverdict₀, hleft, iterate, run_bind_ok hrun]
    simp only [hverdict, Bool.false_eq_true, if_false]

/-! ## The last iterate -/

/-- How a run ends at an iterate with a verdict on it. -/
inductive EndsWith (m : Minimizer ω α) (it : Iterate α n) (verdict : Verdict) : Ending α n → Prop
  | converged : verdict.converged = true → EndsWith m it verdict ⟨it, verdict, .converged⟩
  | exhausted : verdict.converged = false → it.iteration = m.budget →
      EndsWith m it verdict ⟨it, {}, .iterationLimit⟩
  | stuck : verdict.converged = false → it.iteration < m.budget →
      (descentRestart it.gradient it.direction).recovered = false →
      EndsWith m it verdict ⟨it, {}, .degenerateDirection⟩

theorem EndsWith.last_eq {e : Ending α n} (h : EndsWith m it verdict e) : e.last = it := by
  cases h with
  | converged | exhausted | stuck => rfl

theorem exists_last_of_iterate {e : Ending α n} (steps : ℕ)
    (h : Visits m f view x σ₀ (it :: past) verdict σ) (hverdict : verdict.converged = false)
    (hsteps : it.iteration + steps = m.budget)
    (hrun : (m.iterate f view steps it).run σ = (.ok e, σ')) :
    ∃ it past verdict σ, Visits m f view x σ₀ (it :: past) verdict σ ∧ EndsWith m it verdict e := by
  induction steps generalizing it past verdict σ with
  | zero =>
    cases hrun
    exact ⟨it, past, verdict, _, h, .exhausted hverdict hsteps⟩
  | succ steps ih =>
    have hlt : it.iteration < m.budget := by omega
    obtain ⟨result, σ₁, hadvance, hrest⟩ := run_bind_eq_ok hrun
    cases result with
    | stuck =>
      cases hrest
      have hstuck := not_recovered_of_run hadvance
      exact ⟨it, past, verdict, _, h, .stuck hverdict hlt hstuck⟩
    | moved it' verdict' =>
      have hvisits := h.move hverdict hlt hadvance
      rcases hconverged : verdict'.converged with _ | _
      · simp only [hconverged, Bool.false_eq_true, if_false] at hrest
        have hiteration := (moves_of_run hadvance).iteration
        exact ih hvisits hconverged (by omega) hrest
      · simp only [hconverged, if_true] at hrest
        cases hrest
        exact ⟨it', it :: past, verdict', _, hvisits, .converged hconverged⟩

/-- A run that returns has ended at a visited iterate. -/
theorem exists_last {e : Ending α n} (h : (m.run f view x).run (m.opened σ₀) = (.ok e, σ')) :
    ∃ it past verdict σ, Visits m f view x σ₀ (it :: past) verdict σ ∧ EndsWith m it verdict e := by
  obtain ⟨it, σ, hstart, hrest⟩ := run_bind_eq_ok h
  have hvisits : Visits m f view x σ₀ [it] {} σ := .start hstart
  have hfinal : finalized ((m.iterate f view m.budget it).run σ) = (.ok e, σ') := hrest
  rcases hiterate : (m.iterate f view m.budget it).run σ with ⟨result, σ₁⟩
  rw [hiterate] at hfinal
  cases hfinal
  have hzero : it.iteration = 0 := (starts_of_run hstart).iteration
  exact exists_last_of_iterate m.budget hvisits rfl (by omega) hiterate

/-! ## Interruptions -/

theorem exists_interrupted_of_iterate {i : Interrupt α n} (steps : ℕ)
    (h : Visits m f view x σ₀ (it :: past) verdict σ) (hverdict : verdict.converged = false)
    (hsteps : it.iteration + steps = m.budget)
    (hrun : (m.iterate f view steps it).run σ = (.error i, σ')) :
    ∃ it past σ σ', m.GoesOn f view x σ₀ it past σ ∧
      (m.advance f view it).run σ = (.error i, σ') := by
  induction steps generalizing it past verdict σ with
  | zero => cases hrun
  | succ steps ih =>
    have hlt : it.iteration < m.budget := by omega
    rcases run_bind_eq_error hrun with hadvance | ⟨result, σ₁, hadvance, hrest⟩
    · exact ⟨it, past, σ, σ', ⟨verdict, h, hverdict, hlt⟩, hadvance⟩
    · cases result with
      | stuck => cases hrest
      | moved it' verdict' =>
        rcases hconverged : verdict'.converged with _ | _
        · simp only [hconverged, Bool.false_eq_true, if_false] at hrest
          have hiteration := (moves_of_run hadvance).iteration
          exact ih (h.move hverdict hlt hadvance) hconverged (by omega) hrest
        · simp only [hconverged, if_true] at hrest
          cases hrest

/-- A run that is interrupted after its start is interrupted in an iteration. -/
theorem exists_interrupted {i : Interrupt α n}
    (hstart : (m.start f view x).run (m.opened σ₀) = (.ok it, σ))
    (h : (m.run f view x).run (m.opened σ₀) = (.error i, σ')) :
    ∃ it past σ σ', m.GoesOn f view x σ₀ it past σ ∧
      (m.advance f view it).run σ = (.error i, σ') := by
  have hvisits : Visits m f view x σ₀ [it] {} σ := .start hstart
  have hzero : it.iteration = 0 := (starts_of_run hstart).iteration
  rw [hvisits.resume rfl, hzero, Nat.sub_zero] at h
  rcases hiterate : (m.iterate f view m.budget it).run σ with ⟨i' | e, σ₁⟩
  · rw [hiterate] at h
    cases h
    exact exists_interrupted_of_iterate m.budget hvisits rfl (by omega) hiterate
  · rw [hiterate] at h
    cases h

theorem GoesOn.run_of_interrupted (h : m.GoesOn f view x σ₀ it past σ) {i : Interrupt α n}
    (hadvance : (m.advance f view it).run σ = (.error i, σ')) :
    ∃ σ₁, (m.run f view x).run (m.opened σ₀) = (.error i, σ₁) := by
  obtain ⟨verdict, hvisits, hverdict, hlt⟩ := h
  obtain ⟨steps, hsteps⟩ := Nat.exists_eq_add_of_lt (Nat.sub_pos_of_lt hlt)
  rw [Nat.zero_add] at hsteps
  rw [hvisits.resume hverdict, hsteps, iterate, run_bind_error hadvance]
  exact ⟨_, rfl⟩

theorem exists_ending_of_ok {r : Results α} (h : (m.minimizeFrom f view x σ₀).1.outcome = .ok r) :
    ∃ e σ' trace, (m.run f view x).run (m.opened σ₀) = (.ok e, σ') ∧
      r = results m.options view x trace e := by
  rcases hrun : (m.run f view x).run (m.opened σ₀) with ⟨i | e, σ'⟩
  · simp only [minimizeFrom, hrun] at h
    cases h
  · simp only [minimizeFrom, hrun] at h
    cases h
    exact ⟨e, σ', _, rfl, rfl⟩

theorem exists_ok_of_ending {e : Ending α n}
    (h : (m.run f view x).run (m.opened σ₀) = (.ok e, σ')) :
    ∃ trace, (m.minimizeFrom f view x σ₀).1.outcome = .ok (results m.options view x trace e) := by
  simp only [minimizeFrom, h]
  exact ⟨_, rfl⟩

end NonlinearCG.Minimizer
