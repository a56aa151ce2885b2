import Mathlib
import NonlinearCG.Proofs.Exact.Vector
import NonlinearCG.Proofs.LineSearch.Tally
import NonlinearCG.Proofs.Run.History

/-!
# The evaluations of a run that stops

A run carries the number of its evaluations along, adding what the prediction, the line search and
the evaluation at the new point report. An optimizer error is given the number that the run had
when it was raised.
-/

namespace NonlinearCG.Minimizer

variable {ω α : Type} [Scalar α] {n : ℕ} {tally : ω → Calls}

/-! ## Interruptions -/

/-- A line search of the run at a point gives up. It began when the world had counted `c`
evaluations, and the world has counted `lost` more. -/
def GivesUp (m : Minimizer ω α) (f : Objective ω α n) (tally : ω → Calls) (x : Vec α n)
    (e : SearchError α) (c lost : Calls) : Prop :=
  ∃ s trial mayAccept b b', (m.lineSearch.search f x s trial mayAccept).run b =
    (.error (.search e), b') ∧ tally b.world.world = c ∧ tally b'.world.world = c + lost

/-- An interruption accounts for the evaluations since the world had counted `c`, apart from those
of a line search that gave up. -/
def Interrupt.Accounts (m : Minimizer ω α) (f : Objective ω α n) (tally : ω → Calls) (c : Calls)
    (w : ω) : Interrupt α n → Prop
  | .breakdown _ => True
  | .stopped (.search e) _ calls x => ∃ lost,
      tally w = c + calls + lost ∧ m.GivesUp f tally x e (c + calls) lost
  | .stopped _ _ calls _ => tally w = c + calls

/-- Refreshing the preconditioner evaluates nothing. -/
def Spares (m : Minimizer ω α) (tally : ω → Calls) : Prop :=
  ∀ {P P' : Preconditioner α} {x : Array α} {w w' : ω},
    (m.refresh P x).run w = (.ok P', w') → tally w' = tally w

variable {m : Minimizer ω α} {f : Objective ω α n} {view : Vec α n → Tensor α} {x : Vec α n}
  {σ₀ σ σ' : Session ω α} {it it' : Iterate α n} {past : List (Iterate α n)} {verdict : Verdict}
  {s : Vec α n} {slope : α} {c : Calls}

/-! ## Parts of an iteration -/

omit [Scalar α] in
theorem tally_of_announce {d : Descent α n} (h : (announce d).run σ = (.ok (), σ')) :
    tally σ'.world = tally σ.world := by
  obtain ⟨log, rfl⟩ := exists_log_of_announce h
  rfl

omit [Scalar α] in
theorem tally_of_evaluate (hf : f.Tallies tally) {r : α × Vec α n}
    (h : (Run.evaluate (f.both x) : Run ω α n _).run σ = (.ok r, σ')) :
    tally σ'.world = tally σ.world + .ofBoth := by
  obtain ⟨w, hboth, rfl⟩ := (meets_evaluate σ _).of_run_ok h
  exact hf.both hboth

omit [Scalar α] in
theorem tally_of_prepare (hm : m.Spares tally) {P : Operator α n}
    (h : (m.prepare x).run σ = (.ok P, σ')) : tally σ'.world = tally σ.world := by
  obtain ⟨_, w, hrefresh, -, rfl⟩ := (meets_prepare σ m x).of_run_ok h
  exact hm hrefresh

theorem tally_of_predict (hf : f.Tallies tally) {q : Prediction α}
    (h : (predict f it s slope).run σ = (.ok q, σ')) (hσ : tally σ.world = c + it.calls) :
    tally σ'.world = c + q.calls := by
  obtain ⟨calls, b, hpropose, hq, rfl⟩ := (meets_predict ..).of_run_ok h
  have haccounts := (TrialStep.keepsTo_propose .default it.alpha).accounts
    (TrialStep.counts_propose _ _ _) (hf.along it.x s)
  calc tally b.world.world = tally σ.world + calls := haccounts.of_ok hpropose
    _ = c + it.calls + calls := by rw [hσ]
    _ = c + (it.calls + calls) := add_assoc ..
    _ = c + q.calls := by rw [hq]

theorem tally_of_searchStep (hf : f.Tallies tally) (hm : m.lineSearch.Accounts) {r : α × Calls}
    (h : (m.searchStep f it s slope).run σ = (.ok r, σ')) (hσ : tally σ.world = c + it.calls) :
    tally σ'.world = c + r.2 := by
  obtain ⟨q, σ₁, step, b, hpredict, hsearch, rfl, rfl⟩ := (meets_searchStep ..).of_run_ok h
  have hpredicted := tally_of_predict hf hpredict hσ
  have haccounts := hm hf it.x s q.trial q.mayAccept
  calc tally b.world.world = tally σ₁.world + step.calls := haccounts.of_ok hsearch
    _ = c + q.calls + step.calls := by rw [hpredicted]
    _ = c + (q.calls + step.calls) := add_assoc ..

theorem accounts_of_searchStep (hf : f.Tallies tally) (hm : m.lineSearch.Accounts)
    {i : Interrupt α n} (h : (m.searchStep f it s slope).run σ = (.error i, σ'))
    (hσ : tally σ.world = c + it.calls) : i.Accounts m f tally c σ'.world := by
  rcases (meets_searchStep ..).of_run_error h with
    hpredict | ⟨q, σ₁, e, b, hpredict, hsearch, rfl, rfl⟩
  · obtain ⟨_, _, -, rfl, -⟩ := (meets_predict ..).of_run_error hpredict
    trivial
  · cases e with
    | breakdown => trivial
    | search e =>
      have hpredicted := tally_of_predict hf hpredict hσ
      have haccounts := hm hf it.x s q.trial q.mayAccept
      obtain ⟨lost, hlost⟩ := haccounts.of_search hsearch
      have htotal : tally b.world.world = c + q.calls + lost := hpredicted ▸ hlost
      exact ⟨lost, htotal, s, q.trial, q.mayAccept, _, b, hsearch, hpredicted, htotal⟩

theorem Finds.tally_eq (hf : f.Tallies tally) (hm : m.lineSearch.Accounts) {r : α × Calls}
    (h : m.Finds f it σ r σ') (hσ : tally σ.world = c + it.calls) :
    tally σ'.world = c + r.2 := by
  obtain ⟨-, σ₁, hannounce, hsearch⟩ := h
  exact tally_of_searchStep hf hm hsearch ((tally_of_announce hannounce).trans hσ)

/-- What the world has counted when the objective is evaluated at the point to which a search
leads. -/
theorem Finds.tally_evaluated (hf : f.Tallies tally) (hm : m.lineSearch.Accounts) {r : α × Calls}
    {σ₂ : Session ω α} {y : Vec α n} {v : α × Vec α n} (h : m.Finds f it σ r σ')
    (hevaluate : (Run.evaluate (f.both y) : Run ω α n _).run σ' = (.ok v, σ₂))
    (hσ : tally σ.world = c + it.calls) : tally σ₂.world = c + (r.2 + .ofBoth) := by
  rw [tally_of_evaluate hf hevaluate, h.tally_eq hf hm hσ, add_assoc]

/-! ## Iterations -/

theorem Advances.tally_eq (hf : f.Tallies tally) (hm : m.lineSearch.Accounts)
    (hspares : m.Spares tally) (h : m.Advances f view it σ (.moved it' verdict) σ')
    (hσ : tally σ.world = c + it.calls) : tally σ'.world = c + it'.calls := by
  cases h with
  | moved hfinds _ hcalls _ hevaluate _ _ hprepare _ =>
    rw [notified_world, tally_of_prepare hspares hprepare, hcalls]
    exact hfinds.tally_evaluated hf hm hevaluate hσ

theorem Advances.tally_eq_of_stuck (h : m.Advances f view it σ .stuck σ') :
    tally σ'.world = tally σ.world := by
  cases h with
  | stuck _ hannounce =>
    obtain ⟨_, rfl⟩ := exists_log_of_announce hannounce
    rfl

theorem Interrupted.accounts (hf : f.Tallies tally) (hm : m.lineSearch.Accounts)
    {i : Interrupt α n} (h : m.Interrupted f it σ i σ') (hσ : tally σ.world = c + it.calls) :
    i.Accounts m f tally c σ'.world := by
  cases h with
  | search _ hannounce hsearch =>
    exact accounts_of_searchStep hf hm hsearch ((tally_of_announce hannounce).trans hσ)
  | evaluation _ _ hevaluate =>
    obtain ⟨_, _, -, rfl, -⟩ := (meets_evaluate _ _).of_run_error hevaluate
    trivial
  | value hfinds _ hevaluate => exact hfinds.tally_evaluated hf hm hevaluate hσ
  | verdict => trivial
  | preconditioner _ _ _ hprepare =>
    obtain ⟨_, rfl, -⟩ := (meets_prepare _ m _).of_run_error hprepare
    trivial

theorem Begins.tally_eq (hf : f.Tallies tally) (hspares : m.Spares tally)
    (h : m.Begins f view x σ it σ') : tally σ'.world = tally σ.world + it.calls := by
  cases h with
  | intro _ hcalls _ hevaluate _ _ _ hprepare _ =>
    rw [tally_of_prepare hspares hprepare, notified_world, tally_of_evaluate hf hevaluate, hcalls]

theorem Halted.accounts (hf : f.Tallies tally) {i : Interrupt α n}
    (h : m.Halted f view x σ i σ') : i.Accounts m f tally (tally σ.world) σ'.world := by
  cases h with
  | evaluation hevaluate =>
    obtain ⟨_, _, -, rfl, -⟩ := (meets_evaluate _ _).of_run_error hevaluate
    trivial
  | value hevaluate => exact tally_of_evaluate hf hevaluate
  | gradient hevaluate => exact tally_of_evaluate hf hevaluate
  | step => trivial
  | preconditioner _ hprepare =>
    obtain ⟨_, rfl, -⟩ := (meets_prepare _ m _).of_run_error hprepare
    trivial

/-! ## Whole runs -/

/-- At every iterate the run has counted the evaluations since it began. -/
theorem Visits.tally_eq (hf : f.Tallies tally) (hm : m.lineSearch.Accounts)
    (hspares : m.Spares tally) (h : Visits m f view x σ₀ (it :: past) verdict σ) :
    tally σ.world = tally σ₀.world + it.calls := by
  induction h using Visits.head_induction with
  | start hstart =>
    have hbegun := (begins_of_run hstart).tally_eq hf hspares
    exact hbegun
  | move _ _ _ hrun ih => exact (advances_of_run hrun).tally_eq hf hm hspares ih

/-- The interruption of a run accounts for its evaluations. -/
theorem accounts_of_run (hf : f.Tallies tally) (hm : m.lineSearch.Accounts)
    (hspares : m.Spares tally) {i : Interrupt α n}
    (h : (m.run f view x).run (m.opened σ₀) = (.error i, σ')) :
    i.Accounts m f tally (tally σ₀.world) σ'.world := by
  rcases hstart : (m.start f view x).run (m.opened σ₀) with ⟨i' | it₀, σ₁⟩
  · have hfailed : (m.run f view x).run (m.opened σ₀) = (.error i', σ₁) := run_bind_error hstart
    cases hfailed.symm.trans h
    exact (halted_of_run hstart).accounts hf
  · obtain ⟨it, past, σ, σ₂, ⟨_, hvisits, -⟩, hadvance, rfl⟩ :=
      exists_interrupted_session hstart h
    exact (interrupted_of_run hadvance).accounts hf hm (hvisits.tally_eq hf hm hspares)

/-! ## Errors -/

theorem exists_interrupt_of_error {view : Vec α n → Tensor α} {x : Vec α n} {σ₀ : Session ω α}
    {e : OptimizerError α} (h : (m.minimizeFrom f view x σ₀).1.outcome = .error (.optimizer e)) :
    ∃ iteration calls y σ', (m.run f view x).run (m.opened σ₀) =
        (.error (.stopped e.cause iteration calls y), σ') ∧
      σ'.world = (m.minimizeFrom f view x σ₀).2.world ∧ e.progress.x = some (view y) ∧
      e.progress.iteration = iteration ∧ e.progress.values = calls.values ∧
      e.progress.gradients = calls.gradients := by
  rcases hrun : (m.run f view x).run (m.opened σ₀) with ⟨(cause | ⟨cause, k, calls, y⟩) | r, σ'⟩
  · simp only [minimizeFrom, hrun] at h
    cases h
  · simp only [minimizeFrom, hrun] at h ⊢
    cases h
    exact ⟨k, calls, y, σ', rfl, rfl, rfl, rfl, rfl, rfl⟩
  · simp only [minimizeFrom, hrun] at h
    cases h

/-- **What an optimizer error says of the evaluations.** For any type of scalars, any objective that
tallies its evaluations, any options, any preconditioner whose refreshing evaluates nothing and both
line searches: the counters of the error, and what the line search that gave up had counted, add up
to the evaluations since the run began. Unless the run stops in a line search, the counters are
complete. If it does, they are those at the moment at which this search began, and its own
evaluations are missing. -/
theorem minimizeFrom_error_calls (hf : f.Tallies tally) (hspares : m.Spares tally) {q : Strategy α}
    (hm : m.lineSearch = q.lineSearch) {view : Vec α n → Tensor α} {x : Vec α n}
    {σ₀ : Session ω α} {e : OptimizerError α}
    (h : (m.minimizeFrom f view x σ₀).1.outcome = .error (.optimizer e)) :
    ∃ attached lost : Calls,
      e.progress.values = attached.values ∧ e.progress.gradients = attached.gradients ∧
      tally (m.minimizeFrom f view x σ₀).2.world = tally σ₀.world + attached + lost ∧
      ((∀ c, e.cause ≠ .search c) → lost = 0) ∧
      ∀ c, e.cause = .search c → ∃ y, e.progress.x = some (view y) ∧
        m.GivesUp f tally y c (tally σ₀.world + attached) lost := by
  obtain ⟨k, calls, y, σ', hrun, hworld, hx, -, hvalues, hgradients⟩ := exists_interrupt_of_error h
  have haccounts := accounts_of_run hf (hm ▸ q.accounts) hspares hrun
  rw [hworld] at haccounts
  rcases hcause : e.cause with _ | _ | _ | c | _
  case search =>
    rw [hcause] at haccounts
    obtain ⟨lost, htally, hgives⟩ := haccounts
    refine ⟨calls, lost, hvalues, hgradients, htally, fun hne ↦ absurd rfl (hne c), ?_⟩
    rintro _ ⟨⟩
    exact ⟨y, hx, hgives⟩
  all_goals
    rw [hcause] at haccounts
    refine ⟨calls, 0, hvalues, hgradients, haccounts.trans (add_zero _).symm, fun _ ↦ rfl, ?_⟩
    rintro _ ⟨⟩

/-- The square of one variable, with the wrong sign in its gradient. -/
def misleadingSquare : Objective Unit (Exact Grid.rational) 1 :=
  .ofFunctions (fun x ↦ x.only * x.only) fun x ↦ #v[-(x.only + x.only)]

/-- Backtracking that gives up early. -/
def impatient : Strategy (Exact Grid.rational) :=
  .backtracking { Backtracking.default with iterations := 3 }

/-- Backtracking with three reductions, on a world that counts the evaluations. -/
def countingMinimizer : Minimizer (Unit × Calls) (Exact Grid.rational) where
  options := .default fun k ↦ ⟨k, true⟩
  lineSearch := impatient.lineSearch
  refresh _ _ := pure .identity

theorem countingMinimizer_lineSearch : countingMinimizer.lineSearch = impatient.lineSearch := rfl

theorem countingMinimizer_spares : countingMinimizer.Spares Prod.snd := by
  intro P P' x w w' h
  cases h
  rfl

/-- Uphill all the way: the four values of the search are missing in the error. -/
theorem minimizeFrom_error_calls_misleading :
    let σ₀ : Session (Unit × Calls) (Exact Grid.rational) :=
      { world := ((), 0), preconditioner := .identity }
    let r := countingMinimizer.minimizeFrom misleadingSquare.counted (⟨[1], ·⟩) #v[.num 1] σ₀
    ∃ e y c, r.1.outcome = .error (.optimizer e) ∧ e.progress.values = 2 ∧
      e.progress.gradients = 1 ∧ r.2.world.2 = ⟨6, 1⟩ ∧
      countingMinimizer.GivesUp misleadingSquare.counted Prod.snd y c ⟨2, 1⟩ ⟨4, 0⟩ := by
  intro σ₀ r
  have hrun : (match r.1.outcome with
      | .error (.optimizer ⟨.search _, p⟩) => some (p.values, p.gradients)
      | _ => none) = some (2, 1) := by
    decide +kernel
  have hworld : r.2.world.2 = ⟨6, 1⟩ := by
    decide +kernel
  split at hrun
  case h_1 c p houtcome =>
    obtain ⟨hvalues, hgradients⟩ := Prod.mk.inj (Option.some.inj hrun)
    obtain ⟨attached, lost, hattached, hattached', htally, -, hgives⟩ :=
      minimizeFrom_error_calls misleadingSquare.counted_tallies countingMinimizer_spares
        countingMinimizer_lineSearch houtcome
    obtain ⟨y, -, hgives⟩ := hgives c rfl
    rw [hvalues] at hattached
    rw [hgradients] at hattached'
    have hattached : attached = ⟨2, 1⟩ := congrArg₂ Calls.mk (by omega) (by omega)
    have htotal : (⟨6, 1⟩ : Calls) = 0 + attached + lost := hworld.symm.trans htally
    have hlost : lost = ⟨4, 0⟩ := by
      rw [hattached, zero_add] at htotal
      have hvalue : 6 = 2 + lost.values := congrArg Calls.values htotal
      have hgradient : 1 = 1 + lost.gradients := congrArg Calls.gradients htotal
      exact congrArg₂ Calls.mk (by omega) (by omega)
    rw [hattached, hlost] at hgives
    exact ⟨_, y, c, houtcome, hvalues, hgradients, hworld, hgives⟩
  case h_2 => cases hrun

end Minimizer

end NonlinearCG
