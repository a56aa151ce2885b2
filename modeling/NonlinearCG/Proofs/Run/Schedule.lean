import Mathlib
import NonlinearCG.Proofs.Exact.Quadratic
import NonlinearCG.Proofs.Observer
import NonlinearCG.Proofs.Run.Refreshing

/-!
# When the caller is called

A run calls its caller at fixed moments: it shows each iterate to the observers, refreshes the
preconditioner there, and finalizes the observers at its end. The list of observers changes at one
place only, so that what is to be known of it is one fact for each kind of iteration: an iteration
that moves shows the new iterate, and one that is stuck or interrupted shows nothing
(`Advances.observers_eq`, `Interrupted.during`). By induction, a run that has come to an iterate has
shown all of them so far (`Visits.observers`), and what it leaves behind follows for each way in
which it may end.

The observers that a run brings with it stand in the same list. The trace in its results or in its
error is therefore another instance of the same statement (`exists_report_of_ok`,
`exists_report_of_error`).
-/

namespace NonlinearCG

/-- A leaf after a run that has come to some states and has ended. -/
def Leaf.attended {α : Type} (states : List (State α)) (l : Leaf α) : Leaf α :=
  (l.shown states).finish

def ErrorCause.IsCheck {α : Type} : ErrorCause α → Prop
  | startValue _ | startGradient _ => True
  | _ => False

namespace Minimizer

variable {ω α : Type} [Scalar α] {n : ℕ} {m : Minimizer ω α} {f : Objective ω α n}
  {O : List (Observer α)}

/-! ## One iteration -/

/-- An interruption of the iteration from an iterate. Only a value that is not finite is found at
another point than that of the iterate. -/
inductive Interrupt.During (it : Iterate α n) : Interrupt α n → Prop
  | breakdown (cause : Breakdown) : During it (.breakdown cause)
  | search (e : SearchError α) (calls : Calls) :
      During it (.stopped (.search e) (it.iteration + 1) calls it.x)
  | value (v : α) (calls : Calls) (y : Vec α n) :
      During it (.stopped (.stepValue v (it.iteration + 1)) (it.iteration + 1) calls y)

omit [Scalar α] in
theorem Interrupt.During.iteration_eq {it : Iterate α n} {i : Interrupt α n} (h : i.During it)
    {view : Vec α n → Tensor α} {trace : Array (State α)} {e : OptimizerError α}
    (he : .optimizer e = error view trace i) : e.progress.iteration = it.iteration + 1 := by
  cases h with
  | breakdown => cases he
  | search | value =>
    cases he
    rfl

omit [Scalar α] in
theorem Interrupt.During.not_isCheck {it : Iterate α n} {cause : ErrorCause α} {k : ℕ}
    {calls : Calls} {y : Vec α n} (h : Interrupt.During it (.stopped cause k calls y)) :
    ¬cause.IsCheck := by
  cases h with
  | search | value => exact id

/-- An interruption of the start at a point. -/
inductive Interrupt.AtStart (x : Vec α n) : Interrupt α n → Prop
  | breakdown (cause : Breakdown) : AtStart x (.breakdown cause)
  | value (v : α) : AtStart x (.stopped (.startValue v) 0 .ofBoth x)
  | gradient (positions : List ℕ) : AtStart x (.stopped (.startGradient positions) 0 .ofBoth x)

/-- Passing over a state makes no difference to the observers: the observers after an iterate is
shown are the same whether one of them was due or not. -/
theorem notified_eq (m : Minimizer ω α) (view : Vec α n → Tensor α) (it : Iterate α n)
    (σ : Session ω α) : m.notified view it σ =
      { σ with
        observers := Observer.mapAll (.shown [state m.options view it]) σ.observers } := by
  rw [notified, ← Observer.observeDue_eq_mapAll]
  by_cases hdue : σ.observers.any (Observer.dueAt it.iteration) = true
  · rw [if_pos hdue]
  · have hpassed := Observer.observeDue_of_not_due (s := state m.options view it)
      (Bool.eq_false_iff.mpr hdue)
    rw [if_neg hdue, hpassed]

section Parts

variable {view : Vec α n → Tensor α} {x : Vec α n} {it it' : Iterate α n} {verdict : Verdict}
  {σ σ' : Session ω α} {i : Interrupt α n}

omit [Scalar α] in
theorem observers_of_evaluate {A : Type} {act : Eval ω A} {a : A}
    (h : (Run.evaluate act : Run ω α n A).run σ = (.ok a, σ')) : σ'.observers = σ.observers := by
  obtain ⟨w, -, rfl⟩ := (meets_evaluate σ act).of_run_ok h
  rfl

omit [Scalar α] in
theorem observers_of_prepare {P : Operator α n} (h : (m.prepare x).run σ = (.ok P, σ')) :
    σ'.observers = σ.observers := by
  obtain ⟨_, w, -, -, rfl⟩ := (meets_prepare σ m x).of_run_ok h
  rfl

theorem Finds.observers_eq {r : α × Calls} (h : m.Finds f it σ r σ') :
    σ'.observers = σ.observers := by
  obtain ⟨w, log, rfl⟩ := h.exists_session
  rfl

omit [Scalar α] in
theorem Iterate.during_interrupt (it : Iterate α n) (calls : Calls) (e : Fault α) :
    Interrupt.During it (it.interrupt calls e) := by
  cases e with
  | breakdown cause => exact .breakdown cause
  | search e => exact .search e calls

theorem during_of_searchStep {s : Vec α n} {slope : α}
    (h : (m.searchStep f it s slope).run σ = (.error i, σ')) : i.During it := by
  rcases (meets_searchStep ..).of_run_error h with
    hpredict | ⟨q, σ₁, e, b, -, -, rfl, -⟩
  · obtain ⟨cause, b, -, rfl, -⟩ := (meets_predict ..).of_run_error hpredict
    exact .breakdown cause
  · exact it.during_interrupt _ e

/-- An iteration shows its new iterate to the observers. -/
theorem Advances.observers_eq (h : m.Advances f view it σ (.moved it' verdict) σ') :
    σ'.observers = Observer.mapAll (.shown [state m.options view it']) σ.observers := by
  cases h with
  | moved hfinds _ _ _ hevaluate _ _ hprepare _ =>
    rw [notified_eq, observers_of_prepare hprepare, observers_of_evaluate hevaluate,
      hfinds.observers_eq]

theorem Advances.observers_eq_of_stuck (h : m.Advances f view it σ .stuck σ') :
    σ'.observers = σ.observers := by
  cases h with
  | stuck _ hannounce =>
    obtain ⟨log, rfl⟩ := exists_log_of_announce hannounce
    rfl

theorem Interrupted.during (h : m.Interrupted f it σ i σ') :
    i.During it ∧ σ'.observers = σ.observers := by
  cases h with
  | search _ hannounce hsearch =>
    have hduring := during_of_searchStep hsearch
    obtain ⟨w, log, rfl⟩ := exists_session_of_searchStep hsearch
    obtain ⟨log', rfl⟩ := exists_log_of_announce hannounce
    exact ⟨hduring, rfl⟩
  | evaluation hfinds _ hevaluate =>
    obtain ⟨cause, w, -, rfl, rfl⟩ := (meets_evaluate _ _).of_run_error hevaluate
    exact ⟨.breakdown cause, hfinds.observers_eq⟩
  | value hfinds _ hevaluate =>
    exact ⟨.value _ _ _, (observers_of_evaluate hevaluate).trans hfinds.observers_eq⟩
  | verdict hfinds _ hevaluate =>
    exact ⟨.breakdown _, (observers_of_evaluate hevaluate).trans hfinds.observers_eq⟩
  | preconditioner hfinds _ hevaluate hprepare =>
    obtain ⟨cause, rfl, hobservers, -⟩ := (meets_prepare _ m _).of_run_error hprepare
    exact ⟨.breakdown cause,
      hobservers.trans ((observers_of_evaluate hevaluate).trans hfinds.observers_eq)⟩

theorem Begins.observers_eq (h : m.Begins f view x σ it σ') :
    σ'.observers = Observer.mapAll (.shown [state m.options view it]) σ.observers := by
  cases h with
  | intro _ _ _ hevaluate _ _ _ hprepare _ =>
    rw [observers_of_prepare hprepare, notified_eq, observers_of_evaluate hevaluate]
    rfl

theorem Halted.atStart (h : m.Halted f view x σ i σ') :
    i.AtStart x ∧ ((∀ cause, i ≠ .breakdown cause) → σ'.observers = σ.observers) := by
  cases h with
  | evaluation hevaluate =>
    obtain ⟨cause, w, -, rfl, rfl⟩ := (meets_evaluate _ _).of_run_error hevaluate
    exact ⟨.breakdown cause, fun _ ↦ rfl⟩
  | value hevaluate => exact ⟨.value _, fun _ ↦ observers_of_evaluate hevaluate⟩
  | gradient hevaluate => exact ⟨.gradient _, fun _ ↦ observers_of_evaluate hevaluate⟩
  | step hevaluate => exact ⟨.breakdown _, fun _ ↦ observers_of_evaluate hevaluate⟩
  | preconditioner _ hprepare =>
    obtain ⟨cause, rfl, -⟩ := (meets_prepare _ m _).of_run_error hprepare
    exact ⟨.breakdown cause, fun hne ↦ absurd rfl (hne cause)⟩

end Parts

/-! ## The observers of a run -/

/-- The states of a list of iterates, the latest of which comes first, in their order. -/
def chronicle (m : Minimizer ω α) (view : Vec α n → Tensor α) (path : List (Iterate α n)) :
    List (State α) :=
  path.reverse.map (state m.options view)

theorem chronicle_cons (view : Vec α n → Tensor α) (it : Iterate α n)
    (past : List (Iterate α n)) :
    m.chronicle view (it :: past) = m.chronicle view past ++ [state m.options view it] := by
  simp [chronicle]

variable {view : Vec α n → Tensor α} {x : Vec α n} {σ₀ σ σ' : Session ω α} {it : Iterate α n}
  {past path : List (Iterate α n)} {verdict : Verdict}

/-- When a run comes to an iterate, its observers have been shown all iterates so far. -/
theorem Visits.observers (h : Visits m f view x σ₀ path verdict σ) :
    σ.observers = Observer.mapAll (.shown (m.chronicle view path)) (m.opened σ₀).observers := by
  induction h with
  | start hstart => exact (begins_of_run hstart).observers_eq
  | @move it it' past _ _ _ _ _ _ _ hrun ih =>
    have hleaf : Leaf.shown [state m.options view it'] ∘
        Leaf.shown (m.chronicle view (it :: past)) =
        Leaf.shown (m.chronicle view (it' :: it :: past)) := by
      funext l
      rw [Function.comp, Leaf.shown_shown, chronicle_cons _ it']
    calc _ = Observer.mapAll (.shown [state m.options view it']) _ :=
          (advances_of_run hrun).observers_eq
      _ = Observer.mapAll (.shown [state m.options view it'])
          (Observer.mapAll (.shown (m.chronicle view (it :: past))) (m.opened σ₀).observers) := by
        rw [ih]
      _ = Observer.mapAll (.shown (m.chronicle view (it' :: it :: past)))
          (m.opened σ₀).observers := by rw [Observer.mapAll_mapAll, hleaf]

theorem Visits.map_iteration (h : Visits m f view x σ₀ path verdict σ) :
    path.reverse.map Iterate.iteration = List.range path.length := by
  induction h with
  | start hstart =>
    rw [List.reverse_singleton, List.map_singleton, (starts_of_run hstart).iteration]
    rfl
  | move hvisits hverdict hbudget hrun ih =>
    have hiteration := (hvisits.move hverdict hbudget hrun).iteration_eq_length
    rw [List.reverse_cons, List.map_append, ih, List.map_singleton, hiteration]
    exact List.range_succ.symm

omit [Scalar α] in
theorem closed_observers {states : List (State α)}
    (h : σ.observers = Observer.mapAll (.shown states) O) :
    σ.closed.observers = Observer.mapAll (.attended states) O := by
  rw [Session.closed, Observer.finalizeAll_eq_mapAll, h, Observer.mapAll_mapAll]
  rfl

/-! ## Reports -/

/-- What an observer that a run brought with it was shown, if the run brought it and has changed its
observers. -/
def ownSeen (g : Leaf α → Leaf α) (medium : Medium) (brought : Bool) : Array (State α) :=
  if brought then (g ⟨medium, 1, #[], 0⟩).seen else #[]

omit [Scalar α] in
theorem ownSeen_attended (states : List (State α)) (medium : Medium) :
    ownSeen (.attended states) medium true = states.toArray := by
  simp [ownSeen, Leaf.attended, Leaf.finish, Leaf.shown, Leaf.dueAt]

omit [Scalar α] in
theorem ownSeen_id (medium : Medium) (brought : Bool) :
    ownSeen (id : Leaf α → Leaf α) medium brought = #[] := by
  cases brought with
  | false | true => rfl

/-- The outcome in the report of a run, from that of the run itself. -/
def reported (m : Minimizer ω α) (view : Vec α n → Tensor α) (x : Vec α n)
    (trace : Array (State α)) :
    Except (Interrupt α n) (Ending α n) → Except (RunError α) (Results α)
  | .ok e => .ok (results m.options view x trace e)
  | .error i => .error (error view trace i)

/-- The report of a run that has changed the leaves of its observers, and the session that it leaves
behind. The caller gets their own observers back. -/
theorem minimizeFrom_eq {result : Except (Interrupt α n) (Ending α n)} {g : Leaf α → Leaf α}
    (hrun : (m.run f view x).run (m.opened σ₀) = (result, σ))
    (hσ : σ.observers = Observer.mapAll g (m.opened σ₀).observers) :
    m.minimizeFrom f view x σ₀ =
      (⟨m.reported view x (ownSeen g .trace m.options.keepsTrace) result,
        ownSeen g .print m.options.showTrace⟩,
      { σ with observers := Observer.mapAll g σ₀.observers }) := by
  have hobservers : σ.observers = (ownObservers m.options).map (Observer.mapLeaves g) ++
      Observer.mapAll g σ₀.observers := by
    rw [hσ, opened, Observer.mapAll_eq_map, List.map_append,
      ← Observer.mapAll_eq_map g σ₀.observers]
  rw [minimizeFrom, hrun]
  simp only [hobservers, ownObservers, ownSeen]
  rcases m.options.keepsTrace <;> rcases m.options.showTrace <;> cases result <;> rfl

/-! ## Ends of runs -/

theorem EndsWith.observers {e : Ending α n} (hends : EndsWith m it verdict e)
    (h : Visits m f view x σ₀ (it :: past) verdict σ)
    (hrun : (m.run f view x).run (m.opened σ₀) = (.ok e, σ')) :
    σ'.observers =
      Observer.mapAll (.attended (m.chronicle view (it :: past))) (m.opened σ₀).observers := by
  obtain ⟨σ₁, hrun', hlast⟩ := h.run_of_endsWith hends
  cases hrun.symm.trans hrun'
  rcases hlast with rfl | hstuck
  · exact closed_observers h.observers
  · have hobservers := (advances_of_run hstuck).observers_eq_of_stuck
    exact closed_observers (hobservers.trans h.observers)

theorem GoesOn.observers (h : m.GoesOn f view x σ₀ it past σ) {i : Interrupt α n}
    (hadvance : (m.advance f view it).run σ = (.error i, σ')) :
    i.During it ∧ σ'.closed.observers =
      Observer.mapAll (.attended (m.chronicle view (it :: past))) (m.opened σ₀).observers := by
  obtain ⟨verdict, hvisits, -, -⟩ := h
  obtain ⟨hduring, hobservers⟩ := (interrupted_of_run hadvance).during
  exact ⟨hduring, closed_observers (hobservers.trans hvisits.observers)⟩

/-- Observers have attended a run from its first iterate to the one with number `K`: each leaf was
shown those of the states at which it was due, and was finalized once. A leaf with interval `m` was
due at the iterations `0`, `m`, `2 m` and so on. -/
structure Attends (m : Minimizer ω α) (view : Vec α n → Tensor α) (history : List (Iterate α n))
    (K : ℕ) (before after : List (Observer α)) : Prop where
  iterations : history.map Iterate.iteration = List.range (K + 1)
  observers : after = Observer.mapAll (.attended (history.map (state m.options view))) before
  due (l : Leaf α) :
    ((history.map (state m.options view)).filter fun s ↦ l.dueAt s.iteration).map
      State.iteration = (List.range (K / l.interval + 1)).map fun i ↦ ((i * l.interval : ℕ) : ℤ)

theorem Visits.attends (h : Visits m f view x σ₀ (it :: past) verdict σ)
    {O' : List (Observer α)}
    (hobservers : O' = Observer.mapAll (.attended (m.chronicle view (it :: past))) O) :
    m.Attends view (it :: past).reverse it.iteration O O' := by
  have hiterations : (it :: past).reverse.map Iterate.iteration =
      List.range (it.iteration + 1) := by
    rw [h.map_iteration, h.iteration_eq_length, List.length_cons]
  refine ⟨hiterations, hobservers, fun l ↦ l.iterations_of_due ?_⟩
  have hstate : State.iteration ∘ state m.options view =
      (Nat.cast : ℕ → ℤ) ∘ Iterate.iteration := rfl
  rw [List.map_map, hstate, ← List.map_map, hiterations]

theorem exists_report_of_ok {r : Results α}
    (h : (m.minimizeFrom f view x σ₀).1.outcome = .ok r) :
    ∃ it past verdict σ σ' e, Visits m f view x σ₀ (it :: past) verdict σ ∧
      EndsWith m it verdict e ∧ (m.run f view x).run (m.opened σ₀) = (.ok e, σ') ∧
      r = results m.options view x (ownSeen (.attended (m.chronicle view (it :: past))) .trace
        m.options.keepsTrace) e ∧
      (m.minimizeFrom f view x σ₀).1.displayed =
        ownSeen (.attended (m.chronicle view (it :: past))) .print m.options.showTrace ∧
      (m.minimizeFrom f view x σ₀).2.world = σ'.world ∧
      (m.minimizeFrom f view x σ₀).2.observers =
        Observer.mapAll (.attended (m.chronicle view (it :: past))) σ₀.observers := by
  obtain ⟨e, σ', trace, hrun, -⟩ := exists_ending_of_ok h
  obtain ⟨it, past, verdict, σ, hvisits, hends⟩ := exists_last hrun
  have hreport := minimizeFrom_eq hrun (hends.observers hvisits hrun)
  rw [hreport] at h ⊢
  cases h
  exact ⟨it, past, verdict, σ, σ', e, hvisits, hends, hrun, rfl, rfl, rfl, rfl⟩

theorem exists_report_of_interrupted {e : RunError α} {σ₁ : Session ω α}
    (h : (m.minimizeFrom f view x σ₀).1.outcome = .error e)
    (hstart : (m.start f view x).run (m.opened σ₀) = (.ok it, σ₁)) :
    ∃ it past σ σ₂ i, m.GoesOn f view x σ₀ it past σ ∧
      (m.advance f view it).run σ = (.error i, σ₂) ∧ i.During it ∧
      e = error view (ownSeen (.attended (m.chronicle view (it :: past))) .trace
        m.options.keepsTrace) i ∧
      (m.minimizeFrom f view x σ₀).2.observers =
        Observer.mapAll (.attended (m.chronicle view (it :: past))) σ₀.observers := by
  rcases hrun : (m.run f view x).run (m.opened σ₀) with ⟨i | ending, σ'⟩
  · obtain ⟨it, past, σ, σ₂, hgoes, hadvance, rfl⟩ := exists_interrupted_session hstart hrun
    obtain ⟨hduring, hobservers⟩ := hgoes.observers hadvance
    have hreport := minimizeFrom_eq hrun hobservers
    rw [hreport] at h ⊢
    cases h
    exact ⟨it, past, σ, σ₂, i, hgoes, hadvance, hduring, rfl, rfl⟩
  · simp only [minimizeFrom, hrun] at h
    cases h

/-- An optimizer error comes from a check at the start or from an iteration. -/
theorem exists_report_of_error {e : OptimizerError α}
    (h : (m.minimizeFrom f view x σ₀).1.outcome = .error (.optimizer e)) :
    (e.cause.IsCheck ∧
        e.progress = { iteration := 0, values := 1, gradients := 1, x := some (view x) } ∧
        (m.minimizeFrom f view x σ₀).2.observers = σ₀.observers) ∨
      ∃ it past σ calls y, m.GoesOn f view x σ₀ it past σ ∧
        Interrupt.During it (.stopped e.cause (it.iteration + 1) calls y) ∧
        e.progress =
          { iteration := it.iteration + 1
            values := calls.values
            gradients := calls.gradients
            x := some (view y)
            trace := ownSeen (.attended (m.chronicle view (it :: past))) .trace
              m.options.keepsTrace } := by
  rcases hstart : (m.start f view x).run (m.opened σ₀) with ⟨i | it₀, σ₁⟩
  · left
    -- the start is interrupted: no observer has been called
    have hrun : (m.run f view x).run (m.opened σ₀) = (.error i, σ₁) := run_bind_error hstart
    obtain ⟨hatStart, hobservers⟩ := (halted_of_run hstart).atStart
    cases hatStart with
    | breakdown cause =>
      simp only [minimizeFrom, hrun] at h
      cases h
    | value v | gradient positions =>
      have hkept : σ₁.observers = Observer.mapAll id (m.opened σ₀).observers := by
        rw [Observer.mapAll_id]
        exact hobservers (by rintro _ ⟨⟩)
      rw [minimizeFrom_eq hrun hkept, ownSeen_id] at h
      rw [minimizeFrom_eq hrun hkept]
      cases h
      exact ⟨trivial, rfl, Observer.mapAll_id _⟩
  · right
    obtain ⟨it, past, σ, σ₂, i, hgoes, -, hduring, he, -⟩ :=
      exists_report_of_interrupted h hstart
    cases hduring with
    | breakdown cause => cases he
    | search c calls =>
      cases he
      exact ⟨it, past, σ, calls, it.x, hgoes, .search c calls, rfl⟩
    | value v calls y =>
      cases he
      exact ⟨it, past, σ, calls, y, hgoes, .value v calls y, rfl⟩

/-- **When the caller is called.** For all scalars, objectives, options, preconditioners, line
searches and trees of observers:

* in a run that returns, the observers of the caller attend its iterates `0`, …, `K`, and the
  preconditioner is refreshed once at each of them, in this order. The trace holds their states, the
  last one with the value in the results, and so does what is displayed;
* the operator from which the direction of an iterate is computed comes from the call at this
  iterate, before which the preconditioner had been refreshed at the earlier ones;
* in a run that is interrupted in iteration `k`, they attend the iterates `0`, …, `k - 1`;
* in a run that a check at the start stops, nothing happens to them;
* passing over a state for which no observer of the list is due is the same as showing it.

The points at which the preconditioner is refreshed are those that a world keeps in a list that only
refreshing changes. -/
theorem minimizeFrom_schedule (m : Minimizer ω α) (f : Objective ω α n)
    (view : Vec α n → Tensor α) (x : Vec α n) (σ₀ : Session ω α) :
    let report := (m.minimizeFrom f view x σ₀).1
    let after := (m.minimizeFrom f view x σ₀).2
    (∀ r, report.outcome = .ok r → ∃ history verdict σ,
      Visits m f view x σ₀ history.reverse verdict σ ∧
      m.Attends view history r.iterations σ₀.observers after.observers ∧
      (m.options.keepsTrace = true → r.trace.toList = history.map (state m.options view)) ∧
      (m.options.showTrace = true →
        report.displayed.toList = history.map (state m.options view)) ∧
      (history.map Iterate.value).getLast? = some r.value ∧
      ∀ points, m.Records f points →
        points after.world = points σ₀.world ++ history.map fun it ↦ it.x.toArray) ∧
    (∀ points, m.Records f points → ∀ it past verdict σ,
      Visits m f view x σ₀ (it :: past) verdict σ →
      ∃ P, m.Refreshed points (points σ₀.world ++ past.reverse.map fun it ↦ it.x.toArray) it.x P ∧
        m.Directed P (it :: past)) ∧
    (∀ e it₀ σ₁, report.outcome = .error e →
      (m.start f view x).run (m.opened σ₀) = (.ok it₀, σ₁) →
      ∃ it past σ, m.GoesOn f view x σ₀ it past σ ∧
        m.Attends view (it :: past).reverse it.iteration σ₀.observers after.observers ∧
        ∀ e', e = .optimizer e' → e'.progress.iteration = it.iteration + 1) ∧
    (∀ e, report.outcome = .error (.optimizer e) → e.cause.IsCheck →
      after.observers = σ₀.observers) ∧
    ∀ it σ, (m.notify view it).run σ = (.ok (), { σ with
      observers := Observer.mapAll (.shown [state m.options view it]) σ.observers }) := by
  intro report after
  refine ⟨?_, ?_, ?_, ?_, ?_⟩
  · intro r hr
    obtain ⟨it, past, verdict, σ, σ', e, hvisits, hends, hrun, rfl, hdisplayed, hworld, hafter⟩ :=
      exists_report_of_ok hr
    obtain rfl := hends.last_eq
    refine ⟨(e.last :: past).reverse, verdict, σ, ?_, hvisits.attends ?_, ?_, ?_, ?_, ?_⟩
    · rwa [List.reverse_reverse]
    · exact hafter
    · intro hkept
      simp only [results, hkept, ownSeen_attended, chronicle]
    · intro hshown
      rw [hdisplayed, hshown, ownSeen_attended, chronicle]
    · rw [List.reverse_cons, List.map_append]
      simp [results]
    · intro points hm
      rw [hworld]
      exact points_of_run hm hends hvisits hrun
  · intro points hm it past verdict σ hvisits
    exact (hvisits.refreshed hm).2
  · intro e it₀ σ₁ he hstart
    obtain ⟨it, past, σ, σ₂, i, hgoes, -, hduring, rfl, hafter⟩ :=
      exists_report_of_interrupted he hstart
    obtain ⟨verdict, hvisits, -, -⟩ := id hgoes
    exact ⟨it, past, σ, hgoes, hvisits.attends hafter, fun e' he' ↦ hduring.iteration_eq he'.symm⟩
  · intro e he hcheck
    rcases exists_report_of_error he with ⟨-, -, hobservers⟩ |
      ⟨it, past, σ, calls, y, -, hduring, -⟩
    · exact hobservers
    · -- an iteration does not fail with a check
      exact absurd hcheck hduring.not_isCheck
  · intro it σ
    exact congrArg (Prod.mk _) (notified_eq m view it σ)

/-- The default minimizer, on a world that keeps the points at which its preconditioner was
refreshed. -/
def recordingMinimizer : Minimizer (List (Array (Exact Grid.rational))) (Exact Grid.rational) where
  options := { Options.default fun k ↦ ⟨k, true⟩ with storeTrace := true }
  lineSearch := (Strategy.hagerZhang .default).lineSearch
  refresh P x := do
    modify (· ++ [x])
    return P

theorem recordingMinimizer_records {n : ℕ} (F : Vec (Exact Grid.rational) n → Exact Grid.rational)
    (g : Vec (Exact Grid.rational) n → Vec (Exact Grid.rational) n) :
    recordingMinimizer.Records (.ofFunctions F g) id where
  refresh h := by
    cases h
    rfl
  objective := Objective.ofFunctions_spares F g id
  lineSearch := (Strategy.hagerZhang .default).spares

/-- Two iterations on `½ (x² + 3 y²)` from `(3, 1)`, watched by a tree with two leaves. -/
theorem minimizeFrom_schedule_quadratic :
    let q : Quadratic (Exact Grid.rational) 2 := .num (Matrix.diagonal ![1, 3]) 0
    let f : Objective _ (Exact Grid.rational) 2 := .ofFunctions q.value q.gradient
    let σ₀ : Session (List (Array (Exact Grid.rational))) (Exact Grid.rational) :=
      { world := []
        preconditioner := .identity
        observers := [.composite [.fresh .trace 2, .composite [.fresh .print 1]]] }
    let run := recordingMinimizer.minimizeFrom f (⟨[2], ·⟩) (Vec.num ![3, 1]) σ₀
    ∃ r history, run.1.outcome = .ok r ∧
      recordingMinimizer.Attends (⟨[2], ·⟩) history 2 σ₀.observers run.2.observers ∧
      r.trace.toList = history.map (state recordingMinimizer.options (⟨[2], ·⟩)) ∧
      run.2.world = history.map fun it ↦ it.x.toArray := by
  intro q f σ₀ run
  have hrun : run.1.outcome.toOption.map Results.iterations = some 2 := by
    decide +kernel
  obtain ⟨r, hr, hiterations⟩ := exists_ok_of_map_toOption hrun
  obtain ⟨hreturns, -⟩ :=
    minimizeFrom_schedule recordingMinimizer f (⟨[2], ·⟩) (Vec.num ![3, 1]) σ₀
  obtain ⟨history, _, _, -, hattends, htrace, -, -, hpoints⟩ := hreturns r hr
  rw [hiterations] at hattends
  exact ⟨r, history, hr, hattends, htrace rfl,
    hpoints id (recordingMinimizer_records q.value q.gradient)⟩

end Minimizer

end NonlinearCG
