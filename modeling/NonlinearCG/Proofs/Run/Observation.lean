import Mathlib
import NonlinearCG.Proofs.Run.Schedule
import NonlinearCG.Proofs.Run.Twins

/-!
# Watching a run does not change it

What is kept of a run, what is displayed and who is shown its iterates is all written to the
observers, and no part of a run reads them. Two runs of one objective under different such choices
are therefore twins over the relation that the sessions agree in everything but their observers
(`twins_tracing`). They evaluate the objective at the same points in the same order, as long as it
keeps a record of them, and they end in the same way.

Only the trace that a run attaches to its results or to its error depends on these choices, so that
outcomes are compared without it.
-/

namespace NonlinearCG

variable {ω α : Type} {n : ℕ}

/-! ## Outcomes without a trace -/

def Results.untraced (r : Results α) : Results α := { r with trace := #[] }

def RunError.untraced : RunError α → RunError α
  | .breakdown cause => .breakdown cause
  | .optimizer e => .optimizer { e with progress := { e.progress with trace := #[] } }

def Report.untraced (r : Report α) : Except (RunError α) (Results α) :=
  (r.outcome.map Results.untraced).mapError RunError.untraced

/-! ## Sessions with different observers -/

/-- The sessions agree in everything but their observers. -/
structure Session.SameButObservers (s t : Session ω α) : Prop where
  world : s.world = t.world
  preconditioner : s.preconditioner = t.preconditioner
  log : s.log = t.log

theorem Session.SameButObservers.shares : Shares (SameButObservers (ω := ω) (α := α)) where
  world h := h.world
  log h := h.log
  setWorld _ h := ⟨rfl, h.preconditioner, h.log⟩
  setLog _ h := ⟨h.world, h.preconditioner, rfl⟩

theorem Session.SameButObservers.sharesPreconditioner :
    SharesPreconditioner (SameButObservers (ω := ω) (α := α)) where
  preconditioner h := h.preconditioner
  setPreconditioner _ h := ⟨h.world, rfl, h.log⟩

/-! ## Runs under different choices -/

/-- The options with other choices of what is kept and displayed of a run. -/
def Options.tracing {ν κ : Type} (o : Options ν κ) (store display extended : Bool) : Options ν κ :=
  { o with storeTrace := store, showTrace := display, extendedTrace := extended }

namespace Minimizer

def tracing (m : Minimizer ω α) (store display extended : Bool) : Minimizer ω α :=
  { m with options := m.options.tracing store display extended }

variable [Scalar α] (m : Minimizer ω α) (store display extended : Bool) (f : Objective ω α n)
  (view : Vec α n → Tensor α) (x : Vec α n) (σ₀ : Session ω α) (os : List (Observer α))

theorem notify_coupled (m' : Minimizer ω α) (it : Iterate α n) :
    Coupled Session.SameButObservers Eq Eq (m.notify view it) (m'.notify view it) := by
  refine Coupled.modify fun s t hst ↦ ?_
  change (m.notified view it s).SameButObservers (m'.notified view it t)
  rw [notified_eq, notified_eq]
  exact ⟨hst.world, hst.preconditioner, hst.log⟩

theorem twins_tracing :
    Twins Session.SameButObservers m (m.tracing store display extended) f f view view where
  shares := Session.SameButObservers.shares
  tolerances := rfl
  eta := rfl
  budget := rfl
  value := rfl
  both := rfl
  search := rfl
  notify := m.notify_coupled view (m.tracing store display extended)
  prepare := prepare_coupled Session.SameButObservers.shares
    Session.SameButObservers.sharesPreconditioner rfl
  closed h := ⟨h.world, h.preconditioner, h.log⟩

omit [Scalar α] in
theorem opened_tracing : Session.SameButObservers (m.opened σ₀)
    ((m.tracing store display extended).opened { σ₀ with observers := os }) := ⟨rfl, rfl, rfl⟩

theorem untraced_tracing :
    let first := m.minimizeFrom f view x σ₀
    let watched := (m.tracing store display extended).minimizeFrom f view x
      { σ₀ with observers := os }
    watched.1.untraced = first.1.untraced ∧ Session.SameButObservers first.2 watched.2 := by
  obtain ⟨r, s, t, hrun, hrun', hst⟩ := (m.twins_tracing store display extended f view).exists_run x
    (m.opened_tracing store display extended σ₀ os)
  simp only [minimizeFrom, hrun, hrun']
  refine ⟨?_, hst.world, hst.preconditioner, hst.log⟩
  cases r with
  | ok e => rfl
  | error i => cases i <;> rfl

variable {m f view x σ₀} in
theorem Visits.exists_tracing {path : List (Iterate α n)} {verdict : Verdict} {σ : Session ω α}
    (h : Visits m f view x σ₀ path verdict σ) :
    ∃ σ, Visits (m.tracing store display extended) f view x { σ₀ with observers := os } path
      verdict σ := by
  obtain ⟨σ', hvisits, -⟩ := (m.twins_tracing store display extended f view).exists_visits
    (m.opened_tracing store display extended σ₀ os) h
  exact ⟨σ', hvisits⟩

/-- **Observation never influences a run.** For all objectives, with or without a state of their
own, starting points, preconditioners, line searches and options, let two runs differ only in what
they keep and display and in the observers of their sessions.

* Their outcomes are the same but for the trace: the results, with minimum, value, iterations,
  verdict, counters and termination, or the error, with its cause, iteration, counters and point.
* They leave behind the same world, preconditioner and log.
* They visit the same iterates with the same verdicts.
* An objective that notes its evaluations in the world has noted the same ones in the same order. -/
theorem minimizeFrom_tracing :
    let first := m.minimizeFrom f view x σ₀
    let watched := (m.tracing store display extended).minimizeFrom f view x
      { σ₀ with observers := os }
    watched.1.untraced = first.1.untraced ∧ Session.SameButObservers first.2 watched.2 ∧
    (∀ path verdict, (∃ σ, Visits m f view x σ₀ path verdict σ) ↔
      ∃ σ, Visits (m.tracing store display extended) f view x { σ₀ with observers := os } path
        verdict σ) ∧
    ∀ note : Evaluation (Vec α n) → ω → ω,
      ((m.tracing store display extended).minimizeFrom (f.noting note) view x
        { σ₀ with observers := os }).2.world =
        (m.minimizeFrom (f.noting note) view x σ₀).2.world := by
  intro first watched
  obtain ⟨houtcome, hsession⟩ := m.untraced_tracing store display extended f view x σ₀ os
  refine ⟨houtcome, hsession, fun path verdict ↦ ⟨?_, ?_⟩, fun note ↦ ?_⟩
  · rintro ⟨σ, hvisits⟩
    exact hvisits.exists_tracing store display extended os
  · -- the choices of the first run are other choices than those of the second one
    rintro ⟨σ, hvisits⟩
    exact hvisits.exists_tracing m.options.storeTrace m.options.showTrace m.options.extendedTrace
      σ₀.observers
  · obtain ⟨-, hnoted⟩ :=
      m.untraced_tracing store display extended (f.noting note) view x σ₀ os
    exact hnoted.world.symm

end Minimizer

end NonlinearCG
