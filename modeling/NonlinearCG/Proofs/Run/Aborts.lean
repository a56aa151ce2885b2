import Mathlib
import NonlinearCG.Proofs.Run.Finite
import NonlinearCG.Proofs.Run.Schedule

/-!
# What an aborted run hands back

An optimizer error tells how far the run had come: the number of the iteration, the position, the
evaluations and the trace. The four are recorded at different moments, and an error may come from
any depth of a line search, after it has evaluated the objective at points of its own. All of them
belong to the iterate from which the interrupted iteration started.

A run works on values, so that there is nothing to be shown of the array of the caller: the starting
point is what it was.
-/

namespace NonlinearCG.Minimizer

section Visited

variable {ω α : Type} [Scalar α] {n : ℕ} {m : Minimizer ω α} {f : Objective ω α n}
  {view : Vec α n → Tensor α} {x : Vec α n} {σ₀ σ : Session ω α} {it : Iterate α n}
  {past : List (Iterate α n)} {verdict : Verdict}

theorem Visits.eq_start (h : Visits m f view x σ₀ (it :: past) verdict σ)
    (hit : it.iteration = 0) : it.x = x := by
  rw [h.iteration_eq_length, List.length_eq_zero_iff] at hit
  subst hit
  cases h with
  | start hstart => exact (starts_of_run hstart).point

theorem Visits.size_ownSeen (h : Visits m f view x σ₀ (it :: past) verdict σ)
    (hm : m.options.keepsTrace = true) :
    (ownSeen (.attended (m.chronicle view (it :: past))) .trace m.options.keepsTrace).size =
      it.iteration + 1 := by
  calc (ownSeen (.attended (m.chronicle view (it :: past))) .trace m.options.keepsTrace).size
      = (m.chronicle view (it :: past)).length := by
        rw [hm, ownSeen_attended, List.size_toArray]
    _ = (it :: past).length := by rw [chronicle, List.length_map, List.length_reverse]
    _ = it.iteration + 1 := by rw [h.iteration_eq_length, List.length_cons]

theorem Visits.iteration_lt_of_error (h : Visits m f view x σ₀ (it :: past) verdict σ)
    {e : OptimizerError α}
    (he : (m.minimizeFrom f view x σ₀).1.outcome = .error (.optimizer e)) :
    it.iteration < e.progress.iteration := by
  obtain ⟨it₀, σ₁, hstart⟩ := h.exists_start
  obtain ⟨last, before, σ', σ₂, i, hgoes, hadvance, hduring, he', -⟩ :=
    exists_report_of_interrupted he hstart
  have hle := hgoes.length_le_of_interrupted hadvance h
  obtain ⟨_, hvisits, -, -⟩ := hgoes
  rw [List.length_cons, List.length_cons, ← h.iteration_eq_length,
    ← hvisits.iteration_eq_length] at hle
  rw [hduring.iteration_eq he']
  exact_mod_cast hle

/-- Of the errors that a run raises, those of the class of line searches come from the search. -/
theorem exists_search_of_errorClass {e : OptimizerError α}
    (h : (m.minimizeFrom f view x σ₀).1.outcome = .error (.optimizer e))
    (hclass : e.cause.errorClass = .lineSearch) : ∃ c, e.cause = .search c := by
  rcases exists_report_of_error h with ⟨hcheck, -⟩ | ⟨_, _, _, _, _, -, hduring, -⟩
  · generalize e.cause = cause at hcheck hclass
    cases cause with
    | startValue | startGradient => cases hclass
    | search | stepValue | stated => cases hcheck
  · generalize e.cause = cause at hduring hclass
    cases hduring with
    | search c => exact ⟨c, rfl⟩
    | value => cases hclass

end Visited

variable {ω α : Type} [Scalar α] {m : Minimizer ω α} {x : Tensor α}
  {f : Objective ω α x.shape.size} {F : Vec α x.shape.size → α}
  {g : Vec α x.shape.size → Vec α x.shape.size} {σ₀ : Session ω α} {e : OptimizerError α}

/-- **What an aborted run hands back.** For all scalars, objectives that compute a function,
starting points of any shape, options that keep a trace, preconditioners and line searches:

* an error of a line search is raised in the iteration that follows the latest iterate. Its position
  is that of this iterate, in the shape of the starting point, and in the first iteration it is the
  starting point itself. Its trace holds the states of the iterates so far, the last one with the
  value of the function at the position;
* an error of a check at the start carries the starting point, one evaluation and no trace;
* the length of the trace is the number of the iteration in any case. -/
theorem minimize_error (hf : f.Computes F g) (hm : m.options.keepsTrace = true)
    (h : (m.minimize x f σ₀).1.outcome = .error (.optimizer e)) :
    (∀ c, e.cause = .search c → ∃ it past σ, m.GoesOn f (⟨x.shape, ·⟩) x.entries σ₀ it past σ ∧
      (it :: past).reverse.map Iterate.iteration = List.range (it.iteration + 1) ∧
      e.progress.iteration = it.iteration + 1 ∧
      e.progress.x = some ⟨x.shape, it.x⟩ ∧ (it.iteration = 0 → it.x = x.entries) ∧
      e.progress.trace.toList = (it :: past).reverse.map (state m.options (⟨x.shape, ·⟩)) ∧
      e.progress.trace.back?.map State.value = some (F it.x)) ∧
    (e.cause.IsCheck →
      e.progress = { iteration := 0, values := 1, gradients := 1, x := some x, trace := #[] }) ∧
    e.progress.trace.size = e.progress.iteration := by
  rcases exists_report_of_error h with ⟨hcheck, hprogress, -⟩ |
    ⟨it, past, σ, calls, y, hgoes, hduring, hprogress⟩
  · -- a check at the start: no search has been made
    refine ⟨fun c hc ↦ ?_, fun _ ↦ hprogress, ?_⟩
    · rw [hc] at hcheck
      cases hcheck
    · rw [hprogress]
      rfl
  · obtain ⟨verdict, hvisits, -, -⟩ := id hgoes
    have hsize := hvisits.size_ownSeen hm
    refine ⟨fun c hc ↦ ?_, fun hcheck ↦ ?_, ?_⟩
    · rw [hc] at hduring
      cases hduring
      refine ⟨it, past, σ, hgoes, ?_, ?_, ?_, hvisits.eq_start, ?_, ?_⟩
      · rw [hvisits.map_iteration, hvisits.iteration_eq_length, List.length_cons]
      · rw [hprogress]
      · rw [hprogress]
      · rw [hprogress, hm, ownSeen_attended, chronicle]
      · have hvalue := (hvisits.consistent fun _ _ _ _ _ hboth ↦ hf.both hboth).value
        rw [hprogress, hm, ownSeen_attended, chronicle_cons, ← hvalue]
        simp [state]
    · exact absurd hcheck hduring.not_isCheck
    · rw [hprogress, hsize]
      rfl

def tracingMinimizer : Minimizer Unit (Exact Grid.rational) :=
  { defaultMinimizer with options := { defaultMinimizer.options with storeTrace := true } }

/-- A run that stops at the wall in its second iteration hands the wall back, with two states. -/
theorem minimize_error_wall :
    let σ₀ : Session Unit (Exact Grid.rational) := { world := (), preconditioner := .identity }
    ∃ e c, (tracingMinimizer.minimize ⟨[1], #v[.num 1]⟩ wallObjective σ₀).1.outcome =
        .error (.optimizer e) ∧ e.cause = .search c ∧ e.progress.iteration = 2 ∧
      e.progress.trace.size = 2 ∧
      ∃ it past σ, tracingMinimizer.GoesOn wallObjective (⟨[1], ·⟩) #v[.num 1] σ₀ it past σ ∧
        e.progress.x = some ⟨[1], it.x⟩ := by
  intro σ₀
  have hrun : (optimizerError? (tracingMinimizer.minimize ⟨[1], #v[.num 1]⟩ wallObjective
      σ₀).1.outcome).map (fun e ↦ (e.cause.errorClass, e.progress.iteration)) =
      some (.lineSearch, 2) := by
    decide +kernel
  obtain ⟨e, houtcome, hresult⟩ := exists_error_of_map_optimizerError? hrun
  obtain ⟨hclass, hiteration⟩ := Prod.mk.inj hresult
  obtain ⟨c, hc⟩ := exists_search_of_errorClass houtcome hclass
  obtain ⟨hsearch, -, hsize⟩ :=
    minimize_error (Objective.computes_ofFunctions _ _) rfl houtcome
  obtain ⟨it, past, σ, hgoes, -, -, hx, -⟩ := hsearch c hc
  refine ⟨e, c, houtcome, hc, hiteration, ?_, it, past, σ, hgoes, hx⟩
  exact Nat.cast_injective (hsize.trans hiteration)

end NonlinearCG.Minimizer
