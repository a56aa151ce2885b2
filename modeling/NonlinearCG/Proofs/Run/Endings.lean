import Mathlib
import NonlinearCG.CommandLine.Program
import NonlinearCG.Proofs.Run.History
import NonlinearCG.Proofs.Run.Invariant

/-!
# How runs end

The results of a run carry the number of its iterations, a flag for the limit on them, three flags
for the convergence criteria and the reason for the end. They are set at different places: the
reason where the loop is left, the criteria after each step, the flag for the limit from the number
of iterations at the very end. `Results.Shows` says what each reason stands for in terms of the
rest. What a run returns shows the reason that it reports, and no other one.

The single fact behind this is that a run goes on only from iterates at which no criterion is met,
so that all verdicts but the last one are empty.
-/

namespace NonlinearCG

@[simp] theorem Verdict.converged_empty : ({} : Verdict).converged = false := rfl

theorem Verdict.eq_empty {v : Verdict} (h : v.converged = false) : v = {} := by
  obtain ⟨hxf, hgradient⟩ := Bool.or_eq_false_iff.mp h
  obtain ⟨hx, hf⟩ := Bool.or_eq_false_iff.mp hxf
  cases v
  cases hx
  cases hf
  cases hgradient
  rfl

/-- What results of a run with limited iterations look like if the run has ended for a reason:

* where it has converged, a criterion is met, after at least one iteration;
* where it was cut off, all iterations are done. The flag for the limit is set if the limit is a
  whole number, and no criterion is met;
* where there was no direction left, iterations are left, and no flag is set. -/
def Results.Shows {α : Type} (l : Limit) (r : Results α) : Termination → Prop
  | .converged => 1 ≤ r.iterations ∧ r.iterations ≤ l.steps ∧ r.converged = true
  | .iterationLimit => r.iterations = l.steps ∧ r.exhausted = l.attainable ∧ r.verdict = {}
  | .degenerateDirection => r.iterations < l.steps ∧ r.exhausted = false ∧ r.verdict = {}

/-- The reason can be read off results from the criteria and the number of iterations. -/
theorem Results.Shows.eq_ite {α : Type} {l : Limit} {r : Results α} {t : Termination}
    (h : r.Shows l t) : t = if r.converged then .converged
      else if r.iterations < l.steps then .degenerateDirection else .iterationLimit := by
  cases t with
  | converged =>
    obtain ⟨-, -, hconverged⟩ := h
    rw [if_pos hconverged]
  | iterationLimit =>
    obtain ⟨hlast, -, hverdict⟩ := h
    rw [Results.converged, hverdict, Verdict.converged_empty, if_neg Bool.false_ne_true,
      if_neg hlast.not_lt]
  | degenerateDirection =>
    obtain ⟨hlt, -, hverdict⟩ := h
    rw [Results.converged, hverdict, Verdict.converged_empty, if_neg Bool.false_ne_true,
      if_pos hlt]

theorem Results.Shows.unique {α : Type} {l : Limit} {r : Results α} {t t' : Termination}
    (h : r.Shows l t) (h' : r.Shows l t') : t = t' := by
  rw [h.eq_ite, ← h'.eq_ite]

theorem Results.Shows.converged_iff {α : Type} {l : Limit} {r : Results α} {t : Termination}
    (h : r.Shows l t) : r.converged = true ↔ t = .converged := by
  constructor
  · intro hconverged
    rw [h.eq_ite, if_pos hconverged]
  · rintro rfl
    exact h.2.2

namespace Minimizer

section Flags

variable {ω α : Type} [Scalar α] {n : ℕ} {m : Minimizer ω α} {f : Objective ω α n}
  {view : Vec α n → Tensor α} {x : Vec α n} {σ₀ σ : Session ω α} {it : Iterate α n}
  {past : List (Iterate α n)} {verdict : Verdict} {e : Ending α n}

theorem Visits.one_le_iteration (h : Visits m f view x σ₀ (it :: past) verdict σ)
    (hverdict : verdict.converged = true) : 1 ≤ it.iteration := by
  rw [h.iteration_eq_length]
  cases h with
  | start => cases hverdict
  | move => exact Nat.le_add_left 1 _

theorem EndsWith.verdict_eq (h : EndsWith m it verdict e) : e.verdict = verdict := by
  cases h with
  | converged => rfl
  | exhausted hverdict | stuck hverdict => exact (Verdict.eq_empty hverdict).symm

theorem EndsWith.shows (h : EndsWith m it verdict e)
    (hvisits : Visits m f view x σ₀ (it :: past) verdict σ) (trace : Array (State α)) :
    (results m.options view x trace e).Shows m.options.iterations e.termination := by
  cases h with
  | converged hverdict =>
    exact ⟨hvisits.one_le_iteration hverdict, hvisits.iteration_le, hverdict⟩
  | exhausted hverdict hbudget =>
    refine ⟨hbudget, ?_, rfl⟩
    have hmet : (it.iteration == m.options.iterations.steps) = true := beq_iff_eq.mpr hbudget
    simp only [results, Limit.metBy, hmet, Bool.and_true]
  | stuck hverdict hbudget =>
    refine ⟨hbudget, ?_, rfl⟩
    have hmet : (it.iteration == m.options.iterations.steps) = false :=
      beq_eq_false_iff_ne.mpr hbudget.ne
    simp only [results, Limit.metBy, hmet, Bool.and_false]

/-- A run that returns has visited one iterate for each number of iterations up to that in the
results. -/
theorem EndsWith.visited_iff (h : EndsWith m it verdict e)
    (hvisits : Visits m f view x σ₀ (it :: past) verdict σ) (k : ℕ) :
    (∃ it past verdict σ, Visits m f view x σ₀ (it :: past) verdict σ ∧ it.iteration = k) ↔
      k ≤ it.iteration := by
  constructor
  · rintro ⟨it', past', verdict', σ', hvisits', rfl⟩
    have hle := h.length_le hvisits hvisits'
    rw [List.length_cons, List.length_cons] at hle
    rw [hvisits.iteration_eq_length, hvisits'.iteration_eq_length]
    omega
  · intro hk
    rw [hvisits.iteration_eq_length] at hk
    have hlength : ((it :: past).drop (past.length - k)).length = k + 1 := by
      rw [List.length_drop, List.length_cons]
      omega
    obtain ⟨it', past', hpath⟩ := List.exists_cons_of_length_eq_add_one hlength
    rw [hpath] at hlength
    obtain ⟨verdict', σ', hvisits'⟩ :=
      hvisits.exists_of_isSuffix (hpath ▸ List.drop_suffix _ _) (List.cons_ne_nil it' past')
    exact ⟨it', past', verdict', σ', hvisits',
      hvisits'.iteration_eq_length.trans (Nat.succ.inj hlength)⟩

theorem Visits.iteration_le_of_ok (h : Visits m f view x σ₀ (it :: past) verdict σ)
    {r : Results α} (hr : (m.minimizeFrom f view x σ₀).1.outcome = .ok r) :
    it.iteration ≤ r.iterations := by
  obtain ⟨e, σ', trace, hrun, rfl⟩ := exists_ending_of_ok hr
  obtain ⟨last, before, verdict', σ₁, hvisits, hends⟩ := exists_last hrun
  obtain rfl := hends.last_eq
  exact (hends.visited_iff hvisits it.iteration).mp ⟨it, past, verdict, σ, h, rfl⟩

theorem EndsWith.verdict_of_visits (h : EndsWith m it verdict e)
    (hvisits : Visits m f view x σ₀ (it :: past) verdict σ) {it' : Iterate α n}
    {past' : List (Iterate α n)} {verdict' : Verdict} {σ' : Session ω α}
    (hvisits' : Visits m f view x σ₀ (it' :: past') verdict' σ') :
    verdict' = if it'.iteration = it.iteration then e.verdict else {} := by
  have hle := h.length_le hvisits hvisits'
  have hiteration := hvisits.iteration_eq_length
  have hiteration' := hvisits'.iteration_eq_length
  by_cases hlast : it'.iteration = it.iteration
  · rw [if_pos hlast, h.verdict_eq]
    refine (hvisits'.unique hvisits ?_).2.1
    rw [List.length_cons, List.length_cons]
    omega
  · rw [if_neg hlast]
    refine Verdict.eq_empty (hvisits'.moved_of_lt hvisits ?_).1
    rw [List.length_cons, List.length_cons] at hle ⊢
    omega

end Flags

end Minimizer

/-! ## The exit status -/

/-- The arguments of the program lead to a run. -/
def Asks {φ : Type} [Foreign φ] (format : Format φ) (files : String → FileContent)
    (argv : List String) (job : Job Float) : Prop :=
  ∃ arguments, Arguments.read argv = .ok arguments ∧
    logLevels.contains arguments.logLevel.toUpper = true ∧ arguments.job format files = .ok job

theorem Transcript.ofReport_exit {report : Report Float} :
    (Transcript.ofReport report).exit = .returned 0 ↔
      ∃ r, report.outcome = .ok r ∧ r.converged = true := by
  rcases hreport : report.outcome with (b | e) | r
  · simp only [Transcript.ofReport, hreport]
    cases b.message? <;> simp [failing]
  · simp [Transcript.ofReport, hreport, failing]
  · by_cases hconverged : r.converged = true
    · simp [Transcript.ofReport, hreport, hconverged]
    · simp [Transcript.ofReport, hreport, hconverged]

/-- The program succeeds where its arguments lead to a run that converges. -/
theorem program_exit {φ : Type} [Foreign φ] {format : Format φ} {files : String → FileContent}
    {argv : List String} : (program format files argv).exit = .returned 0 ↔
      ∃ job r, Asks format files argv job ∧ job.run.outcome = .ok r ∧ r.converged = true := by
  constructor
  · intro hexit
    unfold program at hexit
    split at hexit
    · cases hexit
    · cases hexit
    · cases hexit
    · next arguments hread =>
      by_cases hlevel : logLevels.contains arguments.logLevel.toUpper = true
      · simp only [hlevel, Bool.not_true, Bool.false_eq_true, if_false] at hexit
        split at hexit
        · next e hjob =>
          unfold Transcript.ofJobError at hexit
          split at hexit <;> cases hexit
        · next job hjob =>
          obtain ⟨r, hr, hconverged⟩ := Transcript.ofReport_exit.mp hexit
          exact ⟨job, r, ⟨arguments, hread, hlevel, hjob⟩, hr, hconverged⟩
      · simp only [hlevel, Bool.not_false, if_true] at hexit
        cases hexit
  · rintro ⟨job, r, ⟨arguments, hread, hlevel, hjob⟩, hr, hconverged⟩
    simp only [program, hread, hlevel, hjob, Bool.not_true, Bool.false_eq_true, if_false]
    exact Transcript.ofReport_exit.mpr ⟨r, hr, hconverged⟩

namespace Minimizer

theorem shows_of_ok {ω α : Type} [Scalar α] {n : ℕ} {m : Minimizer ω α} {f : Objective ω α n}
    {view : Vec α n → Tensor α} {x : Vec α n} {σ₀ : Session ω α} {r : Results α}
    (h : (m.minimizeFrom f view x σ₀).1.outcome = .ok r) :
    r.Shows m.options.iterations r.termination := by
  obtain ⟨e, σ', trace, hrun, rfl⟩ := exists_ending_of_ok h
  obtain ⟨it, past, verdict, σ, hvisits, hends⟩ := exists_last hrun
  exact hends.shows hvisits trace

/-- **The ends of runs.** For all scalars, objectives, options, preconditioners and line searches,
whatever a run returns

* looks like the results of exactly one of the three reasons for an end, the one that it reports;
* counts the iterates that the run has visited after the first one. The limit is never exceeded,
  and no criterion is met at an iterate before the last one, where those in the results are met.

The program exits with status 0 if and only if its arguments lead to a run that returns because it
has converged, whatever the format of run files is. -/
theorem minimizeFrom_ends :
    (∀ {ω α : Type} [Scalar α] {n : ℕ} (m : Minimizer ω α) (f : Objective ω α n)
      (view : Vec α n → Tensor α) (x : Vec α n) (σ₀ : Session ω α) (r : Results α),
      (m.minimizeFrom f view x σ₀).1.outcome = .ok r →
      (∀ t, r.Shows m.options.iterations t ↔ r.termination = t) ∧
      (r.converged = true ↔ r.termination = .converged) ∧
      r.iterations ≤ m.options.iterations.steps ∧
      (∀ k, (∃ it past verdict σ, Visits m f view x σ₀ (it :: past) verdict σ ∧
        it.iteration = k) ↔ k ≤ r.iterations) ∧
      ∀ it past verdict σ, Visits m f view x σ₀ (it :: past) verdict σ →
        verdict = if it.iteration = r.iterations then r.verdict else {}) ∧
    ∀ {φ : Type} [Foreign φ] (format : Format φ) (files : String → FileContent)
      (argv : List String), (program format files argv).exit = .returned 0 ↔
        ∃ job r, Asks format files argv job ∧ job.run.outcome = .ok r ∧
          r.termination = .converged := by
  have hreports : ∀ {ω α : Type} [Scalar α] {n : ℕ} {m : Minimizer ω α} {f : Objective ω α n}
      {view : Vec α n → Tensor α} {x : Vec α n} {σ₀ : Session ω α} {r : Results α},
      (m.minimizeFrom f view x σ₀).1.outcome = .ok r →
      (r.converged = true ↔ r.termination = .converged) := fun h ↦ (shows_of_ok h).converged_iff
  constructor
  · intro ω α _ n m f view x σ₀ r h
    have hshows := shows_of_ok h
    refine ⟨fun t ↦ ⟨fun ht ↦ hshows.unique ht, ?_⟩, hreports h, ?_⟩
    · rintro rfl
      exact hshows
    obtain ⟨e, σ', trace, hrun, rfl⟩ := exists_ending_of_ok h
    obtain ⟨it, past, verdict, σ, hvisits, hends⟩ := exists_last hrun
    obtain rfl := hends.last_eq
    refine ⟨hvisits.iteration_le, hends.visited_iff hvisits, ?_⟩
    intro it' past' verdict' σ' hvisits'
    exact hends.verdict_of_visits hvisits hvisits'
  · intro φ _ format files argv
    rw [program_exit]
    constructor
    · rintro ⟨job, r, hasks, hr, hconverged⟩
      exact ⟨job, r, hasks, hr, (hreports hr).mp hconverged⟩
    · rintro ⟨job, r, hasks, hr, htermination⟩
      exact ⟨job, r, hasks, hr, (hreports hr).mpr htermination⟩

/-- The default minimizer, limited to one iteration. -/
def hastyMinimizer : Minimizer Unit (Exact Grid.rational) :=
  { defaultMinimizer with options := { defaultMinimizer.options with iterations := ⟨1, true⟩ } }

/-- A run that converges with its last iteration has converged, although the limit is met. -/
theorem minimizeFrom_ends_hasty :
    let σ₀ : Session Unit (Exact Grid.rational) := { world := (), preconditioner := .identity }
    ∃ r, (hastyMinimizer.minimizeFrom squareObjective (⟨[1], ·⟩) #v[.num 1] σ₀).1.outcome =
      .ok r ∧ r.exhausted = true ∧ r.termination = .converged ∧
      r.Shows hastyMinimizer.options.iterations .converged := by
  intro σ₀
  have hrun : ((hastyMinimizer.minimizeFrom squareObjective (⟨[1], ·⟩) #v[.num 1]
      σ₀).1.outcome.toOption.map fun r ↦ (r.exhausted, r.converged)) = some (true, true) := by
    decide +kernel
  obtain ⟨r, hr, hflags⟩ := exists_ok_of_map_toOption hrun
  obtain ⟨hexhausted, hconverged⟩ := Prod.mk.inj hflags
  obtain ⟨hshows, hreported, -⟩ := minimizeFrom_ends.1 hastyMinimizer _ _ _ _ r hr
  have htermination := hreported.mp hconverged
  exact ⟨r, hr, hexhausted, htermination, (hshows _).mpr htermination⟩

end Minimizer

end NonlinearCG
