import Mathlib
import NonlinearCG.Minimizer
import NonlinearCG.Proofs.LineSearch.Bench

/-!
# The parts of an iteration

An iteration is put together from a few parts, and each of them leaves its own mark on the session:
an evaluation changes the world, a line search the world and the log, showing an iterate the
observers, and refreshing the preconditioner the world and the preconditioner. There is one lemma
for each part, which says exactly what it did, whether it succeeds or fails.
-/

namespace NonlinearCG

/-! ## Predictions -/

/-- A failure that is a breakdown, and no verdict of the search. -/
def IsBreakdown {α : Type} (e : Fault α) : Prop := ∃ cause, e = .breakdown cause

namespace TrialStep

variable {ω α : Type} [Scalar α] (rule : Rule α) (φ : LineFunction ω α)

omit [Scalar α] in
theorem meets_valueAt (t : α) (b : Bench ω α) :
    Meets (Search.valueAt φ t) b (fun _ b' ↦ b'.cache = b.cache) fun e _ ↦ IsBreakdown e := by
  refine (Search.meets_valueAt φ t b).imp ?_ ?_
  · rintro _ _ ⟨w, -, rfl⟩
    rfl
  · rintro _ _ ⟨cause, w, -, rfl, -⟩
    exact ⟨cause, rfl⟩

theorem meets_reduce (reductions : ℕ) (calls : Calls) (t v : α) (b : Bench ω α) :
    Meets (TrialStep.reduce rule φ reductions calls t v) b
      (fun _ b' ↦ b'.cache.samples = b.cache.samples) fun e _ ↦ IsBreakdown e := by
  induction reductions generalizing calls t v b with
  | zero =>
    rw [TrialStep.reduce]
    exact .pure rfl
  | succ reductions ih =>
    rw [TrialStep.reduce]
    by_cases hv : Scalar.isFinite v = true
    · rw [if_pos hv]
      exact .pure rfl
    · rw [if_neg hv]
      refine (meets_valueAt φ _ b).bind ?_
      intro v' b₁ hb₁
      rw [← hb₁]
      refine (Search.meets_countFailure b₁).bind ?_
      rintro - _ rfl
      exact ih ..

/-- A prediction leaves the samples alone, and it never gives up. -/
theorem meets_propose (alpha : α) (b : Bench ω α) :
    Meets (propose rule φ alpha) b (fun _ b' ↦ b'.cache.samples = b.cache.samples)
      fun e _ ↦ IsBreakdown e := by
  rw [propose]
  refine ((Search.meets_cached 0 b).imp_error fun _ _ ⟨_, he, _⟩ ↦ ⟨_, he⟩).bind ?_
  rintro start _ ⟨rfl, -⟩
  refine (meets_valueAt φ _ _).bind ?_
  intro v b₁ hb₁
  rw [← hb₁]
  refine (meets_reduce rule φ ..).bind ?_
  rintro ⟨_ | ⟨t, v⟩, calls⟩ b₂ hsamples
  · exact .pure hsamples
  · refine ((Search.meets_lift _ b₂).imp_error fun _ _ ⟨cause, _, he, _⟩ ↦ ⟨cause, he⟩).bind ?_
    rintro trial _ ⟨-, rfl⟩
    exact .pure hsamples

end TrialStep

namespace Minimizer

variable {ω α A : Type} {n : ℕ}

/-! ## Evaluations -/

section Evaluations

variable (σ : Session ω α)

theorem meets_lift (r : Except Breakdown A) :
    Meets (Run.lift r : Run ω α n A) σ (fun a σ' ↦ r = .ok a ∧ σ' = σ)
      fun i σ' ↦ ∃ cause, r = .error cause ∧ i = .breakdown cause ∧ σ' = σ := by
  cases r with
  | ok a => exact ⟨rfl, rfl⟩
  | error cause => exact ⟨cause, rfl, rfl, rfl⟩

theorem run_evaluate {act : Eval ω A} {r : Except Breakdown A} {w : ω}
    (h : act.run σ.world = (r, w)) :
    (Run.evaluate act : Run ω α n A).run σ = (Run.lift r).run { σ with world := w } := by
  rw [Run.evaluate, run_bind_ok (run_get _)]
  simp only [h]
  rfl

theorem meets_evaluate (act : Eval ω A) :
    Meets (Run.evaluate act : Run ω α n A) σ
      (fun a σ' ↦ ∃ w, act.run σ.world = (.ok a, w) ∧ σ' = { σ with world := w })
      fun i σ' ↦ ∃ cause w, act.run σ.world = (.error cause, w) ∧ i = .breakdown cause ∧
        σ' = { σ with world := w } := by
  rcases hact : act.run σ.world with ⟨cause | a, w⟩
  · rw [Meets, run_evaluate σ hact]
    exact ⟨cause, w, rfl, rfl, rfl⟩
  · rw [Meets, run_evaluate σ hact]
    exact ⟨w, rfl, rfl⟩

theorem meets_report (e : Event α) {E : Interrupt α n → Session ω α → Prop} :
    Meets (Run.report e : Run ω α n Unit) σ
      (fun _ σ' ↦ σ' = { σ with log := σ.log.push e }) E := by
  rw [Meets]
  rfl

theorem meets_announce (d : Descent α n) {E : Interrupt α n → Session ω α → Prop} :
    Meets (announce d : Run ω α n Unit) σ (fun _ σ' ↦ ∃ log, σ' = { σ with log }) E := by
  rw [announce]
  rcases d.replaced with _ | slope
  · exact .pure ⟨σ.log, rfl⟩
  · exact (meets_report σ _).imp_ok fun _ _ h ↦ ⟨_, h⟩

theorem exists_log_of_announce {d : Descent α n} {σ σ' : Session ω α}
    (h : (announce d : Run ω α n Unit).run σ = (.ok (), σ')) : ∃ log, σ' = { σ with log } :=
  (meets_announce (E := fun _ _ ↦ False) σ d).of_run_ok h

theorem announce_returns (d : Descent α n) : Returns (announce d : Run ω α n Unit) () := by
  intro σ
  obtain ⟨_, σ', hrun, -⟩ := (meets_announce σ d).exists_ok
  exact ⟨σ', hrun⟩

theorem meets_prepare (m : Minimizer ω α) (x : Vec α n) :
    Meets (m.prepare x) σ
      (fun Q σ' ↦ ∃ P w, (m.refresh σ.preconditioner x.toArray).run σ.world = (.ok P, w) ∧
        P.weighting.sized n = .ok Q ∧ σ' = { σ with world := w, preconditioner := P })
      fun i σ' ↦ ∃ cause, i = .breakdown cause ∧ σ'.observers = σ.observers ∧
        ((∃ w, (m.refresh σ.preconditioner x.toArray).run σ.world = (.error cause, w)) ∨
          ∃ P w, (m.refresh σ.preconditioner x.toArray).run σ.world = (.ok P, w) ∧
            P.weighting.sized n = .error cause) := by
  rw [prepare]
  refine Meets.bind_of_run (run_get σ) ?_
  refine ((meets_evaluate σ _).imp_error ?_).bind ?_
  · rintro _ _ ⟨cause, w, hrefresh, rfl, rfl⟩
    exact ⟨cause, rfl, rfl, .inl ⟨w, hrefresh⟩⟩
  rintro P _ ⟨w, hrefresh, rfl⟩
  refine Meets.bind_of_run rfl ?_
  refine (meets_lift _ _).imp ?_ ?_
  · rintro Q _ ⟨hsized, rfl⟩
    exact ⟨P, w, hrefresh, hsized, rfl⟩
  · rintro _ _ ⟨cause, hsized, rfl, rfl⟩
    exact ⟨cause, rfl, rfl, .inr ⟨P, w, hrefresh, hsized⟩⟩

end Evaluations

/-! ## Line searches -/

section Searching

/-- The bench on which a part of a line search works from an iterate. -/
def Iterate.bench (it : Iterate α n) (σ : Session ω α) (cache : Cache α) :
    Bench (Trial ω α n) α :=
  { world := ⟨σ.world, it.x, it.gradient⟩, cache, log := σ.log }

/-- The interruption to which a failure of a part of a line search leads. -/
def Iterate.interrupt (it : Iterate α n) (calls : Calls) : Fault α → Interrupt α n
  | .breakdown cause => .breakdown cause
  | .search e => .stopped (.search e) (it.iteration + 1) calls it.x

def after (σ : Session ω α) (b : Bench (Trial ω α n) α) : Session ω α :=
  { σ with world := b.world.world, log := b.log }

variable {it : Iterate α n} {cache : Cache α} {act : Search (Trial ω α n) α A} {σ : Session ω α}
  {b : Bench (Trial ω α n) α}

theorem run_searching {a : A} (h : act.run (it.bench σ cache) = (.ok a, b)) (calls : Calls) :
    (Run.searching it calls cache act).run σ = (.ok (a, b.cache), after σ b) := by
  rw [Iterate.bench] at h
  rw [Run.searching, run_bind_ok (run_get _)]
  simp only [h]
  rfl

theorem run_searching_error {e : Fault α} (h : act.run (it.bench σ cache) = (.error e, b))
    (calls : Calls) :
    (Run.searching it calls cache act).run σ = (.error (it.interrupt calls e), after σ b) := by
  rw [Iterate.bench] at h
  rw [Run.searching, run_bind_ok (run_get _)]
  simp only [h]
  cases e with
  | breakdown | search => rfl

theorem meets_searching (it : Iterate α n) (calls : Calls) (cache : Cache α)
    (act : Search (Trial ω α n) α A) (σ : Session ω α) :
    Meets (Run.searching it calls cache act) σ
      (fun r σ' ↦ ∃ b, act.run (it.bench σ cache) = (.ok r.1, b) ∧ r.2 = b.cache ∧ σ' = after σ b)
      fun i σ' ↦ ∃ e b, act.run (it.bench σ cache) = (.error e, b) ∧ i = it.interrupt calls e ∧
        σ' = after σ b := by
  rcases hact : act.run (it.bench σ cache) with ⟨e | a, b⟩
  · rw [Meets, run_searching_error hact]
    exact ⟨e, b, rfl, rfl, rfl⟩
  · rw [Meets, run_searching hact]
    exact ⟨b, rfl, rfl, rfl⟩

variable [Scalar α]

/-- The prediction of a trial step from an iterate. -/
def Iterate.proposal (it : Iterate α n) (f : Objective ω α n) (s : Vec α n) :
    Search (Trial ω α n) α ((α × Bool) × Calls) :=
  TrialStep.propose .default (.ofObjective f it.x s) it.alpha

theorem run_predict {f : Objective ω α n} {it : Iterate α n} {s : Vec α n} {slope trial : α}
    {mayAccept : Bool} {calls : Calls} {σ : Session ω α} {b : Bench (Trial ω α n) α}
    (h : (it.proposal f s).run (it.bench σ (.seeded ⟨0.0, it.value, slope⟩)) =
      (.ok ((trial, mayAccept), calls), b)) :
    (predict f it s slope).run σ = (.ok ⟨trial, mayAccept, b.cache, it.calls + calls⟩, after σ b) :=
  run_bind_ok (run_searching h it.calls)

theorem meets_predict (f : Objective ω α n) (it : Iterate α n) (s : Vec α n) (slope : α)
    (σ : Session ω α) :
    Meets (predict f it s slope) σ
      (fun q σ' ↦ ∃ calls b, (it.proposal f s).run (it.bench σ (.seeded ⟨0.0, it.value, slope⟩)) =
          (.ok ((q.trial, q.mayAccept), calls), b) ∧
        q = ⟨q.trial, q.mayAccept, b.cache, it.calls + calls⟩ ∧ σ' = after σ b)
      fun i σ' ↦ ∃ cause b, (it.proposal f s).run
          (it.bench σ (.seeded ⟨0.0, it.value, slope⟩)) = (.error (.breakdown cause), b) ∧
        i = .breakdown cause ∧ σ' = after σ b := by
  rw [predict]
  refine ((meets_searching ..).imp_error ?_).bind ?_
  · rintro _ _ ⟨e, b, hrun, rfl, rfl⟩
    obtain ⟨cause, rfl⟩ := (TrialStep.meets_propose ..).of_run_error hrun
    exact ⟨cause, b, hrun, rfl, rfl⟩
  · rintro ⟨⟨⟨trial, mayAccept⟩, calls⟩, cache⟩ σ' ⟨b, hrun, rfl, rfl⟩
    exact .pure ⟨calls, b, hrun, rfl, rfl⟩

theorem samples_of_run_predict {f : Objective ω α n} {it : Iterate α n} {s : Vec α n} {slope : α}
    {σ σ' : Session ω α} {q : Prediction α} (h : (predict f it s slope).run σ = (.ok q, σ')) :
    q.cache.samples = #[⟨0.0, it.value, slope⟩] := by
  obtain ⟨calls, b, hrun, hq, -⟩ := (meets_predict f it s slope σ).of_run_ok h
  rw [hq]
  exact (TrialStep.meets_propose ..).of_run_ok hrun

/-- What the search for a step from an iterate did: it predicted a trial step, and the line search
went on from the cache that the prediction had left behind. -/
theorem meets_searchStep (m : Minimizer ω α) (f : Objective ω α n) (it : Iterate α n)
    (s : Vec α n) (slope : α) (σ : Session ω α) :
    Meets (m.searchStep f it s slope) σ
      (fun r σ' ↦ ∃ q σ₁ step b, (predict f it s slope).run σ = (.ok q, σ₁) ∧
        (m.lineSearch.search f it.x s q.trial q.mayAccept).run (it.bench σ₁ q.cache) =
          (.ok step, b) ∧
        r = (step.alpha, q.calls + step.calls) ∧ σ' = after σ₁ b)
      fun i σ' ↦ (predict f it s slope).run σ = (.error i, σ') ∨
        ∃ q σ₁ e b, (predict f it s slope).run σ = (.ok q, σ₁) ∧
          (m.lineSearch.search f it.x s q.trial q.mayAccept).run (it.bench σ₁ q.cache) =
            (.error e, b) ∧
          i = it.interrupt q.calls e ∧ σ' = after σ₁ b := by
  refine Meets.intro ?_ ?_
  · intro r σ' h
    obtain ⟨q, σ₁, hpredict, h⟩ := run_bind_eq_ok h
    obtain ⟨⟨step, _⟩, σ₂, hsearch, h⟩ := run_bind_eq_ok h
    cases h
    obtain ⟨b, hrun, -, rfl⟩ := (meets_searching ..).of_run_ok hsearch
    exact ⟨q, σ₁, step, b, hpredict, hrun, rfl, rfl⟩
  · intro i σ' h
    rcases run_bind_eq_error h with hpredict | ⟨q, σ₁, hpredict, h⟩
    · exact .inl hpredict
    rcases run_bind_eq_error h with hsearch | ⟨_, _, -, h⟩
    · obtain ⟨e, b, hrun, rfl, rfl⟩ := (meets_searching ..).of_run_error hsearch
      exact .inr ⟨q, σ₁, e, b, hpredict, hrun, rfl, rfl⟩
    · cases h

section Sessions

variable {f : Objective ω α n} {it : Iterate α n} {s : Vec α n} {slope : α} {σ σ' : Session ω α}

/-- A prediction changes the world and the log alone. -/
theorem exists_session_of_predict {outcome : Except (Interrupt α n) (Prediction α)}
    (h : (predict f it s slope).run σ = (outcome, σ')) :
    ∃ w log, σ' = { σ with world := w, log } := by
  cases outcome with
  | ok q =>
    obtain ⟨calls, b, -, -, rfl⟩ := (meets_predict ..).of_run_ok h
    exact ⟨_, _, rfl⟩
  | error i =>
    obtain ⟨cause, b, -, -, rfl⟩ := (meets_predict ..).of_run_error h
    exact ⟨_, _, rfl⟩

/-- So does the search for a step. -/
theorem exists_session_of_searchStep {m : Minimizer ω α}
    {outcome : Except (Interrupt α n) (α × Calls)}
    (h : (m.searchStep f it s slope).run σ = (outcome, σ')) :
    ∃ w log, σ' = { σ with world := w, log } := by
  cases outcome with
  | ok r =>
    obtain ⟨q, σ₁, step, b, hpredict, -, -, rfl⟩ := (meets_searchStep ..).of_run_ok h
    obtain ⟨w, log, rfl⟩ := exists_session_of_predict hpredict
    exact ⟨_, _, rfl⟩
  | error i =>
    rcases (meets_searchStep ..).of_run_error h with hpredict | ⟨q, σ₁, e, b, hpredict, -, -, rfl⟩
    · exact exists_session_of_predict hpredict
    · obtain ⟨w, log, rfl⟩ := exists_session_of_predict hpredict
      exact ⟨_, _, rfl⟩

end Sessions

end Searching

/-! ## Observers -/

section Notify

variable [Scalar α]

def notified (m : Minimizer ω α) (view : Vec α n → Tensor α) (it : Iterate α n)
    (σ : Session ω α) : Session ω α :=
  if σ.observers.any (Observer.dueAt it.iteration) then
    { σ with observers := Observer.observeDue (state m.options view it) σ.observers }
  else σ

variable (m : Minimizer ω α) (view : Vec α n → Tensor α) (it : Iterate α n) (σ : Session ω α)

theorem run_notify : (m.notify view it).run σ = (.ok (), m.notified view it σ) := rfl

theorem exists_notified : ∃ observers, m.notified view it σ = { σ with observers } := by
  rw [notified]
  split_ifs
  · exact ⟨_, rfl⟩
  · exact ⟨σ.observers, rfl⟩

@[simp] theorem notified_world : (m.notified view it σ).world = σ.world := by
  obtain ⟨_, h⟩ := m.exists_notified view it σ
  rw [h]

@[simp] theorem notified_preconditioner :
    (m.notified view it σ).preconditioner = σ.preconditioner := by
  obtain ⟨_, h⟩ := m.exists_notified view it σ
  rw [h]

end Notify

end Minimizer

end NonlinearCG
