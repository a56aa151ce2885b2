import Mathlib
import NonlinearCG.Proofs.Run.Parts

/-!
# What one iteration can do

The iteration of a run has two outcomes. It is stuck if the restart test does not recover, and
otherwise it moves. `Advances` lists its stages in either case, with the session after each of them,
and `Interrupted` lists what may keep it from an outcome. The same is done for the start of a run by
`Begins` and `Halted`. All that the proofs know of an iteration and of the start they know from
`meets_advance` and `meets_start`.

`Moves` and `Starts` forget the sessions. They say what holds of an iterate and the one after it,
and of the first one.
-/

namespace NonlinearCG.Minimizer

variable {ω α : Type} [Scalar α] {n : ℕ}

/-! ## The stages of an iteration -/

/-- In a session, the search from an iterate finds a step. It leaves another session. -/
def Finds (m : Minimizer ω α) (f : Objective ω α n) (it : Iterate α n) (σ : Session ω α)
    (r : α × Calls) (σ' : Session ω α) : Prop :=
  (descentRestart it.gradient it.direction).recovered = true ∧
    ∃ σ₁, (announce (descentRestart it.gradient it.direction)).run σ = (.ok (), σ₁) ∧
      (m.searchStep f it (descentRestart it.gradient it.direction).direction
        (descentRestart it.gradient it.direction).slope).run σ₁ = (.ok r, σ')

theorem Finds.exists_session {m : Minimizer ω α} {f : Objective ω α n} {it : Iterate α n}
    {σ σ' : Session ω α} {r : α × Calls} (h : m.Finds f it σ r σ') :
    ∃ w log, σ' = { σ with world := w, log } := by
  obtain ⟨-, σ₁, hannounce, hsearch⟩ := h
  obtain ⟨w, log, rfl⟩ := exists_session_of_searchStep hsearch
  obtain ⟨log', rfl⟩ := exists_log_of_announce hannounce
  exact ⟨w, log, rfl⟩

/-- What an iteration in a session leads to, and the session that it leaves behind. -/
inductive Advances (m : Minimizer ω α) (f : Objective ω α n) (view : Vec α n → Tensor α)
    (it : Iterate α n) (σ : Session ω α) : Advance α n → Session ω α → Prop
  | stuck {σ₁ : Session ω α} {e : Event α} :
      (descentRestart it.gradient it.direction).recovered = false →
      (announce (descentRestart it.gradient it.direction)).run σ = (.ok (), σ₁) →
      Advances m f view it σ .stuck { σ₁ with log := σ₁.log.push e }
  | moved {it' : Iterate α n} {verdict : Verdict} {calls : Calls} {P : Operator α n}
      {σ₁ σ₂ σ₃ : Session ω α} :
      m.Finds f it σ (it'.alpha, calls) σ₁ →
      it'.iteration = it.iteration + 1 →
      it'.calls = calls + .ofBoth →
      it'.x = Vec.moved it.x (descentRestart it.gradient it.direction).direction it'.alpha →
      (Run.evaluate (f.both it'.x) : Run ω α n _).run σ₁ = (.ok (it'.value, it'.gradient), σ₂) →
      Scalar.isFinite it'.value = true →
      m.options.tolerances.assess (Vec.maxDiff it'.x it.x) it'.value it.value
        (Vec.infNorm it'.gradient) = .ok verdict →
      (m.prepare it'.x).run σ₂ = (.ok P, σ₃) →
      it'.direction = (updateDirection P m.options.eta
        (descentRestart it.gradient it.direction).direction it'.gradient it.gradient).direction →
      Advances m f view it σ (.moved it' verdict) (m.notified view it' σ₃)

/-- What interrupts an iteration in a session: the search, or after it the evaluation at the new
point, a value there that is not finite, the convergence test or the preconditioner. -/
inductive Interrupted (m : Minimizer ω α) (f : Objective ω α n) (it : Iterate α n)
    (σ : Session ω α) : Interrupt α n → Session ω α → Prop
  | search {σ₁ σ₂ : Session ω α} {i : Interrupt α n} :
      (descentRestart it.gradient it.direction).recovered = true →
      (announce (descentRestart it.gradient it.direction)).run σ = (.ok (), σ₁) →
      (m.searchStep f it (descentRestart it.gradient it.direction).direction
        (descentRestart it.gradient it.direction).slope).run σ₁ = (.error i, σ₂) →
      Interrupted m f it σ i σ₂
  | evaluation {r : α × Calls} {x : Vec α n} {σ₁ σ₂ : Session ω α} {i : Interrupt α n} :
      m.Finds f it σ r σ₁ →
      x = Vec.moved it.x (descentRestart it.gradient it.direction).direction r.1 →
      (Run.evaluate (f.both x) : Run ω α n _).run σ₁ = (.error i, σ₂) →
      Interrupted m f it σ i σ₂
  | value {r : α × Calls} {x : Vec α n} {σ₁ σ₂ : Session ω α} {v : α} {g : Vec α n} :
      m.Finds f it σ r σ₁ →
      x = Vec.moved it.x (descentRestart it.gradient it.direction).direction r.1 →
      (Run.evaluate (f.both x) : Run ω α n _).run σ₁ = (.ok (v, g), σ₂) →
      Scalar.isFinite v = false →
      Interrupted m f it σ (.stopped (.stepValue v (it.iteration + 1)) (it.iteration + 1)
        (r.2 + .ofBoth) x) σ₂
  | verdict {r : α × Calls} {x : Vec α n} {σ₁ σ₂ : Session ω α} {v : α} {g : Vec α n}
      {cause : Breakdown} :
      m.Finds f it σ r σ₁ →
      x = Vec.moved it.x (descentRestart it.gradient it.direction).direction r.1 →
      (Run.evaluate (f.both x) : Run ω α n _).run σ₁ = (.ok (v, g), σ₂) →
      Scalar.isFinite v = true →
      m.options.tolerances.assess (Vec.maxDiff x it.x) v it.value (Vec.infNorm g) =
        .error cause →
      Interrupted m f it σ (.breakdown cause) σ₂
  | preconditioner {r : α × Calls} {x : Vec α n} {σ₁ σ₂ σ₃ : Session ω α} {v : α} {g : Vec α n}
      {i : Interrupt α n} :
      m.Finds f it σ r σ₁ →
      x = Vec.moved it.x (descentRestart it.gradient it.direction).direction r.1 →
      (Run.evaluate (f.both x) : Run ω α n _).run σ₁ = (.ok (v, g), σ₂) →
      (m.prepare x).run σ₂ = (.error i, σ₃) →
      Interrupted m f it σ i σ₃

theorem meets_advance (m : Minimizer ω α) (f : Objective ω α n) (view : Vec α n → Tensor α)
    (it : Iterate α n) (σ : Session ω α) :
    Meets (m.advance f view it) σ (m.Advances f view it σ) (m.Interrupted f it σ) := by
  rw [advance]
  obtain ⟨σ₁, hannounce⟩ := announce_returns (descentRestart it.gradient it.direction) σ
  refine Meets.bind_of_run hannounce ?_
  -- each stage ends the iteration in one of the listed ways, or hands its result to the next one
  rcases hrecovered : (descentRestart it.gradient it.direction).recovered with _ | _
  · simp only [Bool.false_eq_true, if_false]
    refine (meets_report σ₁ _).bind ?_
    rintro - _ rfl
    exact .pure (.stuck hrecovered hannounce)
  simp only [if_true]
  refine ((Meets.run _ σ₁).imp_error fun i σ₂ ↦ .search hrecovered hannounce).bind ?_
  intro ⟨alpha, calls⟩ σ₂ hsearch
  have hfinds : m.Finds f it σ (alpha, calls) σ₂ := ⟨hrecovered, σ₁, hannounce, hsearch⟩
  refine ((Meets.run _ σ₂).imp_error fun i σ₃ ↦ .evaluation hfinds rfl).bind ?_
  intro ⟨v, g⟩ σ₃ hevaluate
  rcases hfinite : Scalar.isFinite v with _ | _
  · simp only [Bool.false_eq_true, if_false]
    exact .throw (.value hfinds rfl hevaluate hfinite)
  simp only [if_true]
  refine ((meets_lift σ₃ _).imp_error ?_).bind ?_
  · rintro _ _ ⟨cause, hassess, rfl, rfl⟩
    exact .verdict hfinds rfl hevaluate hfinite hassess
  rintro verdict _ ⟨hassess, rfl⟩
  refine ((Meets.run _ _).imp_error fun i σ₄ ↦ .preconditioner hfinds rfl hevaluate).bind ?_
  intro P σ₄ hprepare
  refine Meets.bind_of_run (m.run_notify view _ _) ?_
  exact .pure (.moved hfinds rfl rfl rfl hevaluate hfinite hassess hprepare rfl)

/-! ## The start of a run -/

/-- What the start of a run in a session leads to, and the session that it leaves behind. -/
inductive Begins (m : Minimizer ω α) (f : Objective ω α n) (view : Vec α n → Tensor α)
    (x : Vec α n) (σ : Session ω α) : Iterate α n → Session ω α → Prop
  | intro {it : Iterate α n} {P : Operator α n} {σ₁ σ₂ : Session ω α} :
      it.iteration = 0 →
      it.calls = .ofBoth →
      it.x = x →
      (Run.evaluate (f.both x) : Run ω α n _).run σ = (.ok (it.value, it.gradient), σ₁) →
      Scalar.isFinite it.value = true →
      Vec.allFinite it.gradient = true →
      TrialStep.initial Scalar.nan x it.gradient it.value TrialStep.initialShare = .ok it.alpha →
      (m.prepare x).run (m.notified view { it with direction := it.gradient } σ₁) = (.ok P, σ₂) →
      it.direction = Vec.neg (P.forward it.gradient) →
      Begins m f view x σ it σ₂

/-- What keeps a run in a session from starting: the evaluation at the starting point, a value or a
gradient there that is not finite, the choice of the first step or the preconditioner. -/
inductive Halted (m : Minimizer ω α) (f : Objective ω α n) (view : Vec α n → Tensor α)
    (x : Vec α n) (σ : Session ω α) : Interrupt α n → Session ω α → Prop
  | evaluation {i : Interrupt α n} {σ₁ : Session ω α} :
      (Run.evaluate (f.both x) : Run ω α n _).run σ = (.error i, σ₁) →
      Halted m f view x σ i σ₁
  | value {v : α} {g : Vec α n} {σ₁ : Session ω α} :
      (Run.evaluate (f.both x) : Run ω α n _).run σ = (.ok (v, g), σ₁) →
      Scalar.isFinite v = false →
      Halted m f view x σ (.stopped (.startValue v) 0 .ofBoth x) σ₁
  | gradient {v : α} {g : Vec α n} {σ₁ : Session ω α} :
      (Run.evaluate (f.both x) : Run ω α n _).run σ = (.ok (v, g), σ₁) →
      Scalar.isFinite v = true →
      Vec.allFinite g = false →
      Halted m f view x σ (.stopped (.startGradient (Vec.nonFinite g)) 0 .ofBoth x) σ₁
  | step {v : α} {g : Vec α n} {σ₁ : Session ω α} {cause : Breakdown} :
      (Run.evaluate (f.both x) : Run ω α n _).run σ = (.ok (v, g), σ₁) →
      TrialStep.initial Scalar.nan x g v TrialStep.initialShare = .error cause →
      Halted m f view x σ (.breakdown cause) σ₁
  | preconditioner {it : Iterate α n} {i : Interrupt α n} {σ₁ σ₂ : Session ω α} :
      (Run.evaluate (f.both x) : Run ω α n _).run σ = (.ok (it.value, it.gradient), σ₁) →
      (m.prepare x).run (m.notified view it σ₁) = (.error i, σ₂) →
      Halted m f view x σ i σ₂

theorem meets_start (m : Minimizer ω α) (f : Objective ω α n) (view : Vec α n → Tensor α)
    (x : Vec α n) (σ : Session ω α) :
    Meets (m.start f view x) σ (m.Begins f view x σ) (m.Halted f view x σ) := by
  rw [start]
  refine ((Meets.run _ σ).imp_error fun i σ₁ ↦ .evaluation).bind ?_
  intro ⟨v, g⟩ σ₁ hevaluate
  rcases hfinite : Scalar.isFinite v with _ | _
  · simp only [hfinite, Bool.false_eq_true, if_false]
    exact .throw (.value hevaluate hfinite)
  rcases hgradient : Vec.allFinite g with _ | _
  · simp only [hfinite, hgradient, if_true, Bool.false_eq_true, if_false]
    exact .throw (.gradient hevaluate hfinite hgradient)
  simp only [hfinite, hgradient, if_true]
  refine ((meets_lift σ₁ _).imp_error ?_).bind ?_
  · rintro _ _ ⟨cause, hinitial, rfl, rfl⟩
    exact .step hevaluate hinitial
  rintro alpha _ ⟨hinitial, rfl⟩
  refine Meets.bind_of_run (m.run_notify view _ _) ?_
  refine ((Meets.run _ _).imp_error fun i σ₂ ↦ .preconditioner hevaluate).bind ?_
  intro P σ₂ hprepare
  exact .pure (.intro rfl rfl rfl hevaluate hfinite hgradient hinitial hprepare rfl)

/-! ## From one iterate to the next -/

/-- One iteration leads from an iterate to another one, with a verdict. -/
structure Moves (m : Minimizer ω α) (f : Objective ω α n) (it it' : Iterate α n)
    (verdict : Verdict) : Prop where
  recovered : (descentRestart it.gradient it.direction).recovered = true
  iteration : it'.iteration = it.iteration + 1
  searched : ∃ σ σ' calls,
    (m.searchStep f it (descentRestart it.gradient it.direction).direction
      (descentRestart it.gradient it.direction).slope).run σ = (.ok (it'.alpha, calls), σ')
  moved : it'.x = Vec.moved it.x (descentRestart it.gradient it.direction).direction it'.alpha
  evaluated : ∃ w w', (f.both it'.x).run w = (.ok (it'.value, it'.gradient), w')
  finite : Scalar.isFinite it'.value = true
  updated : ∃ σ σ' P, (m.prepare it'.x).run σ = (.ok P, σ') ∧
    it'.direction = (updateDirection P m.options.eta
      (descentRestart it.gradient it.direction).direction it'.gradient it.gradient).direction
  assessed : m.options.tolerances.assess (Vec.maxDiff it'.x it.x) it'.value it.value
    (Vec.infNorm it'.gradient) = .ok verdict

/-- What holds of the first iterate of a run. -/
structure Starts (m : Minimizer ω α) (f : Objective ω α n) (x : Vec α n) (it : Iterate α n) :
    Prop where
  iteration : it.iteration = 0
  point : it.x = x
  evaluated : ∃ w w', (f.both x).run w = (.ok (it.value, it.gradient), w')
  finite : Scalar.isFinite it.value = true
  gradient_finite : Vec.allFinite it.gradient = true
  alpha : TrialStep.initial Scalar.nan x it.gradient it.value TrialStep.initialShare = .ok it.alpha
  direction : ∃ σ σ' P, (m.prepare x).run σ = (.ok P, σ') ∧
    it.direction = Vec.neg (P.forward it.gradient)

section Outcomes

variable {m : Minimizer ω α} {f : Objective ω α n} {view : Vec α n → Tensor α} {x : Vec α n}
  {it it' : Iterate α n} {verdict : Verdict} {σ σ' : Session ω α}

theorem advances_of_run {r : Advance α n} (h : (m.advance f view it).run σ = (.ok r, σ')) :
    m.Advances f view it σ r σ' :=
  (meets_advance ..).of_run_ok h

theorem interrupted_of_run {i : Interrupt α n} (h : (m.advance f view it).run σ = (.error i, σ')) :
    m.Interrupted f it σ i σ' :=
  (meets_advance ..).of_run_error h

theorem begins_of_run (h : (m.start f view x).run σ = (.ok it, σ')) : m.Begins f view x σ it σ' :=
  (meets_start ..).of_run_ok h

theorem halted_of_run {i : Interrupt α n} (h : (m.start f view x).run σ = (.error i, σ')) :
    m.Halted f view x σ i σ' :=
  (meets_start ..).of_run_error h

omit [Scalar α] in
theorem exists_both_of_run_evaluate {r : α × Vec α n}
    (h : (Run.evaluate (f.both x) : Run ω α n _).run σ = (.ok r, σ')) :
    ∃ w w', (f.both x).run w = (.ok r, w') := by
  obtain ⟨w, hboth, -⟩ := (meets_evaluate σ _).of_run_ok h
  exact ⟨σ.world, w, hboth⟩

theorem moves_of_run (h : (m.advance f view it).run σ = (.ok (.moved it' verdict), σ')) :
    m.Moves f it it' verdict := by
  cases advances_of_run h with
  | moved hfinds hiteration _ hmoved hevaluate hfinite hassess hprepare hdirection =>
    obtain ⟨hrecovered, σ₁, -, hsearch⟩ := hfinds
    exact ⟨hrecovered, hiteration, ⟨_, _, _, hsearch⟩, hmoved,
      exists_both_of_run_evaluate hevaluate, hfinite, ⟨_, _, _, hprepare, hdirection⟩, hassess⟩

theorem starts_of_run (h : (m.start f view x).run σ = (.ok it, σ')) : m.Starts f x it := by
  cases begins_of_run h with
  | intro hiteration _ hpoint hevaluate hfinite hgradient hinitial hprepare hdirection =>
    exact ⟨hiteration, hpoint, exists_both_of_run_evaluate hevaluate, hfinite, hgradient, hinitial,
      _, _, _, hprepare, hdirection⟩

theorem not_recovered_of_run (h : (m.advance f view it).run σ = (.ok .stuck, σ')) :
    (descentRestart it.gradient it.direction).recovered = false := by
  cases advances_of_run h with
  | stuck hrecovered => exact hrecovered

/-- An iteration whose restart test does not recover is stuck. -/
theorem run_advance_of_not_recovered (m : Minimizer ω α) (f : Objective ω α n)
    (view : Vec α n → Tensor α) (σ : Session ω α)
    (h : (descentRestart it.gradient it.direction).recovered = false) :
    ∃ σ', (m.advance f view it).run σ = (.ok .stuck, σ') := by
  obtain ⟨σ₁, hannounce⟩ := announce_returns (descentRestart it.gradient it.direction) σ
  rw [advance, run_bind_ok hannounce, h]
  exact ⟨_, rfl⟩

end Outcomes

end NonlinearCG.Minimizer
