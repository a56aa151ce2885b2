import Mathlib
import NonlinearCG.Proofs.Run.Visits

/-!
# Runs that make progress

The other side of `Starts` and `Moves`: where the objective returns, the line search finds a step
and the preconditioner fits, the first iterate and the next one exist, and they are the expected
ones. If that is so at every iterate from which a run is to go on, the run returns.

A preconditioner that refreshing leaves alone stays in the session, whatever else a run does to it.
-/

namespace NonlinearCG

/-- Evaluations that return agree with a function and its gradient. -/
def Objective.Agrees {ω α : Type} {n : ℕ} (f : Objective ω α n) (F : Vec α n → α)
    (g : Vec α n → Vec α n) : Prop :=
  ∀ x w v d w', (f.both x).run w = (.ok (v, d), w') → v = F x ∧ d = g x

namespace Minimizer

variable {ω α : Type} {n : ℕ} {A : Type} {P₀ : Preconditioner α}

/-! ## Parts of a run that return -/

/-- From any session with the preconditioner, the part of a run returns what is said of it, and
leaves the preconditioner in the session. -/
def Yields (P₀ : Preconditioner α) (x : Run ω α n A) (Q : A → Prop) : Prop :=
  ∀ σ, σ.preconditioner = P₀ → ∃ a σ', x.run σ = (.ok a, σ') ∧ Q a ∧ σ'.preconditioner = P₀

namespace Yields

theorem pure {Q : A → Prop} {a : A} (h : Q a) : Yields P₀ (pure a : Run ω α n A) Q :=
  fun σ hσ ↦ ⟨a, σ, rfl, h, hσ⟩

theorem imp {x : Run ω α n A} {Q R : A → Prop} (h : Yields P₀ x Q) (hQR : ∀ a, Q a → R a) :
    Yields P₀ x R := by
  intro σ hσ
  obtain ⟨a, σ', hrun, ha, hσ'⟩ := h σ hσ
  exact ⟨a, σ', hrun, hQR a ha, hσ'⟩

theorem bind {B : Type} {x : Run ω α n A} {f : A → Run ω α n B} {Q : A → Prop} {R : B → Prop}
    (hx : Yields P₀ x Q) (hf : ∀ a, Q a → Yields P₀ (f a) R) : Yields P₀ (x >>= f) R := by
  intro σ hσ
  obtain ⟨a, σ', hrun, ha, hσ'⟩ := hx σ hσ
  obtain ⟨b, σ'', hrest, hb, hσ''⟩ := hf a ha σ' hσ'
  exact ⟨b, σ'', (run_bind_ok hrun).trans hrest, hb, hσ''⟩

end Yields

theorem evaluate_yields {act : Eval ω A} {a : A} (h : Returns act a) :
    Yields P₀ (Run.evaluate act : Run ω α n A) (· = a) := by
  intro σ hσ
  obtain ⟨w', hw'⟩ := h σ.world
  exact ⟨a, { σ with world := w' }, run_evaluate σ hw', rfl, hσ⟩

theorem searching_yields {it : Iterate α n} {calls : Calls} {cache : Cache α}
    {act : Search (Trial ω α n) α A} {Q : A × Cache α → Prop}
    (h : ∀ b, b.cache = cache → ∃ a b', act.run b = (.ok a, b') ∧ Q (a, b'.cache)) :
    Yields P₀ (Run.searching it calls cache act) Q := by
  intro σ hσ
  obtain ⟨a, b', hrun, hQ⟩ := h (it.bench σ cache) rfl
  exact ⟨_, after σ b', run_searching hrun calls, hQ, hσ⟩

theorem announce_yields (d : Descent α n) :
    Yields P₀ (announce d : Run ω α n Unit) fun _ ↦ True := by
  intro σ hσ
  obtain ⟨_, _, hrun, log, rfl⟩ := (meets_announce σ d).exists_ok
  exact ⟨(), _, hrun, trivial, hσ⟩

theorem notify_yields [Scalar α] (m : Minimizer ω α) (view : Vec α n → Tensor α)
    (it : Iterate α n) : Yields P₀ (m.notify view it) fun _ ↦ True := by
  intro σ hσ
  exact ⟨(), _, m.run_notify view it σ, trivial, (m.notified_preconditioner view it σ).trans hσ⟩

/-- Refreshing leaves a preconditioner alone, which is an operator on `n` variables. -/
structure Steady (m : Minimizer ω α) (P₀ : Preconditioner α) (P : Operator α n) : Prop where
  refresh (x : Array α) : Returns (m.refresh P₀ x) P₀
  sized : P₀.weighting.sized n = .ok P

theorem Steady.prepare_yields {m : Minimizer ω α} {P : Operator α n} (h : m.Steady P₀ P)
    (x : Vec α n) : Yields P₀ (m.prepare x) (· = P) := by
  intro σ hσ
  have hevaluate : Yields P₀ (Run.evaluate (m.refresh P₀ x.toArray) : Run ω α n _) (· = P₀) :=
    evaluate_yields (h.refresh x.toArray)
  obtain ⟨P₁, σ₁, hrefresh, hP₁, -⟩ := hevaluate σ hσ
  rw [hP₁] at hrefresh
  refine ⟨P, { σ₁ with preconditioner := P₀ }, ?_, rfl, rfl⟩
  rw [prepare, run_bind_ok (run_get _), hσ, run_bind_ok hrefresh, h.sized]
  rfl

/-! ## The first iterate and the next one -/

section Iterates

variable [Scalar α] {m : Minimizer ω α} {f : Objective ω α n} (view : Vec α n → Tensor α)
  {x g : Vec α n} {value alpha : α} {P : Operator α n}

theorem start_yields (hboth : Returns (f.both x) (value, g))
    (hvalue : Scalar.isFinite value = true) (hgradient : Vec.allFinite g = true)
    (halpha : TrialStep.initial Scalar.nan x g value TrialStep.initialShare = .ok alpha)
    (hP : m.Steady P₀ P) :
    Yields P₀ (m.start f view x)
      (· = ⟨0, x, value, g, Vec.neg (P.forward g), alpha, .ofBoth⟩) := by
  unfold start
  refine (evaluate_yields hboth).bind ?_
  rintro _ rfl
  simp only [hvalue, hgradient, if_true, halpha, Run.lift, pure_bind]
  refine (m.notify_yields view _).bind ?_
  rintro _ -
  refine (hP.prepare_yields x).bind ?_
  rintro _ rfl
  exact .pure rfl

theorem advance_yields {it : Iterate α n} {d : Descent α n}
    (hd : descentRestart it.gradient it.direction = d) (hrecovered : d.recovered = true)
    (hstep : Yields P₀ (m.searchStep f it d.direction d.slope) fun r ↦ r.1 = alpha)
    (hx : Vec.moved it.x d.direction alpha = x) (hboth : Returns (f.both x) (value, g))
    (hvalue : Scalar.isFinite value = true) {verdict : Verdict}
    (hverdict : m.options.tolerances.assess (Vec.maxDiff x it.x) value it.value (Vec.infNorm g) =
      .ok verdict)
    (hP : m.Steady P₀ P) :
    Yields P₀ (m.advance f view it) fun r ↦ ∃ calls, r = .moved
      ⟨it.iteration + 1, x, value, g,
        (updateDirection P m.options.eta d.direction g it.gradient).direction, alpha, calls⟩
      verdict := by
  subst hd hx
  unfold advance
  refine (announce_yields _).bind ?_
  rintro _ -
  simp only [hrecovered, if_true]
  refine hstep.bind ?_
  rintro ⟨_, calls⟩ rfl
  refine (evaluate_yields hboth).bind ?_
  rintro _ rfl
  simp only [hvalue, if_true, hverdict, Run.lift, pure_bind]
  refine (hP.prepare_yields _).bind ?_
  rintro _ rfl
  refine (m.notify_yields view _).bind ?_
  rintro _ -
  exact .pure ⟨_, rfl⟩

end Iterates

/-! ## Runs -/

section Runs

variable [Scalar α] {m : Minimizer ω α} {f : Objective ω α n} {view : Vec α n → Tensor α}
  {x : Vec α n} {σ₀ : Session ω α}

theorem exists_ending_of_iterate
    (hadvance : ∀ it past σ, m.GoesOn f view x σ₀ it past σ →
      ∃ r σ', (m.advance f view it).run σ = (.ok r, σ')) (steps : ℕ) {it : Iterate α n}
    {past : List (Iterate α n)} {verdict : Verdict} {σ : Session ω α}
    (h : Visits m f view x σ₀ (it :: past) verdict σ) (hverdict : verdict.converged = false)
    (hsteps : it.iteration + steps = m.budget) :
    ∃ e σ', (m.iterate f view steps it).run σ = (.ok e, σ') := by
  -- the steps that are left make up the budget together with those that were taken
  induction steps generalizing it past verdict σ with
  | zero => exact ⟨_, σ, rfl⟩
  | succ steps ih =>
    have hlt : it.iteration < m.budget := by omega
    obtain ⟨r, σ₁, hrun⟩ := hadvance it past σ ⟨verdict, h, hverdict, hlt⟩
    rw [iterate, run_bind_ok hrun]
    cases r with
    | stuck => exact ⟨_, σ₁, rfl⟩
    | moved it' verdict' =>
      rcases hconverged : verdict'.converged with _ | _
      · have hiteration := (moves_of_run hrun).iteration
        simp only [hconverged, Bool.false_eq_true, if_false]
        exact ih (h.move hverdict hlt hrun) hconverged (by omega)
      · simp only [hconverged, if_true]
        exact ⟨_, σ₁, rfl⟩

/-- A run returns if it starts and every iteration that it comes to returns. -/
theorem exists_ending {it : Iterate α n} {σ : Session ω α}
    (hstart : (m.start f view x).run (m.opened σ₀) = (.ok it, σ))
    (hadvance : ∀ it past σ, m.GoesOn f view x σ₀ it past σ →
      ∃ r σ', (m.advance f view it).run σ = (.ok r, σ')) :
    ∃ e σ', (m.run f view x).run (m.opened σ₀) = (.ok e, σ') := by
  have hzero := (starts_of_run hstart).iteration
  obtain ⟨e, σ', hrun⟩ := exists_ending_of_iterate hadvance m.budget (.start hstart) rfl (by omega)
  rw [(Visits.start hstart).resume rfl, hzero, Nat.sub_zero, hrun]
  exact ⟨e, _, rfl⟩

end Runs

end Minimizer

end NonlinearCG
