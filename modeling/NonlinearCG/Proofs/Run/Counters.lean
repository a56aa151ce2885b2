import Mathlib
import NonlinearCG.Proofs.Exact.Quadratic
import NonlinearCG.Proofs.Run.Tally

/-!
# The counters of a run

A run that returns says how many evaluations it made, and it has known their number all along: at
each iterate, after the prediction of a trial step, after the line search and after the evaluation
at the new point. `Counts` lists these moments, with the counter and the session of the run there.
A world that tallies the evaluations agrees with the counter at all of them.
-/

namespace NonlinearCG.Minimizer

variable {ω α : Type} [Scalar α] {n : ℕ}

/-- In a session, a trial step from an iterate is predicted. The prediction leaves another
session. -/
def Predicts (f : Objective ω α n) (it : Iterate α n) (σ : Session ω α) (q : Prediction α)
    (σ' : Session ω α) : Prop :=
  (descentRestart it.gradient it.direction).recovered = true ∧
    ∃ σ₁, (announce (descentRestart it.gradient it.direction)).run σ = (.ok (), σ₁) ∧
      (predict f it (descentRestart it.gradient it.direction).direction
        (descentRestart it.gradient it.direction).slope).run σ₁ = (.ok q, σ')

/-- At some moment of the run from a point, its counter has a value and its session is in a
state. -/
inductive Counts (m : Minimizer ω α) (f : Objective ω α n) (view : Vec α n → Tensor α)
    (x : Vec α n) (σ₀ : Session ω α) : Calls → Session ω α → Prop
  /-- The run has come to an iterate. -/
  | iterate {it : Iterate α n} {past : List (Iterate α n)} {verdict : Verdict}
      {σ : Session ω α} :
      Visits m f view x σ₀ (it :: past) verdict σ → Counts m f view x σ₀ it.calls σ
  /-- The trial step is predicted. -/
  | predicted {it : Iterate α n} {past : List (Iterate α n)} {σ σ' : Session ω α}
      {q : Prediction α} :
      m.GoesOn f view x σ₀ it past σ → Predicts f it σ q σ' → Counts m f view x σ₀ q.calls σ'
  /-- The line search has found a step. -/
  | searched {it : Iterate α n} {past : List (Iterate α n)} {σ σ' : Session ω α} {alpha : α}
      {calls : Calls} :
      m.GoesOn f view x σ₀ it past σ → m.Finds f it σ (alpha, calls) σ' →
      Counts m f view x σ₀ calls σ'
  /-- The objective is evaluated at the new point. -/
  | evaluated {it : Iterate α n} {past : List (Iterate α n)} {σ σ₁ σ₂ : Session ω α}
      {alpha : α} {calls : Calls} {r : α × Vec α n} :
      m.GoesOn f view x σ₀ it past σ → m.Finds f it σ (alpha, calls) σ₁ →
      (Run.evaluate (f.both (Vec.moved it.x (descentRestart it.gradient it.direction).direction
        alpha)) : Run ω α n _).run σ₁ = (.ok r, σ₂) →
      Counts m f view x σ₀ (calls + .ofBoth) σ₂

variable {m : Minimizer ω α} {f : Objective ω α n} {view : Vec α n → Tensor α} {x : Vec α n}
  {σ₀ σ σ' : Session ω α} {it : Iterate α n} {past : List (Iterate α n)} {verdict : Verdict}
  {tally : ω → Calls}

/-! ## One moment after another -/

theorem Predicts.tally_eq (hf : f.Tallies tally) {q : Prediction α} {c : Calls}
    (h : Predicts f it σ q σ') (hσ : tally σ.world = c + it.calls) :
    tally σ'.world = c + q.calls := by
  obtain ⟨-, σ₁, hannounce, hpredict⟩ := h
  exact tally_of_predict hf hpredict ((tally_of_announce hannounce).trans hσ)

theorem Counts.tally_eq (hf : f.Tallies tally) (hm : m.lineSearch.Accounts)
    (hspares : m.Spares tally) {c : Calls} (h : Counts m f view x σ₀ c σ) :
    tally σ.world = tally σ₀.world + c := by
  cases h with
  | iterate hvisits => exact hvisits.tally_eq hf hm hspares
  | predicted hon hpredicts =>
    obtain ⟨_, hvisits, -⟩ := hon
    exact hpredicts.tally_eq hf (hvisits.tally_eq hf hm hspares)
  | searched hon hfinds =>
    obtain ⟨_, hvisits, -⟩ := hon
    exact hfinds.tally_eq hf hm (hvisits.tally_eq hf hm hspares)
  | evaluated hon hfinds hrun =>
    obtain ⟨_, hvisits, -⟩ := hon
    exact hfinds.tally_evaluated hf hm hrun (hvisits.tally_eq hf hm hspares)

/-! ## The results -/

theorem tally_of_run (hf : f.Tallies tally) (hm : m.lineSearch.Accounts)
    (hspares : m.Spares tally) {e : Ending α n}
    (h : (m.run f view x).run (m.opened σ₀) = (.ok e, σ')) :
    tally σ'.world = tally σ₀.world + e.last.calls := by
  obtain ⟨it, past, verdict, σ, hvisits, hends⟩ := exists_last h
  obtain ⟨σ₁, hrun, hlast⟩ := hvisits.run_of_endsWith hends
  cases h.symm.trans hrun
  have hkept : tally σ₁.world = tally σ.world := by
    rcases hlast with rfl | hstuck
    · rfl
    · exact (advances_of_run hstuck).tally_eq_of_stuck
  calc tally σ₁.world = tally σ.world := hkept
    _ = tally σ₀.world + it.calls := hvisits.tally_eq hf hm hspares
    _ = tally σ₀.world + e.last.calls := by rw [hends.last_eq]

/-- **The counters of a run are right.** For any type of scalars, any objective that tallies its
evaluations, with or without a combined one, any options, any preconditioner whose refreshing
evaluates nothing and both line searches with any parameters: at each iterate, after each
prediction, after each line search and after each evaluation at a new point the counter of the run
is the number of evaluations since it began, and so are the counters of the results. -/
theorem minimizeFrom_calls (hf : f.Tallies tally) (hspares : m.Spares tally) {q : Strategy α}
    (hm : m.lineSearch = q.lineSearch) (view : Vec α n → Tensor α) (x : Vec α n)
    (σ₀ : Session ω α) :
    (∀ c σ, Counts m f view x σ₀ c σ → tally σ.world = tally σ₀.world + c) ∧
    ∀ r, (m.minimizeFrom f view x σ₀).1.outcome = .ok r →
      tally (m.minimizeFrom f view x σ₀).2.world = tally σ₀.world + r.calls := by
  have haccounts : m.lineSearch.Accounts := hm ▸ q.accounts
  constructor
  · intro c σ h
    exact h.tally_eq hf haccounts hspares
  · intro r h
    obtain ⟨e, σ', trace, hrun, rfl⟩ := exists_ending_of_ok h
    have hworld : (m.minimizeFrom f view x σ₀).2.world = σ'.world := by
      simp only [minimizeFrom, hrun]
    rw [hworld]
    exact tally_of_run hf haccounts hspares hrun

omit [Scalar α] in
theorem spares_of_ownRefresh (h : m.refresh = ownRefresh) : m.Spares tally := by
  intro P P' y w w' hrun
  rw [h, ownRefresh] at hrun
  rcases hP : P.refreshed y with cause | P₁
  · rw [hP] at hrun
    cases hrun
  · rw [hP] at hrun
    cases hrun
    rfl

/-- The default minimizer, on a world that counts the evaluations. -/
def countingDefault : Minimizer (Unit × Calls) (Exact Grid.rational) where
  options := .default fun k ↦ ⟨k, true⟩
  lineSearch := (Strategy.hagerZhang .default).lineSearch
  refresh := ownRefresh

/-- The run on `½ (x² + 3 y²)` from `(3, 1)` counts right up to its end. -/
theorem minimizeFrom_calls_quadratic :
    let q : Quadratic (Exact Grid.rational) 2 := .num (Matrix.diagonal ![1, 3]) 0
    let f : Objective (Unit × Calls) (Exact Grid.rational) 2 :=
      Objective.counted (.ofFunctions q.value q.gradient)
    let σ₀ : Session (Unit × Calls) (Exact Grid.rational) :=
      { world := ((), 0), preconditioner := .identity }
    ∃ r, (countingDefault.minimizeFrom f (⟨[2], ·⟩) (Vec.num ![3, 1]) σ₀).1.outcome = .ok r ∧
      r.calls = ⟨7, 5⟩ ∧
      (countingDefault.minimizeFrom f (⟨[2], ·⟩) (Vec.num ![3, 1]) σ₀).2.world.2 = ⟨7, 5⟩ ∧
      ∃ σ, Counts countingDefault f (⟨[2], ·⟩) (Vec.num ![3, 1]) σ₀ r.calls σ ∧
        σ.world.2 = ⟨7, 5⟩ := by
  intro q f σ₀
  have hrun : ((countingDefault.minimizeFrom f (⟨[2], ·⟩) (Vec.num ![3, 1])
      σ₀).1.outcome.toOption.map Results.calls) = some ⟨7, 5⟩ := by
    decide +kernel
  obtain ⟨r, hr, hcalls⟩ := exists_ok_of_map_toOption hrun
  obtain ⟨hmoments, hresults⟩ := minimizeFrom_calls (Objective.counted_tallies _)
    (spares_of_ownRefresh rfl) (q := .hagerZhang .default) (m := countingDefault) rfl
    (⟨[2], ·⟩) (Vec.num ![3, 1]) σ₀
  have hworld := hresults r hr
  obtain ⟨e, σ', trace, hending, rfl⟩ := exists_ending_of_ok hr
  obtain ⟨it, past, verdict, σ, hvisits, hends⟩ := exists_last hending
  have hlast : it.calls = ⟨7, 5⟩ := by
    rw [← hends.last_eq]
    exact hcalls
  have hmoment := hmoments it.calls σ (.iterate hvisits)
  refine ⟨_, hr, hcalls, hworld.trans ?_, σ, ?_, hmoment.trans ?_⟩
  · rw [hcalls]
    rfl
  · rw [hcalls, ← hlast]
    exact .iterate hvisits
  · rw [hlast]
    rfl

end NonlinearCG.Minimizer
