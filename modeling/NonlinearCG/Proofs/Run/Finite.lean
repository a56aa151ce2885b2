import Mathlib
import NonlinearCG.Proofs.LineSearch.Evidence
import NonlinearCG.Proofs.Run.TrialSteps

/-!
# Runs past values that are not finite

Once its start is accepted, a run is not stopped by a value that is not finite. The objective may be
evaluated at such points while a step is searched, but the step that is found is one at which the
search has seen a finite value, or the zero step. The run evaluates the objective once more at the
point to which the step leads, and an objective that is computed gives the finite value again. So
the only optimizer error that is left is the verdict of a line search.

This rests on two laws of the arithmetic, which say that the point of the last evaluation is the one
that the search has seen: addition is commutative, and the zero step leads nowhere.
-/

namespace NonlinearCG

/-! ## The laws -/

/-- Arithmetic in which it does not matter in which order a step is added to a point, and in which
the zero step along a direction with a finite slope leads nowhere. -/
structure Scalar.Rests (α : Type) [Scalar α] : Prop where
  add_comm (x y : α) : x + y = y + x
  along_zero {n : ℕ} (g s x : Vec α n) : Scalar.isFinite (Vec.dot g s) = true →
    Vec.along x s 0.0 = x

theorem Exact.rests {K : Type} [Field K] [LinearOrder K] [IsStrictOrderedRing K] {G : Grid K} :
    Scalar.Rests (Exact G) := by
  refine ⟨Exact.add_comm, fun g s x hfinite ↦ ?_⟩
  obtain ⟨a, rfl⟩ := Vec.allFinite_iff.mp (Vec.allFinite_of_dot hfinite).2
  rw [Exact.zero_eq, Vec.along_zero]

theorem Scalar.Rests.moved_eq_along {α : Type} [Scalar α] (hα : Scalar.Rests α) {n : ℕ}
    (x s : Vec α n) (t : α) : Vec.moved x s t = Vec.along x s t := by
  refine Vector.ext fun i hi ↦ ?_
  rw [Vec.moved, Vec.along, Vector.getElem_zipWith, Vector.getElem_zipWith, hα.add_comm]

variable {ω α : Type} [Scalar α] {n : ℕ}

theorem Strategy.search_eq_step (S : Strategy α) (f : Objective ω α n) (x s : Vec α n) (trial : α)
    (mayAccept : Bool) : S.lineSearch.search f x s trial mayAccept =
      S.step (.ofObjective f x s) trial mayAccept := by
  cases S with
  | hagerZhang | backtracking => rfl

namespace Minimizer

variable {m : Minimizer ω α} {f : Objective ω α n} {F : Vec α n → α} {g : Vec α n → Vec α n}
  {view : Vec α n → Tensor α} {x₀ : Vec α n} {σ₀ σ σ' : Session ω α} {it : Iterate α n}
  {past : List (Iterate α n)} {S : Strategy α}

/-! ## The value after a step -/

theorem GoesOn.consistent (hf : f.Computes F g) (h : m.GoesOn f view x₀ σ₀ it past σ) :
    it.Consistent F g := by
  obtain ⟨_, hvisits, -⟩ := h
  exact hvisits.consistent fun _ _ _ _ _ hboth ↦ hf.both hboth

theorem isFinite_of_run_searchStep (hα : Scalar.Rests α) (hf : f.Computes F g)
    (hm : m.lineSearch = S.lineSearch) (hit : it.Consistent F g) {r : α × Calls}
    (hrun : (m.searchStep f it it.searched it.slope).run σ = (.ok r, σ')) :
    Scalar.isFinite (F (Vec.moved it.x it.searched r.1)) = true := by
  obtain ⟨trial, mayAccept, b, b', step, hsearch, halpha, hsamples⟩ := exists_search_of_run hrun
  rw [hm, Strategy.search_eq_step] at hsearch
  rw [hα.moved_eq_along, ← halpha]
  rcases Strategy.seen_of_run (LineFunction.testifies_gives _) hsamples rfl hsearch with
    ⟨hzero, hfinite⟩ | ⟨s, hgives, hfinite, hs⟩
  · -- the zero step leads to the iterate itself, since the slope there is finite
    have hslope : Scalar.isFinite (Vec.dot it.gradient it.searched) = true := by
      rw [Iterate.searched, ← descentRestart_slope]
      exact (Bool.and_eq_true_iff.mp hfinite).2
    rw [hzero, hα.along_zero it.gradient it.searched it.x hslope, ← hit.value]
    exact hit.finite
  · rw [← hs, ← (hf.along it.x it.searched).value_of_gives hgives]
    exact hfinite

/-! ## Where errors come from -/

/-- An interruption is a breakdown, or the verdict of a line search. -/
def Interrupt.FromSearch (i : Interrupt α n) : Prop :=
  ∀ cause k calls y, i = .stopped cause k calls y → ∃ e, cause = .search e

omit [Scalar α] in
theorem fromSearch_breakdown (cause : Breakdown) :
    (.breakdown cause : Interrupt α n).FromSearch := by
  rintro _ _ _ _ ⟨⟩

omit [Scalar α] in
theorem fromSearch_interrupt (it : Iterate α n) (calls : Calls) (e : Fault α) :
    (it.interrupt calls e).FromSearch := by
  intro _ _ _ _ h
  cases e with
  | breakdown => cases h
  | search e =>
    cases h
    exact ⟨e, rfl⟩

theorem fromSearch_of_searchStep {s : Vec α n} {slope : α} {i : Interrupt α n}
    (h : (m.searchStep f it s slope).run σ = (.error i, σ')) : i.FromSearch := by
  rcases (meets_searchStep ..).of_run_error h with hpredict | ⟨q, σ₁, e, b, -, -, rfl, -⟩
  · obtain ⟨cause, b, -, rfl, -⟩ := (meets_predict ..).of_run_error hpredict
    exact fromSearch_breakdown cause
  · exact fromSearch_interrupt it q.calls e

/-- An iteration from a visited iterate is interrupted by a breakdown or by its line search. -/
theorem GoesOn.fromSearch (hα : Scalar.Rests α) (hf : f.Computes F g)
    (hm : m.lineSearch = S.lineSearch) (h : m.GoesOn f view x₀ σ₀ it past σ) {i : Interrupt α n}
    (hrun : (m.advance f view it).run σ = (.error i, σ')) : i.FromSearch := by
  cases interrupted_of_run hrun with
  | search _ _ hsearch => exact fromSearch_of_searchStep hsearch
  | evaluation _ _ hevaluate =>
    obtain ⟨cause, _, -, rfl, -⟩ := (meets_evaluate _ _).of_run_error hevaluate
    exact fromSearch_breakdown cause
  | value hfinds hx hevaluate hinfinite =>
    -- what the objective computes at the new point is finite
    obtain ⟨_, _, -, hsearch⟩ := hfinds
    have hvalue := isFinite_of_run_searchStep hα hf hm (h.consistent hf) hsearch
    obtain ⟨_, _, hboth⟩ := exists_both_of_run_evaluate hevaluate
    rw [(hf.both hboth).1, hx] at hinfinite
    cases hvalue.symm.trans hinfinite
  | verdict => exact fromSearch_breakdown _
  | preconditioner _ _ _ hprepare =>
    obtain ⟨cause, rfl, -⟩ := (meets_prepare _ m _).of_run_error hprepare
    exact fromSearch_breakdown cause

/-! ## Whole runs -/

/-- **Values that are not finite do not stop a run.** In any arithmetic that obeys the two laws,
with either line search and whatever its parameters are:

* a search returns the zero step, or a step at which it has evaluated the function itself, with a
  finite value;
* after a search from an iterate, an objective that is computed is finite at the new point;
* so no iteration is interrupted by a value that is not finite;
* an optimizer error of a run whose start was accepted is the verdict of a line search. -/
theorem minimizeFrom_stays_finite (hα : Scalar.Rests α) (S : Strategy α) :
    (∀ (ω : Type) (φ : LineFunction ω α) (seen : ω → List α) (V D : α → α), φ.Records seen →
      φ.Computes V D → ∀ (start : Sample α) (b₀ b : Bench ω α) (trial : α) (mayAccept : Bool)
      (r : Step α), start.step = 0.0 → b₀.cache.samples = #[start] → seen b₀.world = [] →
      (S.step φ trial mayAccept).run b₀ = (.ok r, b) →
      r.alpha = 0.0 ∨ r.alpha ∈ seen b.world ∧ Scalar.isFinite (V r.alpha) = true) ∧
    ∀ (ω : Type) (n : ℕ) (f : Objective ω α n) (F : Vec α n → α) (g : Vec α n → Vec α n),
      f.Computes F g → ∀ (m : Minimizer ω α), m.lineSearch = S.lineSearch →
      ∀ (view : Vec α n → Tensor α) (x₀ : Vec α n) (σ₀ : Session ω α),
      (∀ it past σ r σ' σ'', m.GoesOn f view x₀ σ₀ it past σ →
        (m.searchStep f it it.searched it.slope).run σ' = (.ok r, σ'') →
        Scalar.isFinite (F (Vec.moved it.x it.searched r.1)) = true) ∧
      (∀ it past σ σ' v k k' calls y, m.GoesOn f view x₀ σ₀ it past σ →
        (m.advance f view it).run σ ≠ (.error (.stopped (.stepValue v k) k' calls y), σ')) ∧
      ∀ it σ e, (m.start f view x₀).run (m.opened σ₀) = (.ok it, σ) →
        (m.minimizeFrom f view x₀ σ₀).1.outcome = .error (.optimizer e) →
        ∃ cause, e.cause = .search cause := by
  constructor
  · intro ω φ seen V D hrecords hφ start b₀ b trial mayAccept r hzero hstart _ hrun
    rcases Strategy.seen_of_run hrecords.testifies hstart hzero hrun with
      ⟨hreturned, -⟩ | ⟨s, ⟨hseen, hgives⟩, hfinite, hstep⟩
    · exact Or.inl hreturned
    · rw [hφ.value_of_gives hgives, hstep] at hfinite
      exact Or.inr ⟨hstep ▸ hseen, hfinite⟩
  · intro ω n f F g hf m hm view x₀ σ₀
    refine ⟨fun it past σ r σ' σ'' h hrun ↦ ?_, fun it past σ σ' v k k' calls y h hrun ↦ ?_,
      fun it σ e hstart h ↦ ?_⟩
    · exact isFinite_of_run_searchStep hα hf hm (h.consistent hf) hrun
    · obtain ⟨e, he⟩ := h.fromSearch hα hf hm hrun _ _ _ _ rfl
      cases he
    · obtain ⟨k, calls, y, σ', hrun, -⟩ := exists_interrupt_of_error h
      obtain ⟨it', past, σ₁, σ₂, hgoes, hadvance⟩ := exists_interrupted hstart hrun
      exact hgoes.fromSearch hα hf hm hadvance _ _ _ _ rfl

def wallObjective : Objective Unit (Exact Grid.rational) 1 :=
  .ofFunctions (fun x ↦ if x.only < 0.25 then .top else x.only) fun _ ↦ Vector.replicate 1 1.0

/-- The error of the optimizer that stopped a run. -/
def optimizerError? {α : Type} : Except (RunError α) (Results α) → Option (OptimizerError α)
  | .error (.optimizer e) => some e
  | _ => none

theorem exists_error_of_map_optimizerError? {α B : Type} {r : Except (RunError α) (Results α)}
    {f : OptimizerError α → B} {b : B} (h : (optimizerError? r).map f = some b) :
    ∃ e, r = .error (.optimizer e) ∧ f e = b := by
  unfold optimizerError? at h
  split at h
  · exact ⟨_, rfl, Option.some.inj h⟩
  · cases h

/-- A search that tries to get past the wall again and again returns the step to the wall. A run
that has come to its wall stops for want of an admissible step there, not because of a value. -/
theorem minimizeFrom_stays_finite_wall :
    let start : Sample (Exact Grid.rational) := ⟨.num 0, .num 0, .num (-1)⟩
    let b₀ : Bench (List (Exact Grid.rational)) (Exact Grid.rational) :=
      { world := [], cache := .seeded start }
    let σ₀ : Session Unit (Exact Grid.rational) := { world := (), preconditioner := .identity }
    (∃ r b, (HagerZhang.default.step (.recorder wallValue fun _ ↦ .num (-1)) (.num 4) true).run b₀ =
        (.ok r, b) ∧ r.alpha = .num 1 ∧
      .num 1 ∈ b.world ∧ Scalar.isFinite (wallValue (.num 1)) = true) ∧
    ∃ e cause, (defaultMinimizer.minimizeFrom wallObjective (⟨[1], ·⟩) #v[.num 1] σ₀).1.outcome =
      .error (.optimizer e) ∧ e.cause = .search cause := by
  intro start b₀ σ₀
  obtain ⟨hsearches, hruns⟩ := minimizeFrom_stays_finite (Exact.rests (G := Grid.rational))
    (.hagerZhang HagerZhang.default)
  constructor
  · have hreturns : passes
        ((HagerZhang.default.step (.recorder wallValue fun _ ↦ .num (-1)) (.num 4) true).run b₀)
        (fun r _ ↦ r.alpha = .num 1) = true := by
      decide +kernel
    obtain ⟨r, b, hrun, hstep⟩ := exists_ok_of_passes hreturns
    have hstep := of_decide_eq_true hstep
    have hseen := hsearches _ _ id _ _ (LineFunction.recorder_records _ _)
      (LineFunction.recorder_computes _ _) start b₀ b (.num 4) true _ (by decide +kernel) rfl rfl
      hrun
    rw [hstep] at hseen
    refine ⟨r, b, hrun, hstep, hseen.resolve_left ?_⟩
    decide +kernel
  · have hstarts : passes ((defaultMinimizer.start wallObjective (⟨[1], ·⟩) #v[.num 1]).run
        (defaultMinimizer.opened σ₀)) (fun _ _ ↦ true) = true := by
      decide +kernel
    have hstops : (optimizerError? (defaultMinimizer.minimizeFrom wallObjective (⟨[1], ·⟩)
        #v[.num 1] σ₀).1.outcome).map (fun e ↦ e.progress.iteration) = some 2 := by
      decide +kernel
    obtain ⟨it, σ, hstart, -⟩ := exists_ok_of_passes hstarts
    obtain ⟨e, houtcome, -⟩ := exists_error_of_map_optimizerError? hstops
    obtain ⟨-, -, herror⟩ := hruns _ _ wallObjective _ _
      (Objective.computes_ofFunctions _ _) defaultMinimizer rfl (⟨[1], ·⟩) #v[.num 1] σ₀
    obtain ⟨cause, hcause⟩ := herror it σ e hstart houtcome
    exact ⟨e, cause, houtcome, hcause⟩

end Minimizer

end NonlinearCG
