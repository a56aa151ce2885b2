import Mathlib
import NonlinearCG.Proofs.LineSearch.Counting
import NonlinearCG.Proofs.LineSearch.Ray

/-!
# Counted evaluations

A search reports how many evaluations it made. Whether it is right can be seen from the world of
the objective, if that keeps a tally of its own: `Objective.Tallies`. Any objective can be made to
do so, and the tally passes to its rays. A search evaluates nothing but the function along its ray,
so the world counts what the bench has seen (`Course.exists_made`), and what the search adds up and
returns is that number (`Search.Counts`). Where a search gives up, its evaluations are in the world
alone.
-/

namespace NonlinearCG

variable {ω α A : Type} {n : ℕ}

/-! ## Objectives that tally -/

/-- The world counts the evaluations of an objective that return. -/
structure Objective.Tallies (f : Objective ω α n) (tally : ω → Calls) : Prop where
  value {x : Vec α n} {v : α} {w w' : ω} :
    (f.value x).run w = (.ok v, w') → tally w' = tally w + .ofValue
  gradient {x d : Vec α n} {w w' : ω} :
    (f.gradient x).run w = (.ok d, w') → tally w' = tally w + ⟨0, 1⟩
  combined {c : Vec α n → Eval ω (α × Vec α n)} {x : Vec α n} {r : α × Vec α n} {w w' : ω} :
    f.combined = some c → (c x).run w = (.ok r, w') → tally w' = tally w + .ofBoth

namespace Objective

variable {f : Objective ω α n} {tally : ω → Calls}

theorem Tallies.both (hf : f.Tallies tally) {x : Vec α n} {r : α × Vec α n} {w w' : ω}
    (h : (f.both x).run w = (.ok r, w')) : tally w' = tally w + .ofBoth := by
  rcases Objective.run_both_eq_ok h with ⟨c, hcombined, hrun⟩ | ⟨w₁, hgradient, hvalue⟩
  · exact hf.combined hcombined hrun
  · rw [hf.value hvalue, hf.gradient hgradient, add_assoc]
    rfl

/-- An evaluation on a world that comes with a count of the evaluations. -/
def counting (cost : Calls) (act : Eval ω A) : Eval (ω × Calls) A := do
  let (w, calls) ← get
  let (result, w') := act.run w
  set (w', calls + cost)
  Eval.ofExcept result

/-- The objective on a world that comes with a count of its evaluations. -/
def counted (f : Objective ω α n) : Objective (ω × Calls) α n where
  value x := counting .ofValue (f.value x)
  gradient x := counting ⟨0, 1⟩ (f.gradient x)
  combined := f.combined.map fun c x ↦ counting .ofBoth (c x)

theorem run_counting_eq_ok {cost : Calls} {act : Eval ω A} {a : A} {w w' : ω × Calls}
    (h : (counting cost act).run w = (.ok a, w')) : w'.2 = w.2 + cost := by
  rw [counting, run_bind_ok (run_get _)] at h
  rcases hact : act.run w.1 with ⟨cause | a', w₁⟩
  · simp only [hact] at h
    cases h
  · simp only [hact] at h
    cases h
    rfl

theorem counted_tallies (f : Objective ω α n) : f.counted.Tallies Prod.snd where
  value h := run_counting_eq_ok h
  gradient h := run_counting_eq_ok h
  combined hc h := by
    obtain ⟨c', -, rfl⟩ := Option.map_eq_some_iff.mp hc
    exact run_counting_eq_ok h

end Objective

/-- The world counts the evaluations along a ray that return. -/
structure LineFunction.Tallies (φ : LineFunction ω α) (tally : ω → Calls) : Prop where
  value {t v : α} {w w' : ω} : (φ.value t).run w = (.ok v, w') → tally w' = tally w + .ofValue
  both {t : α} {r : α × α} {w w' : ω} :
    (φ.both t).run w = (.ok r, w') → tally w' = tally w + .ofBoth

section Tallies

variable [Scalar α] {tally : ω → Calls}

theorem Objective.Tallies.along {f : Objective ω α n} (hf : f.Tallies tally) (x s : Vec α n) :
    (LineFunction.ofObjective f x s).Tallies fun w ↦ tally w.world where
  value h := hf.value (LineFunction.run_value_ofObjective h)
  both h := by
    obtain ⟨_, hrun, -⟩ := LineFunction.run_both_ofObjective h
    exact hf.both hrun

variable {φ : LineFunction ω α}

/-- The count of the world and that of the bench advance together. -/
theorem Course.exists_made (hφ : φ.Tallies tally) {b₀ b : Bench ω α} (h : Course φ b₀ b) :
    ∃ more, b.made = b₀.made + more ∧ tally b.world = tally b₀.world + more := by
  induction h with
  | start => exact ⟨0, (add_zero _).symm, (add_zero _).symm⟩
  | value _ hrun ih =>
    obtain ⟨more, hmade, htally⟩ := ih
    refine ⟨more + .ofValue, ?_, ?_⟩
    · rw [hmade, add_assoc]
    · rw [hφ.value hrun, htally, add_assoc]
  | both _ hrun ih =>
    obtain ⟨more, hmade, htally⟩ := ih
    refine ⟨more + .ofBoth, ?_, ?_⟩
    · rw [hmade, add_assoc]
    · rw [hφ.both hrun, htally, add_assoc]
  | refuse _ ih | keep _ _ ih | report _ _ ih => exact ih

/-- A part of a search returns the number of evaluations that the world counts meanwhile. -/
def Search.Accounts (tally : ω → Calls) (cost : A → Calls) (act : Search ω α A) : Prop :=
  ∀ b, match act.run b with
    | (.ok a, b') => tally b'.world = tally b.world + cost a
    | (.error (.search _), b') => ∃ lost, tally b'.world = tally b.world + lost
    | (.error (.breakdown _), _) => True

namespace Search

variable {cost : A → Calls} {act : Search ω α A} {b b' : Bench ω α}

theorem KeepsTo.accounts {Q : A → Prop} (h : KeepsTo φ act Q) (hcounts : Counts act 0 cost)
    (hφ : φ.Tallies tally) : Accounts tally cost act := by
  intro b
  have hb := h b
  rcases hact : act.run b with ⟨(cause | e) | a, b'⟩
  · trivial
  · rw [hact] at hb
    obtain ⟨lost, -, htally⟩ := hb.exists_made hφ
    exact ⟨lost, htally⟩
  · rw [hact] at hb
    obtain ⟨more, hmade, htally⟩ := hb.1.exists_made hφ
    have hcost : cost a = more := by
      refine add_right_cancel (b := b.made) ?_
      calc cost a + b.made = 0 + b'.made := hcounts b a b' hact
        _ = b.made + more := by rw [zero_add, hmade]
        _ = more + b.made := add_comm ..
    exact htally.trans (by rw [hcost])

omit [Scalar α]

theorem Accounts.of_ok (h : Accounts tally cost act) {a : A} (hrun : act.run b = (.ok a, b')) :
    tally b'.world = tally b.world + cost a := by
  have hb := h b
  rwa [hrun] at hb

theorem Accounts.of_search (h : Accounts tally cost act) {e : SearchError α}
    (hrun : act.run b = (.error (.search e), b')) :
    ∃ lost, tally b'.world = tally b.world + lost := by
  have hb := h b
  rwa [hrun] at hb

end Search

/-- The searches of a strategy account for their evaluations. -/
def LineSearch.Accounts (L : LineSearch ω α) : Prop :=
  ∀ {n : ℕ} {f : Objective ω α n} {tally : ω → Calls}, f.Tallies tally →
    ∀ (x s : Vec α n) (trial : α) (mayAccept : Bool),
      (L.search f x s trial mayAccept).Accounts (fun w ↦ tally w.world) Step.calls

theorem Strategy.accounts (q : Strategy α) : (q.lineSearch : LineSearch ω α).Accounts := by
  intro n f tally hf x s trial mayAccept
  have hray := hf.along x s
  cases q with
  | hagerZhang p =>
    have hcounts := HagerZhang.counts_step (.ofObjective f x s) p trial mayAccept
    exact (p.keepsTo_step trial mayAccept).accounts hcounts hray
  | backtracking p =>
    have hcounts := Backtracking.counts_step (.ofObjective f x s) p trial
    exact (p.keepsTo_step trial).accounts hcounts hray

end Tallies

end NonlinearCG
