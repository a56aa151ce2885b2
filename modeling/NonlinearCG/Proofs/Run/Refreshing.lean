import Mathlib
import NonlinearCG.Proofs.LineSearch.Ray
import NonlinearCG.Proofs.Run.History

/-!
# When the preconditioner is refreshed

The preconditioner is refreshed by a function of the caller, whose calls can be seen from the world
if that keeps a list of them: `Minimizer.Records`. The rest of a run has to leave the list alone. An
objective that does so, `Objective.Spares`, is all that is needed for the line searches of this
library, since they do nothing to the world but evaluate it.

The list then grows by the points of the run, one with each iterate (`Visits.points_eq`), and the
operator with which the direction of an iterate is computed comes from the call at this iterate
(`Visits.exists_refreshed`).
-/

namespace NonlinearCG

variable {ω α β : Type} {n : ℕ}

/-! ## Parts of the world that are left alone -/

/-- The evaluations of an objective leave a part of the world alone. -/
structure Objective.Spares (f : Objective ω α n) (part : ω → β) : Prop where
  value {x : Vec α n} {v : α} {w w' : ω} :
    (f.value x).run w = (.ok v, w') → part w' = part w
  gradient {x d : Vec α n} {w w' : ω} :
    (f.gradient x).run w = (.ok d, w') → part w' = part w
  combined {c : Vec α n → Eval ω (α × Vec α n)} {x : Vec α n} {r : α × Vec α n} {w w' : ω} :
    f.combined = some c → (c x).run w = (.ok r, w') → part w' = part w

theorem Objective.Spares.both {f : Objective ω α n} {part : ω → β} (hf : f.Spares part)
    {x : Vec α n} {r : α × Vec α n} {w w' : ω} (h : (f.both x).run w = (.ok r, w')) :
    part w' = part w := by
  rcases Objective.run_both_eq_ok h with ⟨c, hcombined, hrun⟩ | ⟨w₁, hgradient, hvalue⟩
  · exact hf.combined hcombined hrun
  · exact (hf.value hvalue).trans (hf.gradient hgradient)

theorem Objective.ofFunctions_spares (F : Vec α n → α) (g : Vec α n → Vec α n) (part : ω → β) :
    (Objective.ofFunctions F g : Objective ω α n).Spares part where
  value h := by
    cases h
    rfl
  gradient h := by
    cases h
    rfl
  combined h := by cases h

/-- The searches of a line search that return leave alone what their evaluations leave alone. -/
def LineSearch.Spares (L : LineSearch ω α) : Prop :=
  ∀ {β : Type} {n : ℕ} {f : Objective ω α n} {part : ω → β}, f.Spares part →
    ∀ {x s : Vec α n} {trial : α} {mayAccept : Bool} {b b' : Bench (Trial ω α n) α} {r : Step α},
      (L.search f x s trial mayAccept).run b = (.ok r, b') →
      part b'.world.world = part b.world.world

section Search

variable [Scalar α] {f : Objective ω α n} {part : ω → β} {x s : Vec α n}

theorem Course.part_eq (hf : f.Spares part) {b b' : Bench (Trial ω α n) α}
    (h : Course (.ofObjective f x s) b b') : part b'.world.world = part b.world.world := by
  induction h with
  | start => rfl
  | value _ hrun ih => exact (hf.value (LineFunction.run_value_ofObjective hrun)).trans ih
  | both _ hrun ih =>
    obtain ⟨_, hboth, -⟩ := LineFunction.run_both_ofObjective hrun
    exact (hf.both hboth).trans ih
  | refuse _ ih | keep _ _ ih | report _ _ ih => exact ih

theorem Search.KeepsTo.part_eq {A : Type} {Q : A → Prop} {act : Search (Trial ω α n) α A}
    (h : KeepsTo (.ofObjective f x s) act Q) (hf : f.Spares part)
    {b b' : Bench (Trial ω α n) α} {a : A} (hrun : act.run b = (.ok a, b')) :
    part b'.world.world = part b.world.world :=
  (h.course_of_ok hrun).1.part_eq hf

/-- The line searches of this library do nothing to the world but evaluate it. -/
theorem Strategy.spares (q : Strategy α) : (q.lineSearch : LineSearch ω α).Spares := by
  intro β n f part hf x s trial mayAccept b b' r hrun
  cases q with
  | hagerZhang p => exact (p.keepsTo_step trial mayAccept).part_eq hf hrun
  | backtracking p => exact (p.keepsTo_step trial).part_eq hf hrun

end Search

namespace Minimizer

/-- The world keeps the points at which the preconditioner was refreshed, and nothing else in a run
touches this list. -/
structure Records (m : Minimizer ω α) (f : Objective ω α n) (points : ω → List (Array α)) :
    Prop where
  refresh {P P' : Preconditioner α} {x : Array α} {w w' : ω} :
    (m.refresh P x).run w = (.ok P', w') → points w' = points w ++ [x]
  objective : f.Spares points
  lineSearch : m.lineSearch.Spares

/-- An operator comes from refreshing the preconditioner at a point, after it had been refreshed at
other points. -/
def Refreshed (m : Minimizer ω α) (points : ω → List (Array α)) (before : List (Array α))
    (x : Vec α n) (P : Operator α n) : Prop :=
  ∃ σ σ', (m.prepare x).run σ = (.ok P, σ') ∧ points σ.world = before

variable [Scalar α] {m : Minimizer ω α} {f : Objective ω α n} {points : ω → List (Array α)}
  {view : Vec α n → Tensor α} {x : Vec α n} {σ₀ σ σ' : Session ω α} {it it' : Iterate α n}
  {past : List (Iterate α n)} {verdict : Verdict}

/-! ## One iteration -/

theorem points_of_searchStep (hm : m.Records f points) {s : Vec α n} {slope : α} {r : α × Calls}
    (h : (m.searchStep f it s slope).run σ = (.ok r, σ')) : points σ'.world = points σ.world := by
  obtain ⟨q, σ₁, step, b', hpredict, hsearch, -, rfl⟩ := (meets_searchStep ..).of_run_ok h
  obtain ⟨calls, b, hpropose, -, rfl⟩ := (meets_predict ..).of_run_ok hpredict
  have hproposed := (TrialStep.keepsTo_propose .default it.alpha).part_eq hm.objective hpropose
  have hsearched := hm.lineSearch hm.objective hsearch
  exact hsearched.trans hproposed

theorem Finds.points_eq (hm : m.Records f points) {r : α × Calls} (h : m.Finds f it σ r σ') :
    points σ'.world = points σ.world := by
  obtain ⟨-, σ₁, hannounce, hsearch⟩ := h
  have hsearched := points_of_searchStep hm hsearch
  obtain ⟨log, rfl⟩ := exists_log_of_announce hannounce
  exact hsearched

omit [Scalar α] in
theorem points_of_evaluate (hm : m.Records f points) {r : α × Vec α n}
    (h : (Run.evaluate (f.both x) : Run ω α n _).run σ = (.ok r, σ')) :
    points σ'.world = points σ.world := by
  obtain ⟨w, hboth, rfl⟩ := (meets_evaluate σ _).of_run_ok h
  exact hm.objective.both hboth

omit [Scalar α] in
theorem points_of_prepare (hm : m.Records f points) {P : Operator α n}
    (h : (m.prepare x).run σ = (.ok P, σ')) :
    points σ'.world = points σ.world ++ [x.toArray] := by
  obtain ⟨_, w, hrefresh, -, rfl⟩ := (meets_prepare σ m x).of_run_ok h
  exact hm.refresh hrefresh

/-- With an iteration that moves, the preconditioner is refreshed once, at the new iterate. -/
theorem Advances.refreshed (hm : m.Records f points)
    (h : m.Advances f view it σ (.moved it' verdict) σ') :
    points σ'.world = points σ.world ++ [it'.x.toArray] ∧
      ∃ P, m.Refreshed points (points σ.world) it'.x P ∧
        it'.direction = (updateDirection P m.options.eta
          (descentRestart it.gradient it.direction).direction
          it'.gradient it.gradient).direction := by
  cases h with
  | moved hfinds _ _ _ hevaluate _ _ hprepare hdirection =>
    have hbefore := (points_of_evaluate hm hevaluate).trans (hfinds.points_eq hm)
    rw [notified_world, points_of_prepare hm hprepare, hbefore]
    exact ⟨rfl, _, ⟨_, _, hprepare, hbefore⟩, hdirection⟩

theorem Advances.points_eq_of_stuck (points : ω → List (Array α))
    (h : m.Advances f view it σ .stuck σ') : points σ'.world = points σ.world := by
  cases h with
  | stuck _ hannounce =>
    obtain ⟨log, rfl⟩ := exists_log_of_announce hannounce
    rfl

theorem Begins.refreshed (hm : m.Records f points) (h : m.Begins f view x σ it σ') :
    points σ'.world = points σ.world ++ [it.x.toArray] ∧
      ∃ P, m.Refreshed points (points σ.world) it.x P ∧
        it.direction = Vec.neg (P.forward it.gradient) := by
  cases h with
  | intro _ _ hpoint hevaluate _ _ _ hprepare hdirection =>
    have hevaluated := points_of_evaluate hm hevaluate
    rw [points_of_prepare hm hprepare, notified_world, hevaluated, hpoint]
    exact ⟨rfl, _, ⟨_, _, hprepare, by rw [notified_world, hevaluated]⟩, hdirection⟩

/-! ## The whole run -/

/-- The direction of an iterate, from an operator, the iterate itself and the one before it. -/
inductive Directed (m : Minimizer ω α) (P : Operator α n) : List (Iterate α n) → Prop
  | start {it : Iterate α n} :
      it.direction = Vec.neg (P.forward it.gradient) → Directed m P [it]
  | move {it it' : Iterate α n} {past : List (Iterate α n)} :
      it'.direction = (updateDirection P m.options.eta
        (descentRestart it.gradient it.direction).direction it'.gradient it.gradient).direction →
      Directed m P (it' :: it :: past)

/-- The points of a list of iterates, the latest of which comes first, in their order. -/
def route (path : List (Iterate α n)) : List (Array α) := path.reverse.map fun it ↦ it.x.toArray

omit [Scalar α] in
theorem route_cons (it : Iterate α n) (past : List (Iterate α n)) :
    route (it :: past) = route past ++ [it.x.toArray] := by
  simp [route]

/-- When a run comes to an iterate, the preconditioner has been refreshed once at each iterate so
far, in their order. The operator from which the direction of the iterate is computed comes from the
last one of these calls. -/
theorem Visits.refreshed (hm : m.Records f points)
    (h : Visits m f view x σ₀ (it :: past) verdict σ) :
    points σ.world = points σ₀.world ++ route (it :: past) ∧
      ∃ P, m.Refreshed points (points σ₀.world ++ route past) it.x P ∧
        m.Directed P (it :: past) := by
  induction h using Visits.head_induction with
  | start hstart =>
    obtain ⟨hpoints, P, hrefreshed, hdirection⟩ := (begins_of_run hstart).refreshed hm
    have hopened : points (m.opened σ₀).world =
        points σ₀.world ++ route ([] : List (Iterate α n)) := (List.append_nil _).symm
    rw [hopened] at hpoints hrefreshed
    rw [List.append_assoc, ← route_cons] at hpoints
    exact ⟨hpoints, P, hrefreshed, .start hdirection⟩
  | move _ _ _ hrun ih =>
    obtain ⟨hpoints, P, hrefreshed, hdirection⟩ := (advances_of_run hrun).refreshed hm
    rw [ih.1] at hpoints hrefreshed
    rw [List.append_assoc, ← route_cons] at hpoints
    exact ⟨hpoints, P, hrefreshed, .move hdirection⟩

theorem points_of_run (hm : m.Records f points) {e : Ending α n}
    (hends : EndsWith m it verdict e) (h : Visits m f view x σ₀ (it :: past) verdict σ)
    (hrun : (m.run f view x).run (m.opened σ₀) = (.ok e, σ')) :
    points σ'.world = points σ₀.world ++ route (it :: past) := by
  obtain ⟨hpoints, -⟩ := h.refreshed hm
  obtain ⟨σ₁, hrun', hlast⟩ := h.run_of_endsWith hends
  cases hrun.symm.trans hrun'
  rcases hlast with rfl | hstuck
  · exact hpoints
  · exact ((advances_of_run hstuck).points_eq_of_stuck points).trans hpoints

end Minimizer

end NonlinearCG
