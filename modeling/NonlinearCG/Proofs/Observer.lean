import Mathlib
import NonlinearCG.Observer

/-!
# What the leaves of a tree of observers see

A run talks to a list of trees of observers, but only the leaves remember anything. Two tests stand
between a run and a leaf: a run passes over a state for which none of its direct observers is due,
and an observer with others below it passes a state on to those of them that are due. Neither
changes what a leaf sees. A leaf with interval `m` is shown those of the states whose iteration is
divisible by `m`, wherever it stands in the tree (`Observer.observeDue_eq_mapAll`), and a state that
is passed over was due at no leaf at all (`Observer.observeDue_of_not_due`).

Showing a state and finalizing do the same to all leaves and leave the shape of the tree alone;
`Observer.mapAll` is the general operation of this kind.
-/

namespace NonlinearCG

variable {α : Type}

/-! ## Leaves -/

/-- An observer without others below it. -/
structure Leaf (α : Type) where
  medium : Medium
  interval : ℕ
  seen : Array (State α)
  finished : ℕ

namespace Leaf

/-- The leaf is due at an iteration. -/
def dueAt (iteration : ℤ) (l : Leaf α) : Bool := iteration % l.interval == 0

/-- The leaf after a run has come to some states. It was shown those at which it was due. -/
def shown (states : List (State α)) (l : Leaf α) : Leaf α :=
  { l with seen := l.seen ++ (states.filter fun s ↦ l.dueAt s.iteration).toArray }

/-- The leaf at the end of a run. -/
def finish (l : Leaf α) : Leaf α := { l with finished := l.finished + 1 }

@[simp] theorem shown_shown (l : Leaf α) (states states' : List (State α)) :
    (l.shown states).shown states' = l.shown (states ++ states') := by
  simp [shown, dueAt]

theorem shown_of_due {l : Leaf α} {s : State α} (h : l.dueAt s.iteration = true) :
    l.shown [s] = { l with seen := l.seen.push s } := by
  simp [shown, h]

theorem shown_of_not_due {l : Leaf α} {s : State α} (h : l.dueAt s.iteration = false) :
    l.shown [s] = l := by
  simp [shown, h]

end Leaf

/-! ## Trees -/

namespace Observer

/-- A leaf as an observer. -/
def ofLeaf (l : Leaf α) : Observer α := single l.medium l.interval l.seen l.finished

mutual

/-- The observer with all its leaves changed. -/
def mapLeaves (g : Leaf α → Leaf α) : Observer α → Observer α
  | single medium m states finished => ofLeaf (g ⟨medium, m, states, finished⟩)
  | composite children => composite (mapAll g children)

/-- Several observers with all their leaves changed. -/
def mapAll (g : Leaf α → Leaf α) : List (Observer α) → List (Observer α)
  | [] => []
  | o :: os => mapLeaves g o :: mapAll g os

end

theorem mapAll_eq_map (g : Leaf α → Leaf α) (os : List (Observer α)) :
    mapAll g os = os.map (mapLeaves g) := by
  induction os with
  | nil => rfl
  | cons o os ih => rw [mapAll, ih, List.map_cons]

mutual

theorem mapLeaves_id : (o : Observer α) → mapLeaves id o = o
  | single .. => rfl
  | composite children => congrArg composite (mapAll_id children)

theorem mapAll_id : (os : List (Observer α)) → mapAll id os = os
  | [] => rfl
  | o :: os => congrArg₂ List.cons (mapLeaves_id o) (mapAll_id os)

end

mutual

theorem mapLeaves_mapLeaves (g h : Leaf α → Leaf α) :
    (o : Observer α) → mapLeaves g (mapLeaves h o) = mapLeaves (g ∘ h) o
  | single .. => rfl
  | composite children => congrArg composite (mapAll_mapAll g h children)

theorem mapAll_mapAll (g h : Leaf α → Leaf α) :
    (os : List (Observer α)) → mapAll g (mapAll h os) = mapAll (g ∘ h) os
  | [] => rfl
  | o :: os => congrArg₂ List.cons (mapLeaves_mapLeaves g h o) (mapAll_mapAll g h os)

end

/-! ## Showing a state -/

theorem dueAt_composite (iteration : ℤ) (children : List (Observer α)) :
    (composite children).dueAt iteration = true := by
  simp [dueAt, interval]

mutual

theorem observe_eq_mapLeaves (s : State α) : (o : Observer α) →
    (if o.dueAt s.iteration then observe s o else o) = mapLeaves (.shown [s]) o
  | single medium m states finished => by
    by_cases hdue : (Leaf.mk medium m states finished).dueAt s.iteration = true
    · rw [mapLeaves, Leaf.shown_of_due hdue]
      exact if_pos hdue
    · rw [mapLeaves, Leaf.shown_of_not_due (Bool.eq_false_iff.mpr hdue)]
      exact if_neg hdue
  | composite children => by
    rw [if_pos (dueAt_composite _ children), observe, mapLeaves, observeDue_eq_mapAll s children]

/-- Each leaf is shown a state at which it is due, wherever it stands. -/
theorem observeDue_eq_mapAll (s : State α) :
    (os : List (Observer α)) → observeDue s os = mapAll (.shown [s]) os
  | [] => rfl
  | o :: os => by
    rw [observeDue, mapAll, observe_eq_mapLeaves s o, observeDue_eq_mapAll s os]

end

theorem observeDue_of_not_due {s : State α} {os : List (Observer α)}
    (h : os.any (dueAt s.iteration) = false) : observeDue s os = os := by
  induction os with
  | nil => rfl
  | cons o os ih =>
    rw [List.any_cons, Bool.or_eq_false_iff] at h
    rw [observeDue, ih h.2, h.1]
    simp

mutual

theorem finalize_eq_mapLeaves : (o : Observer α) → finalize o = mapLeaves Leaf.finish o
  | single .. => rfl
  | composite children => congrArg composite (finalizeAll_eq_mapAll children)

theorem finalizeAll_eq_mapAll : (os : List (Observer α)) → finalizeAll os = mapAll Leaf.finish os
  | [] => rfl
  | o :: os => congrArg₂ List.cons (finalize_eq_mapLeaves o) (finalizeAll_eq_mapAll os)

end

end Observer

/-! ## The iterations that a leaf sees -/

theorem filter_range_dvd (m K : ℕ) :
    ((List.range (K + 1)).filter fun k ↦ k % m == 0) =
      (List.range (K / m + 1)).map fun i ↦ i * m := by
  induction K with
  | zero =>
    rw [Nat.zero_div]
    simp
  | succ K ih =>
    rw [List.range_succ, List.filter_append, ih, Nat.succ_div]
    by_cases hdvd : m ∣ K + 1
    · have hmultiple : (K / m + 1) * m = K + 1 := by
        have hdiv := Nat.succ_div_of_dvd hdvd
        rw [← hdiv, Nat.div_mul_cancel hdvd]
      rw [if_pos hdvd, List.range_succ (n := K / m + 1), List.map_append, List.map_singleton,
        hmultiple]
      simp [Nat.mod_eq_zero_of_dvd hdvd]
    · rw [if_neg hdvd]
      have hmod : (K + 1) % m ≠ 0 := fun h ↦ hdvd (Nat.dvd_of_mod_eq_zero h)
      simp [hmod]

/-- Of the states of the iterations up to `K`, a leaf with interval `m` is shown those of the
iterations `0`, `m`, `2 m` and so on. -/
theorem Leaf.iterations_of_due (l : Leaf α) {states : List (State α)} {K : ℕ}
    (hstates : states.map State.iteration = (List.range (K + 1)).map Nat.cast) :
    (states.filter fun s ↦ l.dueAt s.iteration).map State.iteration =
      (List.range (K / l.interval + 1)).map fun i ↦ ((i * l.interval : ℕ) : ℤ) := by
  have hdue : (fun s : State α ↦ l.dueAt s.iteration) =
      (fun k : ℤ ↦ l.dueAt k) ∘ State.iteration := rfl
  have hcast : (fun k : ℤ ↦ l.dueAt k) ∘ (Nat.cast : ℕ → ℤ) = fun k ↦ k % l.interval == 0 := by
    funext k
    rw [Function.comp, Leaf.dueAt, Bool.eq_iff_iff, beq_iff_eq, beq_iff_eq]
    norm_cast
  rw [hdue, ← List.filter_map, hstates, List.filter_map, hcast, filter_range_dvd, List.map_map]
  rfl

end NonlinearCG
