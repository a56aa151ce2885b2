import NonlinearCG.Tensor

/-!
# Observers

A run can be watched. After each iteration, and before the first, it shows its state to the
observers that are due: an observer with interval `m` is due at the iterations divisible by `m`.
Observers form trees, whose inner nodes are due always and pass a state on to those below them that
are due.

An observer only remembers what it was shown, so watching a run has no influence on it.
-/

namespace NonlinearCG

/-! ## States -/

/-- An entry of the extended trace. -/
inductive Datum (α : Type) where
  | number (x : α)
  | array (t : Tensor α)
  | integer (k : Int)
  | flag (b : Bool)
  | text (s : String)
  | absent

/-- What a run shows after an iteration. -/
structure State (α : Type) where
  iteration : Int
  value : α
  /-- The largest absolute component of the gradient. -/
  gradnorm : α
  /-- The entries of the extended trace. -/
  metadata : List (String × Datum α) := []

/-! ## Observers -/

/-- What an observer does with the states it was shown. -/
inductive Medium where
  /-- Keeps them. -/
  | trace
  /-- Prints them in a table. -/
  | print
  deriving DecidableEq, Repr

/-- An observer of runs, with what it has been shown so far. -/
inductive Observer (α : Type) where
  | single (medium : Medium) (interval : Nat) (seen : Array (State α)) (finished : Nat)
  | composite (children : List (Observer α))

namespace Observer

variable {α : Type}

/-- The observer with an interval that has not been shown anything. -/
def fresh (medium : Medium) (interval : Nat) : Observer α := single medium interval #[] 0

/-- The observer with an interval, which has to be at least 1. -/
def ofInterval? (medium : Medium) (interval : Int) : Option (Observer α) :=
  if interval < 1 then none else some (fresh medium interval.toNat)

def interval : Observer α → Nat
  | single _ m _ _ => m
  | composite _ => 1

def dueAt (iteration : Int) (o : Observer α) : Bool := iteration % o.interval == 0

def seen : Observer α → Array (State α)
  | single _ _ states _ => states
  | composite _ => #[]

mutual

/-- The observer after being shown a state. -/
def observe (s : State α) : Observer α → Observer α
  | single medium m states finished => single medium m (states.push s) finished
  | composite children => composite (observeDue s children)

/-- Shows a state to those of several observers that are due. -/
def observeDue (s : State α) : List (Observer α) → List (Observer α)
  | [] => []
  | o :: os => (if o.dueAt s.iteration then observe s o else o) :: observeDue s os

end

mutual

/-- The observer at the end of a run. -/
def finalize : Observer α → Observer α
  | single medium m states finished => single medium m states (finished + 1)
  | composite children => composite (finalizeAll children)

def finalizeAll : List (Observer α) → List (Observer α)
  | [] => []
  | o :: os => finalize o :: finalizeAll os

end

mutual

def name : Observer α → String
  | single .trace m _ _ => s!"TraceObserver(interval={m})"
  | single .print m _ _ => s!"PrintObserver(interval={m})"
  | composite children => "Composite[" ++ ", ".intercalate (names children) ++ "]"

def names : List (Observer α) → List String
  | [] => []
  | o :: os => name o :: names os

end

end Observer

end NonlinearCG
