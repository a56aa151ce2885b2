import NonlinearCG.Vec

/-!
# Objectives

An objective is a function of `n` variables together with its gradient. Both may keep a state of
their own: an evaluation takes the state of the world to a result, or a breakdown, and the state
after it, which a breakdown does not undo.

An objective may bring a combined evaluation. One that does not is evaluated gradient first.
-/

namespace NonlinearCG

/-- A computation on a world of type `ω`. What it did to the world survives a breakdown. -/
abbrev Eval (ω : Type) := ExceptT Breakdown (StateM ω)

/-- A result that may be missing, as a computation that leaves the world alone. -/
def Eval.ofExcept {ω A : Type} : Except Breakdown A → Eval ω A
  | .ok a => pure a
  | .error b => throw b

/-- A function of `n` variables with its gradient. -/
structure Objective (ω α : Type) (n : Nat) where
  /-- The value at a point. -/
  value : Vec α n → Eval ω α
  /-- The gradient at a point. -/
  gradient : Vec α n → Eval ω (Vec α n)
  /-- Value and gradient at a point in one evaluation, where there is one. -/
  combined : Option (Vec α n → Eval ω (α × Vec α n)) := none

/-- One evaluation of an objective, with its point. -/
inductive Evaluation (P : Type) where
  | value (x : P)
  | gradient (x : P)
  | both (x : P)

namespace Evaluation

variable {P : Type}

/-- The evaluation counts as one of the value. -/
def usesValue : Evaluation P → Bool
  | value _ | both _ => true
  | gradient _ => false

/-- The evaluation counts as one of the gradient. -/
def usesGradient : Evaluation P → Bool
  | gradient _ | both _ => true
  | value _ => false

end Evaluation

namespace Objective

variable {ω α : Type} {n : Nat}

/-- Value and gradient at a point: the combined evaluation, or else the gradient and then the
value. -/
def both (f : Objective ω α n) (x : Vec α n) : Eval ω (α × Vec α n) :=
  match f.combined with
  | some combined => combined x
  | none => do
    let g ← f.gradient x
    let v ← f.value x
    return (v, g)

/-- The objective without its combined evaluation. -/
def separate (f : Objective ω α n) : Objective ω α n := { f with combined := none }

/-- The objective that, before each evaluation, lets `note` write it down in the world. -/
def noting (note : Evaluation (Vec α n) → ω → ω) (f : Objective ω α n) : Objective ω α n where
  value x := do modify (note (.value x)); f.value x
  gradient x := do modify (note (.gradient x)); f.gradient x
  combined := f.combined.map fun combined x ↦ do modify (note (.both x)); combined x

/-- An objective without a state, from a function and its gradient. -/
def ofFunctions (value : Vec α n → α) (gradient : Vec α n → Vec α n) : Objective ω α n where
  value x := return value x
  gradient x := return gradient x

end Objective

end NonlinearCG
