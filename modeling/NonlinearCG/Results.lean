import NonlinearCG.Convergence
import NonlinearCG.LineSearch.Search
import NonlinearCG.Observer

/-!
# Results and errors of a run

A run ends in one of three ways. It returns results; an optimizer error stops it, and the error then
tells how far the run had come; or a breakdown of the arithmetic passes through it.
-/

namespace NonlinearCG

/-! ## Results -/

/-- The state in which a run that returns has ended. -/
inductive Termination where
  | converged
  | iterationLimit
  | degenerateDirection
  deriving DecidableEq, Repr

def Termination.text : Termination → String
  | converged => "converged"
  | iterationLimit => "iteration limit reached"
  | degenerateDirection => "no descent direction"

/-- What a run returns. -/
structure Results (α : Type) where
  start : Tensor α
  minimum : Tensor α
  /-- The value at the minimum. -/
  value : α
  iterations : Nat
  /-- The number of iterations is the limit. -/
  exhausted : Bool
  verdict : Verdict
  tolerances : Tolerances α
  trace : Array (State α)
  calls : Calls
  termination : Termination

namespace Results

variable {α : Type}

def method : String := "Conjugate Gradient"

/-- A convergence criterion was met. -/
def converged (r : Results α) : Bool := r.verdict.converged

end Results

/-! ## Errors -/

/-- The classes of optimizer errors. -/
inductive ErrorClass where
  | optimization
  | nonFiniteValue
  | lineSearch
  deriving DecidableEq, Repr

/-- A class with the classes it belongs to, the narrowest first. -/
def ErrorClass.lineage : ErrorClass → List ErrorClass
  | optimization => [.optimization]
  | c => [c, .optimization]

/-- Why the optimizer stopped a run. -/
inductive ErrorCause (α : Type) where
  /-- The value at the starting point is not finite. -/
  | startValue (value : α)
  /-- Components of the gradient at the starting point are not finite. -/
  | startGradient (positions : List Nat)
  /-- The value after a step is not finite. -/
  | stepValue (value : α) (iteration : Nat)
  /-- The line search gave up. -/
  | search (cause : SearchError α)
  /-- A cause outside this library, with its message. -/
  | stated (errorClass : ErrorClass) (message : String)

def ErrorCause.errorClass {α : Type} : ErrorCause α → ErrorClass
  | startValue _ | startGradient _ | stepValue .. => .nonFiniteValue
  | search _ => .lineSearch
  | stated c _ => c

/-- How far a run had come. -/
structure Progress (α : Type) where
  iteration : Int := 0
  values : Int := 0
  gradients : Int := 0
  /-- The position, if there was one. -/
  x : Option (Tensor α) := none
  trace : Array (State α) := #[]

/-- An error with the progress of the run that it stopped. -/
structure OptimizerError (α : Type) where
  cause : ErrorCause α
  progress : Progress α := {}

/-- Records progress in an error. -/
def OptimizerError.attach {α : Type} (e : OptimizerError α) (p : Progress α) : OptimizerError α :=
  { e with progress := p }

/-- Why a run has no results. -/
inductive RunError (α : Type) where
  | breakdown (cause : Breakdown)
  | optimizer (error : OptimizerError α)

end NonlinearCG
