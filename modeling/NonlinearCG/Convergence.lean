import NonlinearCG.Vec

/-!
# Convergence

A run converges when the variables, the value or the gradient have settled. The three criteria are
independent. The value has settled when its relative change is small or when it has not decreased
by even one scalar.
-/

namespace NonlinearCG

/-- The tolerances on the variables, the value and the gradient. -/
structure Tolerances (α : Type) where
  xtol : α
  ftol : α
  grtol : α

/-- Which criteria are met. -/
structure Verdict where
  x : Bool := false
  f : Bool := false
  gradient : Bool := false
  deriving DecidableEq, Repr

def Verdict.converged (v : Verdict) : Bool := v.x || v.f || v.gradient

/-- The verdict on a step, from the largest move of a variable, the value after and before the step
and the norm of the gradient. -/
def Tolerances.assess {α : Type} [Scalar α] (tol : Tolerances α) (move f fPrevious norm : α) :
    Except Breakdown Verdict := do
  let relative ← Scalar.divide (Scalar.abs (f - fPrevious)) (Scalar.abs f + tol.ftol)
  return {
    x := move < tol.xtol
    f := relative < tol.ftol || fPrevious ≤ Scalar.nextUp f
    gradient := norm < tol.grtol }

end NonlinearCG
