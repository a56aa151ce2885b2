import NonlinearCG.LineSearch.Cache
import NonlinearCG.Scalar

/-!
# The Wolfe conditions and secant steps

The acceptance test of the Hager–Zhang search. A sample passes if it satisfies the Wolfe conditions
(sufficient decrease and curvature) or the approximate ones, which replace the decrease of the
value by bounds on the slope and a limit on the value.
-/

namespace NonlinearCG

/-- What a sample is tested against. -/
structure WolfeTest (α : Type) where
  /-- The value at the zero step. -/
  value : α
  /-- The slope at the zero step. -/
  slope : α
  /-- The largest value that the approximate conditions allow. -/
  limit : α
  /-- The share of the initial slope that the value has to fall by. -/
  delta : α
  /-- The share of the initial slope that may remain. -/
  sigma : α

namespace WolfeTest

variable {α : Type} [Scalar α]

def flattened (w : WolfeTest α) (s : Sample α) : Bool := w.sigma * w.slope ≤ s.slope

def approximate (w : WolfeTest α) (s : Sample α) : Bool :=
  s.slope ≤ (2.0 * w.delta - 1.0) * w.slope && w.flattened s && s.value ≤ w.limit

/-- The Wolfe or the approximate Wolfe conditions hold at a sample. -/
def accepts (w : WolfeTest α) (s : Sample α) : Except Breakdown Bool := do
  let rise ← Scalar.divide (s.value - w.value) s.step
  return (rise ≤ w.delta * w.slope && w.flattened s) || w.approximate s

end WolfeTest

/-- The zero of the line through two samples of the slope. Equal slopes have none, and the result
is then no number, so that every comparison with it fails. -/
def secant {α : Type} [Scalar α] (a b slopeA slopeB : α) : Except Breakdown α :=
  if slopeB == slopeA then .ok Scalar.nan
  else Scalar.divide (a * slopeB - b * slopeA) (slopeB - slopeA)

end NonlinearCG
