/-!
# Breakdowns

A computation breaks down when arithmetic or the shape of its operands leaves it without a result.
These are not verdicts of the optimizer: they pass through a run unchanged and carry no progress.
-/

namespace NonlinearCG

/-- Why a computation has no result. -/
inductive Breakdown where
  /-- A scalar was divided by zero where the quotient has to be a number. -/
  | divisionByZero
  /-- A square left the range of the scalars. -/
  | overflow
  /-- A vector or a cache has no entry at the position asked for. -/
  | missingEntry
  /-- Operands whose shapes do not fit together. -/
  | shapeMismatch
  /-- A text that is no number stands where a number has to be. -/
  | notANumber
  /-- A value of a kind that the operation does not take. -/
  | wrongKind
  /-- A matrix that is not positive definite, or that has no inverse. -/
  | singular
  /-- Halving an interval went on past the bound that the scalars give for it. -/
  | endlessHalving
  deriving DecidableEq, Repr, Inhabited

end NonlinearCG
