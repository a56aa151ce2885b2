import NonlinearCG.Breakdown

/-!
# Scalars

The numbers the optimizer computes with. Every algorithm of this library is written once, over a
type with the operations below and no laws. Doubles are one instance; a field with `∞` and a value
that is no number is another, and there the same definitions are exact arithmetic.

The operators are those of floating point: `/` and the rest always give a value, and comparisons
with a value that is no number are false. Where the optimizer insists on a proper quotient it asks
for `Scalar.divide`, which refuses a zero divisor.
-/

namespace NonlinearCG

/-- Numbers with the operations of floating-point arithmetic. -/
class Scalar (α : Type) extends Add α, Sub α, Mul α, Div α, Neg α, LT α, LE α, BEq α,
    OfScientific α where
  decidableLT : DecidableLT α
  decidableLE : DecidableLE α
  /-- Absolute value. -/
  abs : α → α
  /-- Square root. -/
  sqrt : α → α
  /-- Neither infinite nor undefined. -/
  isFinite : α → Bool
  /-- The value that is no number. -/
  isNaN : α → Bool
  /-- A value that is no number. -/
  nan : α
  /-- Positive infinity. -/
  infinity : α
  /-- The gap between a scalar and its neighbour away from zero. -/
  spacing : α → α
  /-- The neighbour of a scalar in the direction of positive infinity. -/
  nextUp : α → α
  /-- A number of halvings after which any part of the interval between two scalars is at most as
  wide as the spacing at its right end. -/
  halvings : α → α → Nat

namespace Scalar

variable {α : Type} [Scalar α]

instance : DecidableLT α := decidableLT

instance : DecidableLE α := decidableLE

instance : Inhabited α := ⟨0.0⟩

/-- The second scalar if it is below the first, otherwise the first. -/
def lesser (x y : α) : α := if y < x then y else x

/-- The second scalar if it is above the first, otherwise the first. -/
def greater (x y : α) : α := if x < y then y else x

/-- The larger of two scalars; a value that is no number wins. -/
def maximum (x y : α) : α := if y ≤ x || isNaN x then x else y

/-- The quotient, refusing a zero divisor. -/
def divide (x y : α) : Except Breakdown α :=
  if y == 0.0 then .error .divisionByZero else .ok (x / y)

/-- The square, refusing to leave the finite scalars. -/
def square (x : α) : Except Breakdown α :=
  let y := x * x
  if isFinite x && !isFinite y then .error .overflow else .ok y

def bothFinite (x y : α) : Bool := isFinite x && isFinite y

def ofNat (n : Nat) : α := OfScientific.ofScientific n false 0

end Scalar

end NonlinearCG
