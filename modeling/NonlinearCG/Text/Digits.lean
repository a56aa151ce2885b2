import NonlinearCG.Text.Dyadic

/-!
# Decimal digits

The digits of a double, either rounded to a number of places or the fewest that are read back as
the same double. A row of digits `d₀ d₁ d₂ …` with exponent `e` stands for `d₀.d₁d₂… · 10 ^ e`.
-/

namespace NonlinearCG.Text

/-- Digits with the exponent of the first one. -/
structure Digits where
  digits : List Char
  exponent : Int

namespace Digits

/-- The `count` digits of a natural number of that length, or of the power of ten above. -/
private def ofNat (count n : Nat) (exponent : Int) : Digits :=
  if n = Nat.pow 10 count then ⟨'1' :: List.replicate (count - 1) '0', exponent + 1⟩
  else ⟨Nat.toDigits 10 n, exponent⟩

/-- A number of digits of a positive rational, correctly rounded. -/
def significant (count : Nat) (r : Ratio) : Digits :=
  let e := r.decimalExponent
  ofNat count (r.shift 10 ((count : Int) - 1 - e)).round e

/-- The digits of a rational down to the given decimal place, correctly rounded. -/
def toPlace (places : Nat) (r : Ratio) : Digits :=
  let digits := Nat.toDigits 10 (r.shift 10 places).round
  ⟨digits, (digits.length : Int) - 1 - places⟩

/-- The neighbour of a double on the grid of decimals with the given number of digits that is read
back as the double, the nearer of two. -/
private def onGrid (d : Dyadic) (count : Nat) : Option Digits :=
  let r := d.ratio
  let e := r.decimalExponent
  let k := (count : Int) - 1 - e
  let below := (r.shift 10 k).floor
  let good (n : Nat) : Bool := d.readsBack (.scaled n 10 (-k))
  match good below, good (below + 1) with
  | true, true => some (ofNat count (r.shift 10 k).round e)
  | true, false => some (ofNat count below e)
  | false, true => some (ofNat count (below + 1) e)
  | false, false => none

/-- The fewest digits that are read back as a positive double. Seventeen always are. -/
def shortest (d : Dyadic) : Digits :=
  ((List.range 16).findSome? fun i ↦ onGrid d (i + 1)).getD (significant 17 d.ratio)

/-- The digits without zeros at the end, except for the first digit. -/
def trimmed (d : Digits) : Digits :=
  match (d.digits.reverse.dropWhile (· == '0')).reverse with
  | [] => ⟨['0'], d.exponent⟩
  | digits => ⟨digits, d.exponent⟩

def whole (d : Digits) : List Char :=
  if d.exponent < 0 then ['0']
  else
    let k := d.exponent.toNat + 1
    d.digits.take k ++ List.replicate (k - d.digits.length) '0'

def fraction (d : Digits) : List Char :=
  if d.exponent < 0 then List.replicate (-d.exponent - 1).toNat '0' ++ d.digits
  else d.digits.drop (d.exponent.toNat + 1)

end Digits

end NonlinearCG.Text
