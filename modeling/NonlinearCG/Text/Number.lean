import NonlinearCG.Text.Digits

/-!
# Numbers in texts

The formats in which numbers are shown: the plain form, which has the fewest digits that are read
back, the scientific form with a fixed number of places, and the general form, which chooses between
positional and scientific notation and drops zeros at the end.
-/

namespace NonlinearCG.Text

/-- The sign in front of a number. -/
def sign (x : Float) : String := if isNegative x then "-" else ""

/-- An exponent with its sign and at least two digits. -/
def exponent (e : Int) : String :=
  let digits := toString e.natAbs
  "e" ++ (if e < 0 then "-" else "+") ++ (if digits.length < 2 then "0" else "") ++ digits

/-- The text of a number that is not finite. -/
def nonFinite (x : Float) : String :=
  if x.isNaN then "nan" else if x < 0.0 then "-inf" else "inf"

/-- Digits in scientific notation, with a point only if it is followed by digits. -/
def scientificDigits (d : Digits) : String :=
  let mantissa := match d.digits with
    | c :: (c' :: rest) => c :: '.' :: c' :: rest
    | digits => digits
  String.ofList mantissa ++ exponent d.exponent

/-- The plain form: positional from `1e-4` up to `1e16` and scientific elsewhere. -/
def plain (x : Float) : String :=
  if !x.isFinite then nonFinite x
  else if x == 0.0 then sign x ++ "0.0"
  else
    let d := Digits.shortest (.ofFloat x)
    sign x ++
      if -4 ≤ d.exponent && d.exponent < 16 then
        let fraction := d.fraction
        String.ofList (d.whole ++ '.' :: if fraction.isEmpty then ['0'] else fraction)
      else scientificDigits d

/-- The scientific form with a number of places after the point. -/
def scientific (places : Nat) (x : Float) : String :=
  if !x.isFinite then nonFinite x
  else
    let d := if x == 0.0 then ⟨List.replicate (places + 1) '0', 0⟩
      else Digits.significant (places + 1) (Dyadic.ofFloat x).ratio
    sign x ++ scientificDigits d

/-- The general form with six significant digits. -/
def general (x : Float) : String :=
  if !x.isFinite then nonFinite x
  else if x == 0.0 then sign x ++ "0"
  else
    let d := (Digits.significant 6 (Dyadic.ofFloat x).ratio).trimmed
    sign x ++
      if -4 ≤ d.exponent && d.exponent < 6 then
        let fraction := d.fraction
        String.ofList (if fraction.isEmpty then d.whole else d.whole ++ '.' :: fraction)
      else scientificDigits d

/-- A text at the right end of a field. -/
def rightAligned (width : Nat) (s : String) : String :=
  String.ofList (List.replicate (width - s.length) ' ') ++ s

def truth (b : Bool) : String := if b then "True" else "False"

end NonlinearCG.Text
