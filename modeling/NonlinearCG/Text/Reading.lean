import NonlinearCG.Text.Dyadic

/-!
# Reading numbers

Numbers written by users. A real number is read exactly and then rounded once to the nearest double.
Blanks around a number and single underscores between its digits are ignored.
-/

namespace NonlinearCG.Text

/-! ## Rounding -/

/-- The nearest double, the one with an even mantissa of two, or infinity. The bit pattern of a
double with mantissa `m` and last bit `2 ^ q` is `(q + 1074) 2 ^ 52 + m`, also where `m` was rounded
up to the next power of two. -/
def Ratio.toFloat (r : Ratio) : Float :=
  if r.num = 0 then 0.0
  else
    let guess : Int := (Nat.log2 r.num : Int) - Nat.log2 r.den
    let top := if (Ratio.scaled 1 2 guess).le r then guess else guess - 1
    let last := max Dyadic.leastExponent (top - Dyadic.fractionBits)
    let mantissa := (r.shift 2 (-last)).round
    let bits := (last - Dyadic.leastExponent).toNat * Dyadic.leadingBit + mantissa
    Float.ofBits (min bits (2047 * Dyadic.leadingBit)).toUInt64

def nearest (k : Int) : Float :=
  let x := Ratio.toFloat ⟨k.natAbs, 1⟩
  if k < 0 then -x else x

/-- An exponent beyond which all doubles are zero or infinite. -/
def extremeExponent : Nat := 400

/-- The double nearest to `m · 10 ^ k`. -/
def nearestDecimal (m : Nat) (k : Int) : Float :=
  if m = 0 then 0.0
  else
    let e := (Ratio.decimalExponent ⟨m, 1⟩ : Int) + k
    if (extremeExponent : Int) < e then 1.0 / 0.0
    else if e < -extremeExponent then 0.0
    else (Ratio.scaled m 10 k).toFloat

/-! ## Pieces of a number -/

def isBlank (c : Char) : Bool :=
  let n := c.toNat
  c == ' ' || (9 ≤ n && n ≤ 13) || (28 ≤ n && n ≤ 31) || n == 133 || n == 160 || n == 5760 ||
    (8192 ≤ n && n ≤ 8202) || n == 8232 || n == 8233 || n == 8239 || n == 8287 || n == 12288

/-- The characters without blanks at the ends. -/
def stripped (cs : List Char) : List Char :=
  ((cs.dropWhile isBlank).reverse.dropWhile isBlank).reverse

/-- The characters without underscores between digits, unless there is another underscore. -/
def unseparated? : List Char → Option (List Char)
  | [] => some []
  | [c] => if c == '_' then none else some [c]
  | c :: '_' :: d :: cs =>
    if c.isDigit && d.isDigit then (unseparated? (d :: cs)).map (c :: ·) else none
  | c :: cs => if c == '_' then none else (unseparated? cs).map (c :: ·)

/-- The sign in front of a number, and what follows it. -/
def signed : List Char → Bool × List Char
  | '-' :: cs => (true, cs)
  | '+' :: cs => (false, cs)
  | cs => (false, cs)

/-- The natural number of decimal digits. -/
def ofDigits (cs : List Char) : Nat := cs.foldl (fun n c ↦ 10 * n + (c.toNat - '0'.toNat)) 0

/-- The natural number that consists of digits only. -/
def natural? (cs : List Char) : Option Nat :=
  if cs.isEmpty || !cs.all Char.isDigit then none else some (ofDigits cs)

/-- A signed number that consists of digits only. -/
def whole? (cs : List Char) : Option Int :=
  let (negative, cs) := signed cs
  (natural? cs).map fun n ↦ if negative then -(n : Int) else n

/-! ## Numbers -/

def readInteger? (s : String) : Option Int := unseparated? (stripped s.toList) >>= whole?

/-- Reads the exponent at the end of a real number, which may be missing. -/
def readExponent? : List Char → Option Int
  | [] => some 0
  | c :: cs => if c == 'e' || c == 'E' then whole? cs else none

/-- Reads a real number without its sign: digits with an optional point and exponent. -/
def readMagnitude? (cs : List Char) : Option Float := do
  let (whole, rest) := cs.span Char.isDigit
  let (fraction, rest) := match rest with
    | '.' :: rest => rest.span Char.isDigit
    | rest => ([], rest)
  if whole.isEmpty && fraction.isEmpty then none
  else
    let e ← readExponent? rest
    return nearestDecimal (ofDigits (whole ++ fraction)) (e - fraction.length)

def readReal? (s : String) : Option Float := do
  let cs ← unseparated? (stripped s.toList)
  let (negative, cs) := signed cs
  let x ← match (String.ofList cs).map Char.toLower with
    | "inf" | "infinity" => some (1.0 / 0.0)
    | "nan" => some (0.0 / 0.0)
    | _ => readMagnitude? cs
  return if negative then -x else x

end NonlinearCG.Text
