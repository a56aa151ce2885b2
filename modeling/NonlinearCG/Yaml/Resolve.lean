import NonlinearCG.Value

/-!
# The values of plain scalars

A plain scalar is nothing, a truth value or a number if it is written like one, and otherwise a
text. A real number has a point, and its exponent has a sign.
-/

namespace NonlinearCG.Yaml

open Text

def isSpacedDigit (c : Char) : Bool := c.isDigit || c == '_'

def unspaced (cs : List Char) : List Char := cs.filter (· != '_')

/-- The value of a digit in some base, if it is one. -/
def digit? (base : Nat) (c : Char) : Option Nat :=
  let n := c.toLower.toNat
  let d := if c.isDigit then n - '0'.toNat else if 'a'.toNat ≤ n then n - 'a'.toNat + 10 else base
  if d < base then some d else none

/-- The natural number of digits in some base, which may contain underscores. -/
def inBase? (base : Nat) (cs : List Char) : Option Nat :=
  let cs := unspaced cs
  if cs.isEmpty then none
  else cs.foldlM (fun n c ↦ (digit? base c).map (base * n + ·)) 0

/-- A part of a number in base sixty, after a colon. -/
def sixtieth? (cs : List Char) : Option Nat := do
  let n ← natural? cs
  if n < 60 ∧ cs.length ≤ 2 then some n else none

/-- The parts of a text between colons. -/
def colonParts (cs : List Char) : List (List Char) :=
  ((String.ofList cs).splitOn ":").map String.toList

/-- The whole part of a number in base sixty. -/
def sexagesimal? (cs : List Char) : Option Nat := do
  match colonParts cs with
  | first :: second :: rest =>
    if !first.all isSpacedDigit then none
    else
      let start ← inBase? 10 first
      (second :: rest).foldlM (fun n part ↦ (sixtieth? part).map (60 * n + ·)) start
  | _ => none

/-- The magnitude of an integer. -/
def magnitude? : List Char → Option Nat
  | ['0'] => some 0
  | '0' :: 'b' :: cs => inBase? 2 cs
  | '0' :: 'x' :: cs => inBase? 16 cs
  | '0' :: c :: cs => if isSpacedDigit c then (inBase? 8 ('0' :: c :: cs)) else none
  | c :: cs =>
    if !c.isDigit then none
    else if cs.all isSpacedDigit then inBase? 10 (c :: cs)
    else sexagesimal? (c :: cs)
  | [] => none

def integer? (cs : List Char) : Option Int :=
  let (negative, cs) := signed cs
  (magnitude? cs).map fun n ↦ if negative then -(n : Int) else n

/-- The exponent at the end of a real number, which may be missing but not without its sign. -/
def signedExponent? : List Char → Option Int
  | [] => some 0
  | e :: s :: cs =>
    if (e == 'e' || e == 'E') && (s == '+' || s == '-') then whole? (s :: cs) else none
  | _ => none

/-- A real number that has digits before its point, without its sign. -/
def decimal? (whole rest : List Char) : Option Float := do
  let (fraction, rest) := rest.span isSpacedDigit
  let e ← signedExponent? rest
  let fraction := unspaced fraction
  return nearestDecimal (ofDigits (unspaced whole ++ fraction)) (e - fraction.length)

/-- A real number in base sixty, without its sign. -/
def sexagesimalReal? (whole rest : List Char) : Option Float := do
  if !rest.all isSpacedDigit then none
  else
    let fraction := unspaced rest
    let n ← sexagesimal? whole
    return nearestDecimal (n * Nat.pow 10 fraction.length + ofDigits fraction) (-fraction.length)

/-- A real number. One that begins with its point has no sign. -/
def real? (cs : List Char) : Option Float :=
  let (negative, magnitude) := signed cs
  let x? := match magnitude.span (· != '.') with
    | (_, []) => none
    | ([], _ :: rest) =>
      match String.ofList rest with
      | "inf" | "Inf" | "INF" => some (1.0 / 0.0)
      | name =>
        if magnitude.length < cs.length then none
        else if name == "nan" || name == "NaN" || name == "NAN" then some (0.0 / 0.0)
        else if rest.head?.any Char.isDigit then decimal? [] rest
        else none
    | (c :: whole, _ :: rest) =>
      if !c.isDigit then none
      else if whole.all isSpacedDigit then decimal? (c :: whole) rest
      else sexagesimalReal? (c :: whole) rest
  x?.map fun x ↦ if negative then -x else x

/-- A word in lower case, in upper case or capitalized. -/
def spellings (word : String) : List String := [word, word.toUpper, word.capitalize]

def truth? (s : String) : Option Bool :=
  if (["yes", "true", "on"].flatMap spellings).contains s then some true
  else if (["no", "false", "off"].flatMap spellings).contains s then some false
  else none

/-- The value of a plain scalar. -/
def resolve (s : String) : PlainValue :=
  let cs := s.toList
  if s.isEmpty || s == "~" || (spellings "null").contains s then .null
  else match truth? s, integer? cs, real? cs with
    | some b, _, _ => .boolean b
    | none, some k, _ => .integer k
    | none, none, some x => .real x
    | none, none, none => .text s

end NonlinearCG.Yaml
