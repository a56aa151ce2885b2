import NonlinearCG.Tensor
import NonlinearCG.Text.Number

/-!
# Arrays in texts

All entries of an array are shown in one format. They share a width, and in scientific notation also
the number of digits; scientific notation is used for all if the entries are very large, very small
or of very different size. A row is broken into lines that fit the page, and of a long array only
the entries at both ends of each axis are shown.
-/

namespace NonlinearCG.Text

/-! ## Entries -/

/-- How the entries of an array are shown. -/
structure EntryFormat where
  scientific : Bool
  /-- The most digits after the point. -/
  places : Nat
  /-- The width of the sign and the digits before the point. -/
  left : Nat
  /-- The width of what follows the point. -/
  right : Nat

namespace EntryFormat

/-- The digits of a double in scientific notation, at most `places` after the point. -/
def scientificDigits (places : Nat) (x : Float) : Digits :=
  if x == 0.0 then ⟨['0'], 0⟩
  else
    let d := Dyadic.ofFloat x
    let shortest := Digits.shortest d
    if shortest.digits.length ≤ places + 1 then shortest
    else (Digits.significant (places + 1) d.ratio).trimmed

/-- The digits of a double in positional notation, at most `places` after the point. -/
def positionalDigits (places : Nat) (x : Float) : Digits :=
  if x == 0.0 then ⟨['0'], 0⟩
  else
    let d := Dyadic.ofFloat x
    let shortest := Digits.shortest d
    if shortest.fraction.length ≤ places then shortest else Digits.toPlace places d.ratio

/-- The digits after the point, without zeros at the end. -/
def trimmedFraction (d : Digits) : List Char :=
  (d.fraction.reverse.dropWhile (· == '0')).reverse

/-- The entries call for scientific notation. -/
def callsForScientific (finite : List Float) : Bool :=
  match (finite.map Float.abs).filter (· != 0.0) with
  | [] => false
  | x :: xs =>
    let largest := xs.foldl (fun a b ↦ if a < b then b else a) x
    let smallest := xs.foldl (fun a b ↦ if b < a then b else a) x
    1e8 ≤ largest || smallest < 0.0001 || 1000.0 < largest / smallest

private def widest (texts : List String) : Nat := texts.foldl (fun m s ↦ max m s.length) 0

/-- The format for given entries with at most the given number of digits after the point. -/
def ofEntries (places : Nat) (entries : List Float) : EntryFormat :=
  let finite := entries.filter Float.isFinite
  let base : EntryFormat :=
    if finite.isEmpty then ⟨false, places, 0, 0⟩
    else if callsForScientific finite then
      let digits := finite.map (scientificDigits places)
      let places := digits.foldl (fun m d ↦ max m (d.digits.length - 1)) 0
      let exponents := widest (digits.map fun d ↦ exponent d.exponent)
      ⟨true, places, widest (finite.map fun x ↦ sign x ++ "0"), places + exponents⟩
    else
      let texts := finite.map fun x ↦ (sign x, positionalDigits places x)
      ⟨false, places, widest (texts.map fun (s, d) ↦ s ++ String.ofList d.whole),
        widest (texts.map fun (_, d) ↦ String.ofList (trimmedFraction d))⟩
  let others := entries.filter fun x ↦ !x.isFinite
  if others.isEmpty then base
  else
    let negative := if others.any fun x ↦ x < 0.0 then 1 else 0
    { base with left := max base.left (3 + negative - (base.right + 1)) }

def entry (f : EntryFormat) (x : Float) : String :=
  if !x.isFinite then rightAligned (f.left + f.right + 1) (nonFinite x)
  else if f.scientific then
    let d := scientificDigits f.places x
    let fraction := d.digits.drop 1 ++ List.replicate (f.places + 1 - d.digits.length) '0'
    let e := exponent d.exponent
    let padded :=
      "e" ++ String.ofList (e.toList.drop 1 |>.take 1) ++
        String.ofList (List.replicate (f.right - f.places - e.length) '0') ++
        String.ofList (e.toList.drop 2)
    rightAligned f.left (sign x ++ String.ofList (d.digits.take 1)) ++ "." ++
      String.ofList fraction ++ padded
  else
    let d := positionalDigits f.places x
    let fraction := trimmedFraction d
    rightAligned f.left (sign x ++ String.ofList d.whole) ++ "." ++ String.ofList fraction ++
      String.ofList (List.replicate (f.right - fraction.length) ' ')

end EntryFormat

/-! ## Lines -/

def pageWidth : Nat := 75

def abbreviateAbove : Nat := 1000

/-- The number of entries shown at each end of an abbreviated axis. -/
def edgeItems : Nat := 3

/-- An abbreviated array: its members where they are shown, and none where some are left out. -/
inductive Shown where
  | entry (x : Float)
  | row (items : List (Option Shown))

namespace Shown

/-- The members of a list that are shown, with a gap where members are left out. -/
def ends {A : Type} (abbreviated : Bool) (xs : List A) : List (Option A) :=
  if abbreviated && 2 * edgeItems < xs.length then
    (xs.take edgeItems).map some ++ none :: (xs.drop (xs.length - edgeItems)).map some
  else xs.map some

mutual

/-- What is shown of nested lists. -/
def ofNested (abbreviated : Bool) : Nested Float → Shown
  | .leaf x => .entry x
  | .node xs => .row (ends abbreviated (ofNestedList abbreviated xs))

/-- What is shown of each of several nested lists. -/
def ofNestedList (abbreviated : Bool) : List (Nested Float) → List Shown
  | [] => []
  | x :: xs => ofNested abbreviated x :: ofNestedList abbreviated xs

end

mutual

/-- The entries that are shown. -/
def entries : Shown → List Float
  | .entry x => [x]
  | .row items => entriesOf items

/-- The entries that are shown in several members. -/
def entriesOf : List (Option Shown) → List Float
  | [] => []
  | none :: items => entriesOf items
  | some s :: items => entries s ++ entriesOf items

end

/-- Joins words into lines of at most the given width. Every line starts with the indent, and a word
that would not fit even on a line of its own stays where it is. -/
def fill (width : Nat) (indent : String) (words : List String) : String :=
  let (done, line) := words.foldl
    (fun (done, line) word ↦
      if width < line.length + word.length && indent.length < line.length then
        (done ++ line.trimAsciiEnd.toString ++ "\n", indent ++ word ++ " ")
      else (done, line ++ word ++ " "))
    ("", indent)
  String.ofList ((done ++ line).toList.dropLast.drop indent.length)

mutual

/-- The text of an array with `axes` axes, whose lines after the first start with `depth` blanks. -/
def render (f : EntryFormat) : (axes depth : Nat) → Shown → String
  | _, _, .entry x => f.entry x
  | axes, depth, .row items =>
    let indent := String.ofList (List.replicate depth ' ')
    let texts := renderItems f (axes - 1) (depth + 1) items
    "[" ++
      (if axes ≤ 1 then fill (pageWidth - depth) indent texts
      else (String.ofList (List.replicate (axes - 1) '\n') ++ indent).intercalate texts) ++ "]"

/-- The texts of the members of an array. -/
def renderItems (f : EntryFormat) : (axes depth : Nat) → List (Option Shown) → List String
  | _, _, [] => []
  | axes, depth, none :: items => "..." :: renderItems f axes depth items
  | axes, depth, some s :: items => render f axes depth s :: renderItems f axes depth items

end

end Shown

/-- The text of an array, with at most the given number of digits after a point. -/
def array (places : Nat) (t : Tensor Float) : String :=
  let size := t.shape.size
  if size = 0 then "[]"
  else
    let shown := Shown.ofNested (abbreviateAbove < size) t.toNested
    shown.render (.ofEntries places shown.entries) t.shape.length 1

end NonlinearCG.Text
