import NonlinearCG.Breakdown
import NonlinearCG.Text.Reading

/-!
# Values

Data without a schema, as they come out of a run file: nothing, truth values, numbers, texts, lists
and mappings. A mapping has at most one entry for a key, where numbers and truth values are one key
if they are equal as numbers.

A format of documents may have values of further kinds, such as dates, sets, or collections that
contain themselves. Little is known of these: whether they count as true, whether they are keys, and
what is found in them.
-/

namespace NonlinearCG

/-- Data without a schema, where `φ` holds the values of further kinds. -/
inductive Value (φ : Type) where
  | null
  | boolean (b : Bool)
  | integer (k : Int)
  | real (x : Float)
  | text (s : String)
  | list (xs : List (Value φ))
  | mapping (entries : List (Value φ × Value φ))
  | foreign (x : φ)
  deriving Inhabited

/-- Data without values of further kinds. -/
abbrev PlainValue : Type := Value Empty

/-- What is seen of the values of further kinds. -/
class Foreign (φ : Type) where
  /-- The value counts as true. -/
  truthy : φ → Bool
  /-- The value can be a key. -/
  isKey : φ → Bool
  /-- Two values are the same key. -/
  sameKey : φ → φ → Bool
  /-- The entries, if the value is a mapping. -/
  entries? : φ → Option (List (Value φ × Value φ))
  /-- What comes out one after the other, if the value is a collection that is no mapping. -/
  members? : φ → Option (List (Value φ))

instance : Foreign Empty where
  truthy := nofun
  isKey := nofun
  sameKey := nofun
  entries? := nofun
  members? := nofun

namespace Value

section

variable {φ : Type}

/-! ## Keys -/

/-- The number that a value is equal to. -/
def number? : Value φ → Option Float
  | boolean b => some (if b then 1.0 else 0.0)
  | integer k => some (Text.nearest k)
  | real x => some x
  | _ => none

variable [Foreign φ]

/-- Two values are the same key. -/
def sameKey : Value φ → Value φ → Bool
  | null, null => true
  | foreign x, foreign y => Foreign.sameKey x y
  | text s, text t => s == t
  | integer j, integer k => j == k
  | a, b => match a.number?, b.number? with
    | some x, some y => x == y
    | _, _ => false

/-- The value can be a key. -/
def isKey : Value φ → Bool
  | list _ | mapping _ => false
  | foreign x => Foreign.isKey x
  | _ => true

/-- The value of a key among entries. -/
def lookup (key : Value φ) : List (Value φ × Value φ) → Option (Value φ)
  | [] => none
  | (k, v) :: entries => if k.sameKey key then some v else lookup key entries

/-- The entries with a value for a key, in place of the one it may already have. -/
def insert (key v : Value φ) : List (Value φ × Value φ) → List (Value φ × Value φ)
  | [] => [(key, v)]
  | (k, w) :: entries =>
    if k.sameKey key then (k, v) :: entries else (k, w) :: insert key v entries

/-- Entries, of which the later ones replace the earlier ones with the same key. -/
def distinct (entries : List (Value φ × Value φ)) : List (Value φ × Value φ) :=
  entries.foldl (fun kept (k, v) ↦ insert k v kept) []

/-- The value of a textual key. -/
def field? (name : String) (entries : List (Value φ × Value φ)) : Option (Value φ) :=
  lookup (text name) entries

/-! ## Views -/

/-- Every value but nothing, `false`, zero and the empty texts, lists and mappings counts as
true. -/
def truthy : Value φ → Bool
  | null => false
  | boolean b => b
  | integer k => k != 0
  | real x => x != 0.0
  | text s => !s.isEmpty
  | list xs => !xs.isEmpty
  | mapping entries => !entries.isEmpty
  | foreign x => Foreign.truthy x

/-- The entries of a mapping. -/
def entries? : Value φ → Option (List (Value φ × Value φ))
  | mapping entries => some entries
  | foreign x => Foreign.entries? x
  | _ => none

/-- The members of a list, the characters of a text or the keys of a mapping. -/
def members? (v : Value φ) : Option (List (Value φ)) :=
  match v.entries?, v with
  | some entries, _ => some (entries.map Prod.fst)
  | none, list xs => some xs
  | none, text s => some (s.toList.map fun c ↦ text c.toString)
  | none, foreign x => Foreign.members? x
  | none, _ => none

end

/-! ## Conversions -/

/-- The real number that a value stands for. -/
def toReal : PlainValue → Except Breakdown Float
  | boolean b => .ok (if b then 1.0 else 0.0)
  | integer k =>
    let x := Text.nearest k
    if x.isFinite then .ok x else .error .overflow
  | real x => .ok x
  | text s => match Text.readReal? s with
    | some x => .ok x
    | none => .error .notANumber
  | null | list _ | mapping _ => .error .wrongKind

/-- The integer part of a double. -/
def truncate (x : Float) : Except Breakdown Int :=
  if x.isNaN then .error .notANumber
  else if x.isInf then .error .overflow
  else
    let k : Int := (Text.Dyadic.ofFloat x).ratio.floor
    .ok (if x < 0.0 then -k else k)

/-- The integer that a value stands for; real numbers are cut off. -/
def toInteger : PlainValue → Except Breakdown Int
  | boolean b => .ok (if b then 1 else 0)
  | integer k => .ok k
  | real x => truncate x
  | text s => match Text.readInteger? s with
    | some k => .ok k
    | none => .error .notANumber
  | null | list _ | mapping _ => .error .wrongKind

end Value

end NonlinearCG
