import NonlinearCG.Scalar
import NonlinearCG.Value

/-!
# Validation

A run file is checked field by field, and all that is wrong with it is reported at once, in the
order of the fields. A field is first read as the kind of value that it has to be and then tested
against its bounds, of which only the first that fails is reported. What reads as which kind of
value is a parameter, `Readers`; `PlainValue.readers` is lenient about plain data.
-/

namespace NonlinearCG

/-! ## Complaints -/

/-- What is wrong with a value. -/
inductive Complaint where
  | notSection
  | notText
  | notReal
  | unreadableReal
  | notInteger
  | unreadableInteger
  /-- A real number with a fraction where an integer has to be. -/
  | fractional
  /-- A real number that is not finite where an integer has to be. -/
  | infinite
  /-- A whole real number beyond 64 bits where an integer has to be. -/
  | tooLarge
  | notTruth
  | unreadableTruth
  | notList
  | notGreater
  | notGreaterOrEqual
  | notLess
  /-- A value that is refused for a reason of its own. -/
  | refused (reason : String)
  deriving DecidableEq, Repr

/-- The code under which a complaint is reported. -/
def Complaint.code : Complaint → String
  | notSection => "model_type"
  | notText => "string_type"
  | notReal => "float_type"
  | unreadableReal => "float_parsing"
  | notInteger => "int_type"
  | unreadableInteger => "int_parsing"
  | fractional => "int_from_float"
  | infinite => "finite_number"
  | tooLarge => "int_parsing_size"
  | notTruth => "bool_type"
  | unreadableTruth => "bool_parsing"
  | notList => "list_type"
  | notGreater => "greater_than"
  | notGreaterOrEqual => "greater_than_equal"
  | notLess => "less_than"
  | refused _ => "value_error"

inductive PathStep where
  | key (name : String)
  | index (i : Nat)
  deriving DecidableEq, Repr

/-- A complaint with the place of the value. -/
structure Issue where
  path : List PathStep
  complaint : Complaint
  deriving DecidableEq, Repr

/-! ## Checked values -/

/-- A valid value, or all that is wrong. -/
inductive Checked (A : Type) where
  | valid (a : A)
  | invalid (issues : List Issue)

namespace Checked

variable {A B : Type}

/-- Combines a function and its argument, with the issues of both. -/
def combine : Checked (A → B) → Checked A → Checked B
  | valid f, valid a => valid (f a)
  | valid _, invalid issues => invalid issues
  | invalid issues, valid _ => invalid issues
  | invalid issues, invalid more => invalid (issues ++ more)

instance : Applicative Checked where
  pure := valid
  seq f a := combine f (a ())

/-- A value with a single complaint about it, if there is one. -/
def ofExcept : Except Complaint A → Checked A
  | .ok a => valid a
  | .error c => invalid [⟨[], c⟩]

/-- The issues as seen from one step further away. -/
def under (step : PathStep) : Checked A → Checked A
  | valid a => valid a
  | invalid issues => invalid (issues.map fun issue ↦ { issue with path := step :: issue.path })

def valid? : Checked A → Option A
  | valid a => some a
  | invalid _ => none

end Checked

/-! ## Bounds -/

/-- A bound on a number. -/
inductive Bound (α : Type) where
  | below (x : α)
  | above (x : α)
  | atLeast (x : α)

namespace Bound

variable {α : Type} [Scalar α]

/-- The number respects the bound. A value that is no number respects none. -/
def holds (v : α) : Bound α → Bool
  | below x => v < x
  | above x => x < v
  | atLeast x => x ≤ v

def complaint : Bound α → Complaint
  | below _ => .notLess
  | above _ => .notGreater
  | atLeast _ => .notGreaterOrEqual

def check (bounds : List (Bound α)) (v : α) : Except Complaint α :=
  match bounds.find? (!·.holds v) with
  | none => .ok v
  | some b => .error b.complaint

end Bound

/-! ## Readers -/

/-- How values are read as what a schema asks for. -/
structure Readers (φ α : Type) where
  text : Value φ → Except Complaint String
  real : Value φ → Except Complaint α
  integer : Value φ → Except Complaint Int
  truth : Value φ → Except Complaint Bool
  /-- The members of a list. -/
  list : Value φ → Except Complaint (List (Value φ))

namespace PlainValue

open Value

def asText : PlainValue → Except Complaint String
  | text s => .ok s
  | _ => .error .notText

/-- A real number, possibly as an integer, a truth value or a text. -/
def asReal (v : PlainValue) : Except Complaint Float :=
  match v, v.toReal with
  | _, .ok x => .ok x
  | text _, .error _ => .error .unreadableReal
  | _, .error _ => .error .notReal

/-- The whole number that a double is. -/
def wholeNumber (x : Float) : Except Complaint Int :=
  match truncate x with
  | .error _ => .error .infinite
  | .ok k =>
    if Text.nearest k != x then .error .fractional
    else if k < -9223372036854775808 ∨ 9223372036854775808 ≤ k then .error .tooLarge
    else .ok k

/-- Reads an integer that may have a point with zeros after it. -/
def readWhole? (s : String) : Option Int :=
  let cs := Text.stripped s.toList
  let (whole, fraction) := cs.span (· != '.')
  if fraction.tail.all (· == '0') then Text.readInteger? (String.ofList whole) else none

/-- An integer, possibly as a real number, a truth value or a text. -/
def asInteger : PlainValue → Except Complaint Int
  | boolean b => .ok (if b then 1 else 0)
  | integer k => .ok k
  | real x => wholeNumber x
  | text s => match readWhole? s with
    | some k => .ok k
    | none => .error .unreadableInteger
  | _ => .error .notInteger

/-- The words for truth values. -/
def truthOfWord? (s : String) : Option Bool :=
  if ["1", "true", "yes", "on", "t", "y"].contains s then some true
  else if ["0", "false", "no", "off", "f", "n"].contains s then some false
  else none

/-- The integers for truth values. -/
def truthOfInteger (k : Int) : Except Complaint Bool :=
  if k = 0 then .ok false else if k = 1 then .ok true else .error .unreadableTruth

/-- A truth value, possibly as a number or a word. -/
def asTruth : PlainValue → Except Complaint Bool
  | boolean b => .ok b
  | integer k => truthOfInteger k
  | real x => match wholeNumber x with
    | .ok k => truthOfInteger k
    | .error _ => .error .notTruth
  | text s => match truthOfWord? (s.map Char.toLower) with
    | some b => .ok b
    | none => .error .unreadableTruth
  | _ => .error .notTruth

def asList : PlainValue → Except Complaint (List PlainValue)
  | list vs => .ok vs
  | _ => .error .notList

/-- The lenient readers. -/
def readers : Readers Empty Float where
  text := asText
  real := asReal
  integer := asInteger
  truth := asTruth
  list := asList

end PlainValue

/-! ## Parts of a schema -/

variable {φ α A : Type}

def Readers.positive (r : Readers φ α) (v : Value φ) : Except Complaint Int := do
  let k ← r.integer v
  if k ≤ 0 then throw .notGreater else return k

/-- The values of a list, from the given index on, each checked by itself. -/
def Readers.checkMembers (read : Value φ → Except Complaint A) (i : Nat) :
    List (Value φ) → Checked (List A)
  | [] => pure []
  | v :: vs =>
    List.cons <$> (Checked.ofExcept (read v)).under (.index i) <*> checkMembers read (i + 1) vs

/-- A list, whose members are checked each by itself. -/
def Readers.listOf (r : Readers φ α) (read : Value φ → Except Complaint A) (v : Value φ) :
    Checked (List A) :=
  match r.list v with
  | .ok vs => checkMembers read 0 vs
  | .error c => .ofExcept (.error c)

namespace Value

/-- A value that may be missing. -/
def optionally (read : Value φ → Checked A) : Value φ → Checked (Option A)
  | null => pure none
  | v => some <$> read v

variable [Foreign φ]

/-- A mapping, checked as a whole. -/
def asSection (read : List (Value φ × Value φ) → Checked A) (v : Value φ) : Checked A :=
  match v.entries? with
  | some entries => read entries
  | none => .invalid [⟨[], .notSection⟩]

/-- A field among entries; one that is missing has a default, which is not checked. -/
def checkField (entries : List (Value φ × Value φ)) (name : String) (default : A)
    (read : Value φ → Checked A) : Checked A :=
  match field? name entries with
  | none => pure default
  | some v => (read v).under (.key name)

end Value

end NonlinearCG
