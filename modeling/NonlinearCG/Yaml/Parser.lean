import NonlinearCG.Yaml.Resolve
import NonlinearCG.Yaml.Scanner

/-!
# Reading a run file

The tokens of a text are read as a single document. The rules of the grammar call each other at
every level of nesting, and each rule that goes on has used up a token, so twice the number of
tokens bounds the depth.

The reader knows the part of the format that run files are written in: block and flow collections,
plain and quoted scalars, comments and the marker of a document. It knows no anchors, tags,
directives, block scalars and dates.
-/

namespace NonlinearCG.Yaml

/-- Why a text is not a document. -/
inductive ReadError where
  /-- The text has a character that is not printable. -/
  | characters
  /-- The text is not made of tokens. -/
  | tokens
  /-- The tokens do not fit together. -/
  | grammar
  /-- There is more than one document. -/
  | documents
  /-- A collection stands where a key has to be. -/
  | keys
  /-- A scalar is written like a value that there is none of, such as a date. -/
  | noValue (message : String)
  /-- A reason that this reader does not know. -/
  | other
  deriving DecidableEq, Repr

/-- What the rules of the grammar work on: the tokens ahead, and whether the end of the text comes
after them. -/
structure Ahead where
  tokens : List Token
  complete : Bool

/-- A rule of the grammar. -/
abbrev Rule := StateT Ahead (Except ReadError)

namespace Rule

def peek : Rule (Option Token) := do
  match ← get with
  | ⟨t :: _, _⟩ => return some t
  | ⟨[], true⟩ => return none
  | ⟨[], false⟩ => throw .tokens

def skip : Rule Unit := modify fun s ↦ { s with tokens := s.tokens.tail }

/-- Moves past the next token if it is the given one. -/
def accept (t : Token) : Rule Bool := do
  if (← peek) == some t then
    skip
    return true
  else return false

/-- The next token has to be the given one. -/
def expect (t : Token) : Rule Unit := do
  unless ← accept t do throw .grammar

/-- The next token is one of several. -/
def sees (ts : List Token) : Rule Bool := return (← peek).any ts.contains

def entryOf (key value : PlainValue) : Rule (PlainValue × PlainValue) :=
  if key.isKey then return (key, value) else throw .keys

mutual

/-- A value. In a block, a sequence that is the value of a key need not be indented. -/
def node (block indentless : Bool) : (fuel : Nat) → Rule PlainValue
  | 0 => throw .grammar
  | fuel + 1 => do
    match ← peek with
    | some (.scalar text isPlain) =>
      skip
      return if isPlain then resolve text else .text text
    | some .flowSequence =>
      skip
      return .list (← flowSequence true fuel)
    | some .flowMapping =>
      skip
      return .mapping (Value.distinct (← flowMapping true fuel))
    | some .entry =>
      if indentless then return .list (← dashes fuel) else throw .grammar
    | some .blockSequence =>
      if !block then throw .grammar
      skip
      return .list (← blockSequence fuel)
    | some .blockMapping =>
      if !block then throw .grammar
      skip
      return .mapping (Value.distinct (← blockMapping fuel))
    | _ => throw .grammar

/-- A value, which is missing if one of the given tokens comes next. -/
def nodeUnless (ends : List Token) (block indentless : Bool) : (fuel : Nat) → Rule PlainValue
  | 0 => throw .grammar
  | fuel + 1 => do if ← sees ends then return .null else node block indentless fuel

/-- The rest of a block sequence. -/
def blockSequence : (fuel : Nat) → Rule (List PlainValue)
  | 0 => throw .grammar
  | fuel + 1 => do
    if ← accept .entry then
      let v ← nodeUnless [.entry, .blockEnd] true false fuel
      return v :: (← blockSequence fuel)
    else
      expect .blockEnd
      return []

/-- The rest of a sequence that is not indented. -/
def dashes : (fuel : Nat) → Rule (List PlainValue)
  | 0 => throw .grammar
  | fuel + 1 => do
    if ← accept .entry then
      let v ← nodeUnless [.entry, .key, .value, .blockEnd] true false fuel
      return v :: (← dashes fuel)
    else return []

/-- The rest of a block mapping. -/
def blockMapping : (fuel : Nat) → Rule (List (PlainValue × PlainValue))
  | 0 => throw .grammar
  | fuel + 1 => do
    if ← sees [.key, .value] then
      let ends := [.key, .value, .blockEnd]
      let k ← if ← accept .key then nodeUnless ends true true fuel else pure .null
      let v ← if ← accept .value then nodeUnless ends true true fuel else pure .null
      let e ← entryOf k v
      return e :: (← blockMapping fuel)
    else
      expect .blockEnd
      return []

/-- The value after the colon of a flow collection. -/
def flowValue (close : Token) : (fuel : Nat) → Rule PlainValue
  | 0 => throw .grammar
  | fuel + 1 => do
    if ← accept .value then nodeUnless [.comma, close] false false fuel else return .null

/-- The rest of a flow sequence. A member with a colon is a mapping with one entry. -/
def flowSequence (first : Bool) : (fuel : Nat) → Rule (List PlainValue)
  | 0 => throw .grammar
  | fuel + 1 => do
    if ← accept .flowSequenceEnd then return []
    unless first do expect .comma
    if ← accept .key then
      let k ← nodeUnless [.value, .comma, .flowSequenceEnd] false false fuel
      let e ← entryOf k (← flowValue .flowSequenceEnd fuel)
      return .mapping [e] :: (← flowSequence false fuel)
    else if ← accept .flowSequenceEnd then return []
    else
      let v ← node false false fuel
      return v :: (← flowSequence false fuel)

/-- The rest of a flow mapping. A key may stand without a value. -/
def flowMapping (first : Bool) : (fuel : Nat) → Rule (List (PlainValue × PlainValue))
  | 0 => throw .grammar
  | fuel + 1 => do
    if ← accept .flowMappingEnd then return []
    unless first do expect .comma
    if ← accept .key then
      let k ← nodeUnless [.value, .comma, .flowMappingEnd] false false fuel
      let e ← entryOf k (← flowValue .flowMappingEnd fuel)
      return e :: (← flowMapping false fuel)
    else if ← accept .flowMappingEnd then return []
    else
      let e ← entryOf (← node false false fuel) .null
      return e :: (← flowMapping false fuel)

end

/-- Moves past ends of documents. -/
def skipEnds : (fuel : Nat) → Rule Unit
  | 0 => return
  | fuel + 1 => do if ← accept .documentEnd then skipEnds fuel

/-- A document, which may begin with a marker. -/
def document (fuel : Nat) : Rule PlainValue := do
  match ← peek with
  | none => return .null
  | some .documentStart =>
    skip
    if ← sees [.documentStart, .documentEnd] then return .null
    else if (← peek).isNone then return .null
    else node true false fuel
  | some _ => node true false fuel

/-- The only document of a text. -/
def stream (fuel : Nat) : Rule PlainValue := do
  let v ← document fuel
  skipEnds fuel
  match ← peek with
  | none => return v
  | some .documentStart => throw .documents
  | some _ => throw .grammar

end Rule

def isPrintable (c : Char) : Bool :=
  let n := c.toNat
  n == 9 || n == 10 || n == 13 || (32 ≤ n && n ≤ 126) || n == 133 ||
    (160 ≤ n && n != 65534 && n != 65535)

/-- Line breaks written as one character. -/
def unixBreaks : List Char → List Char
  | '\r' :: '\n' :: cs => '\n' :: unixBreaks cs
  | '\r' :: cs => '\n' :: unixBreaks cs
  | c :: cs => c :: unixBreaks cs
  | [] => []

/-- Reads a text as a document. -/
def read (text : String) : Except ReadError PlainValue :=
  let cs := unixBreaks text.toList
  if !cs.all isPrintable then .error .characters
  else
    let (tokens, complete) := scan (String.ofList cs)
    ((Rule.stream (2 * tokens.length + 8)).run ⟨tokens, complete⟩).map Prod.fst

end NonlinearCG.Yaml
