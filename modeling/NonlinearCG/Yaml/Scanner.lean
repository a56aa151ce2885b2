/-!
# Tokens of a run file

A run file is written in a part of YAML: block and flow collections, plain and quoted scalars, and
comments. The scanner cuts it into tokens, among them the beginnings and ends of block collections,
which it finds by comparing columns.

A mapping key is recognized only by the colon after it. So wherever a key may begin, the scanner
keeps an empty slot in front of the token; the colon fills the slot, and a slot that is never filled
is no token. A key that may begin somewhere is *pending* until its colon, the end of its line or its
1024th character.
-/

namespace NonlinearCG.Yaml

/-! ## Tokens -/

/-- A token. -/
inductive Token where
  | blockMapping
  | blockSequence
  | blockEnd
  | flowMapping
  | flowMappingEnd
  | flowSequence
  | flowSequenceEnd
  | documentStart
  | documentEnd
  /-- The dash of a sequence. -/
  | entry
  /-- The comma of a flow collection. -/
  | comma
  | key
  /-- The colon of a mapping. -/
  | value
  | scalar (text : String) (plain : Bool)
  deriving DecidableEq, Repr

/-- A place where a key may begin. -/
structure Pending where
  /-- The slot in front of the token. -/
  slot : Nat
  line : Nat
  column : Nat
  offset : Nat
  /-- Nothing but a key can stand here. -/
  required : Bool

/-- The scanner between two tokens. -/
structure Scanner where
  rest : List Char
  line : Nat := 0
  column : Nat := 0
  offset : Nat := 0
  /-- The pending key of each open flow collection, the innermost first, and of the block. -/
  levels : List (Option Pending) := [none]
  /-- The columns of the open block collections, the innermost first. -/
  indents : List Nat := []
  keyAllowed : Bool := true
  /-- Slots with tokens. -/
  tokens : Array (List Token) := #[]

/-- The text is not made of tokens. What was scanned before is kept. -/
abbrev Scan := ExceptT Unit (StateM Scanner)

namespace Scan

/-! ## Characters -/

def isBreak (c : Char) : Bool := c == '\n'

/-- The end of the text, a space, a tab or a line break. -/
def endsWord : Option Char → Bool
  | none => true
  | some c => c == ' ' || c == '\t' || isBreak c

/-- The character some places ahead. -/
def peek (k : Nat) : Scan (Option Char) := return (← get).rest[k]?

def advance : Scan Unit := modify fun s ↦
  match s.rest with
  | [] => s
  | c :: rest =>
    if isBreak c then { s with rest, line := s.line + 1, column := 0, offset := s.offset + 1 }
    else { s with rest, column := s.column + 1, offset := s.offset + 1 }

/-- Moves ahead while the characters satisfy a condition, and collects them. -/
def collect (p : Char → Bool) : Scan (List Char) := do
  let s ← get
  let (taken, rest) := s.rest.span p
  if taken.any isBreak then
    for _ in taken do advance
  else
    set { s with rest, column := s.column + taken.length, offset := s.offset + taken.length }
  return taken

/-- The text is not made of tokens. -/
def fail {A : Type} : Scan A := throw ()

/-- A document marker, three dashes or dots, stands here. -/
def atMarker (c : Char) : Scan Bool := do
  let s ← get
  return s.column == 0 && s.rest.take 3 == [c, c, c] && endsWord s.rest[3]?

/-! ## Keys -/

/-- The scanner is in a flow collection. -/
def inFlow : Scan Bool := return 1 < (← get).levels.length

def emit (t : Token) : Scan Unit := modify fun s ↦ { s with tokens := s.tokens.push [t] }

/-- Gives up the pending key of the innermost collection. -/
def dropPending : Scan Unit := do
  match (← get).levels with
  | some p :: levels =>
    if p.required then fail
    modify ({ · with levels := none :: levels })
  | _ => return

/-- Gives up the pending keys that are too long. -/
def dropStale : Scan Unit := do
  let s ← get
  let stale (p : Pending) : Bool := p.line != s.line || 1024 < s.offset - p.offset
  if s.levels.any (·.any fun p ↦ stale p && p.required) then fail
  set { s with levels := s.levels.map (Option.filter (!stale ·)) }

/-- Notes that a key may begin here. -/
def notePending : Scan Unit := do
  let s ← get
  if s.keyAllowed then
    dropPending
    let required := !(← inFlow) && s.indents.head? == some s.column
    let p : Pending := ⟨s.tokens.size, s.line, s.column, s.offset, required⟩
    modify fun s ↦ { s with levels := some p :: s.levels.tail, tokens := s.tokens.push [] }

/-- Sets whether a key may begin at the next token. -/
def allowKey (b : Bool) : Scan Unit := modify ({ · with keyAllowed := b })

/-! ## Indentation -/

/-- Opens a block collection at a column, unless one is open there. Says whether it did. -/
def indentTo (column : Nat) : Scan Bool := do
  let s ← get
  if s.indents.head?.all (· < column) then
    set { s with indents := column :: s.indents }
    return true
  else return false

/-- Closes the block collections that lie to the right of a column. -/
def unindentTo (column : Int) : Scan Unit := do
  unless ← inFlow do
    let s ← get
    let (closed, indents) := s.indents.span fun (k : Nat) ↦ column < (k : Int)
    set { s with indents, tokens := closed.foldl (fun ts _ ↦ ts.push [.blockEnd]) s.tokens }

/-! ## Structure -/

def openFlow (t : Token) : Scan Unit := do
  notePending
  modify fun s ↦ { s with levels := none :: s.levels }
  allowKey true
  advance
  emit t

def closeFlow (t : Token) : Scan Unit := do
  dropPending
  modify fun s ↦ { s with levels := if 1 < s.levels.length then s.levels.tail else s.levels }
  allowKey false
  advance
  emit t

def comma : Scan Unit := do
  allowKey true
  dropPending
  advance
  emit .comma

def entry : Scan Unit := do
  unless ← inFlow do
    unless (← get).keyAllowed do fail
    if ← indentTo (← get).column then emit .blockSequence
  allowKey true
  dropPending
  advance
  emit .entry

/-- The question mark of an explicit key. -/
def explicitKey : Scan Unit := do
  unless ← inFlow do
    unless (← get).keyAllowed do fail
    if ← indentTo (← get).column then emit .blockMapping
  allowKey (!(← inFlow))
  dropPending
  advance
  emit .key

/-- The colon of a mapping. It makes the pending token a key. -/
def value : Scan Unit := do
  match (← get).levels with
  | some p :: levels =>
    let opens ← if ← inFlow then pure false else indentTo p.column
    let filled := if opens then [.blockMapping, .key] else [.key]
    modify fun s ↦
      { s with levels := none :: levels, tokens := s.tokens.setIfInBounds p.slot filled }
    allowKey false
  | _ =>
    unless ← inFlow do
      unless (← get).keyAllowed do fail
      if ← indentTo (← get).column then emit .blockMapping
    allowKey (!(← inFlow))
    dropPending
  advance
  emit .value

def marker (t : Token) : Scan Unit := do
  unindentTo (-1)
  dropPending
  allowKey false
  for _ in [0, 1, 2] do advance
  emit t

/-! ## Plain scalars -/

/-- Breaks between words: a single one is a space, and of several all but the first are kept. -/
def folded (breaks : Nat) : List Char :=
  if breaks = 1 then [' '] else List.replicate (breaks - 1) '\n'

/-- The blank characters between two words of a plain scalar. Nothing if the scalar ends here. -/
def plainGap : Scan (List Char) := do
  let blanks ← collect (· == ' ')
  match ← peek 0 with
  | some c =>
    if isBreak c then
      advance
      allowKey true
      if (← atMarker '-') || (← atMarker '.') then return []
      let more ← collect fun c ↦ c == ' ' || isBreak c
      if (← atMarker '-') || (← atMarker '.') then return []
      return folded (1 + (more.filter isBreak).length)
    else return blanks
  | none => return blanks

/-- A plain scalar ends before a character, given the character after it. -/
def endsPlain (flow : Bool) (c : Char) (next : Option Char) : Bool :=
  endsWord (some c) ||
    (c == ':' && (endsWord next || (flow && next.any (",[]\x7b\x7d".toList.contains ·)))) ||
    (flow && ",?[]\x7b\x7d".toList.contains c)

/-- The characters up to the end of a word of a plain scalar. -/
def word (flow : Bool) : List Char → List Char
  | [] => []
  | c :: cs => if endsPlain flow c cs.head? then [] else c :: word flow cs

/-- Further words of a plain scalar. -/
def plainWords (flow : Bool) (indent : Nat) : (fuel : Nat) → (gap : List Char) → Scan (List Char)
  | 0, _ => return []
  | fuel + 1, gap => do
    if (← peek 0) == some '#' then return []
    let w := word flow (← get).rest
    if w.isEmpty then return []
    for _ in w do advance
    allowKey false
    let next ← plainGap
    if next.isEmpty || (← peek 0) == some '#' || (!flow && (← get).column < indent) then
      return gap ++ w
    return gap ++ w ++ (← plainWords flow indent fuel next)

def plain : Scan Unit := do
  notePending
  allowKey false
  let s ← get
  let indent := match s.indents with
    | [] => 0
    | k :: _ => k + 1
  let text ← plainWords (← inFlow) indent s.rest.length []
  emit (.scalar (String.ofList text) true)

/-! ## Quoted scalars -/

/-- The character that a letter after a backslash stands for. -/
def escaped? : Char → Option Char
  | '0' => some '\x00'
  | 'a' => some '\x07'
  | 'b' => some '\x08'
  | 't' | '\t' => some '\t'
  | 'n' => some '\n'
  | 'v' => some '\x0b'
  | 'f' => some '\x0c'
  | 'r' => some '\r'
  | 'e' => some '\x1b'
  | ' ' => some ' '
  | '"' => some '"'
  | '\\' => some '\\'
  | '/' => some '/'
  | 'N' => some (Char.ofNat 133)
  | '_' => some (Char.ofNat 160)
  | 'L' => some (Char.ofNat 8232)
  | 'P' => some (Char.ofNat 8233)
  | _ => none

/-- The number of hexadecimal digits after a backslash and a letter. -/
def codeLength? : Char → Option Nat
  | 'x' => some 2
  | 'u' => some 4
  | 'U' => some 8
  | _ => none

def hexDigit? (c : Char) : Option Nat :=
  if c.isDigit then some (c.toNat - '0'.toNat)
  else if 'a' ≤ c && c ≤ 'f' then some (c.toNat - 'a'.toNat + 10)
  else if 'A' ≤ c && c ≤ 'F' then some (c.toNat - 'A'.toNat + 10)
  else none

/-- Line breaks in a quoted scalar with the blanks around them, and their number. -/
def quotedBreaks : (fuel : Nat) → Scan Nat
  | 0 => return 0
  | fuel + 1 => do
    if (← atMarker '-') || (← atMarker '.') then fail
    let _ ← collect fun c ↦ c == ' ' || c == '\t'
    match ← peek 0 with
    | some c =>
      if isBreak c then
        advance
        return (← quotedBreaks fuel) + 1
      else return 0
    | none => return 0

/-- What a backslash and the characters after it stand for. -/
def escape : Scan (List Char) := do
  advance
  match ← peek 0 with
  | none => fail
  | some c =>
    if isBreak c then
      advance
      let breaks ← quotedBreaks (← get).rest.length
      return List.replicate breaks '\n'
    else match escaped? c, codeLength? c with
      | some d, _ =>
        advance
        return [d]
      | none, some k =>
        advance
        let digits := ((← get).rest.take k).filterMap hexDigit?
        if digits.length < k then fail
        for _ in digits do advance
        return [Char.ofNat (digits.foldl (16 * · + ·) 0)]
      | none, none => fail

/-- A quoted scalar after its opening quote, up to its closing one. -/
def quotedRest (quote : Char) : (fuel : Nat) → Scan (List Char)
  | 0 => fail
  | fuel + 1 => do
    match ← peek 0 with
    | none => fail
    | some c =>
      if c == quote then
        advance
        if quote == '\'' && (← peek 0) == some '\'' then
          advance
          return '\'' :: (← quotedRest quote fuel)
        else return []
      else if c == '\\' && quote == '"' then
        let chars ← escape
        return chars ++ (← quotedRest quote fuel)
      else if endsWord (some c) then
        let blanks ← collect fun c ↦ c == ' ' || c == '\t'
        match ← peek 0 with
        | none => fail
        | some c =>
          if isBreak c then
            advance
            let breaks ← quotedBreaks (← get).rest.length
            return folded (breaks + 1) ++ (← quotedRest quote fuel)
          else return blanks ++ (← quotedRest quote fuel)
      else
        advance
        return c :: (← quotedRest quote fuel)

def quoted (quote : Char) : Scan Unit := do
  notePending
  allowKey false
  advance
  let text ← quotedRest quote ((← get).rest.length + 1)
  emit (.scalar (String.ofList text) false)

/-! ## The whole text -/

/-- Skips spaces, comments and line breaks. After a line break a key may begin. -/
def skipToToken : (fuel : Nat) → Scan Unit
  | 0 => return
  | fuel + 1 => do
    let _ ← collect (· == ' ')
    if (← peek 0) == some '#' then
      let _ ← collect (!isBreak ·)
    match ← peek 0 with
    | some c =>
      if isBreak c then
        advance
        unless ← inFlow do allowKey true
        skipToToken fuel
    | none => return

/-- The character can begin a plain scalar, given the character after it. -/
def beginsPlain (flow : Bool) (c : Char) (next : Option Char) : Bool :=
  !(endsWord (some c) || "-?:,[]\x7b\x7d#&*!|>'\"%@\x60".toList.contains c) ||
    (!endsWord next && (c == '-' || (!flow && (c == '?' || c == ':'))))

/-- The next token, which begins with a given character. Anchors, tags, directives and block
scalars are not part of the language. -/
def token (c : Char) : Scan Unit := do
  let next ← peek 1
  let flow ← inFlow
  if ← atMarker '-' then marker .documentStart
  else if ← atMarker '.' then marker .documentEnd
  else if c == '[' then openFlow .flowSequence
  else if c == '\x7b' then openFlow .flowMapping
  else if c == ']' then closeFlow .flowSequenceEnd
  else if c == '\x7d' then closeFlow .flowMappingEnd
  else if c == ',' then comma
  else if c == '-' && endsWord next then entry
  else if c == '?' && (flow || endsWord next) then explicitKey
  else if c == ':' && (flow || endsWord next) then value
  else if c == '\'' || c == '"' then quoted c
  else if beginsPlain flow c next then plain
  else fail

/-- The remaining tokens. -/
def tokens : (fuel : Nat) → Scan Unit
  | 0 => return
  | fuel + 1 => do
    skipToToken (← get).rest.length
    dropStale
    unindentTo (← get).column
    match ← peek 0 with
    | some c =>
      token c
      tokens fuel
    | none =>
      unindentTo (-1)
      dropPending

end Scan

/-- The tokens of a text, and whether it is made of tokens as a whole. Where it is not, the tokens
from the first pending key on are unknown. -/
def scan (text : String) : List Token × Bool :=
  let cs := text.toList
  let (result, s) := (Scan.tokens (cs.length + 1)).run { rest := cs }
  match result with
  | .ok _ => (s.tokens.toList.flatten, true)
  | .error _ =>
    let known := (s.levels.filterMap (·.map Pending.slot)).foldl min s.tokens.size
    ((s.tokens.toList.take known).flatten, false)

end NonlinearCG.Yaml
