import NonlinearCG.Text.Reading

/-!
# Arguments of the command line

The command line names a run file or a problem, and may override some options. Options may be
abbreviated as long as they stay unique, take their value from the same word after an equals sign or
from the next word, and may be repeated. After a word `--` there are no options.
-/

namespace NonlinearCG

/-- The options of the command line. -/
inductive Flag where
  | help
  | problem
  | dimension
  | iterations
  | showTrace
  | logLevel
  | version
  deriving DecidableEq, Repr

namespace Flag

def name : Flag → String
  | help => "--help"
  | problem => "--problem"
  | dimension => "--dimension"
  | iterations => "--iterations"
  | showTrace => "--show-trace"
  | logLevel => "--log-level"
  | version => "--version"

def all : List Flag := [help, problem, dimension, iterations, showTrace, logLevel, version]

/-- What an option does, for the user. -/
def description : Flag → String
  | help => "Show this text"
  | problem => "Built-in problem (quadratic, rosenbrock, himmelblau, powell)"
  | dimension => "Problem dimension"
  | iterations => "Maximum number of iterations"
  | showTrace => "Print per-iteration progress"
  | logLevel => "Log level (default: warning)"
  | version => "Show the version"

def takesValue : Flag → Bool
  | help | showTrace | version => false
  | problem | dimension | iterations | logLevel => true

end Flag

/-! ## Words -/

/-- What a word of the command line is. -/
inductive Word where
  | plain (s : String)
  /-- The first word `--`. -/
  | separator
  | option (flag : Flag) (value : Option String)
  /-- A word that looks like an option but is none. -/
  | unknown
  /-- An abbreviation of several options. -/
  | ambiguous

/-- The word is a negative number. -/
def isNegativeNumber (s : String) : Bool :=
  match s.toList with
  | '-' :: cs => match cs.span Char.isDigit with
    | (whole, []) => !whole.isEmpty
    | (_, '.' :: fraction) => !fraction.isEmpty && fraction.all Char.isDigit
    | _ => false
  | _ => false

/-- The option with a name, its value after an equals sign, or what else a word that begins with two
dashes may be. -/
def longOption? (s : String) : Option Word :=
  let (name, rest) := s.toList.span (· != '=')
  let value := if rest.isEmpty then none else some (String.ofList rest.tail)
  match Flag.all.find? (·.name == String.ofList name) with
  | some flag => some (.option flag value)
  | none => match Flag.all.filter fun flag ↦ name.isPrefixOf flag.name.toList with
    | [] => none
    | [flag] => some (.option flag value)
    | _ => some .ambiguous

/-- What a word is that may be an option. -/
def classify (s : String) : Word :=
  let option? := match s.toList with
    | '-' :: '-' :: _ => longOption? s
    | ['-', 'h'] => some (.option .help none)
    | '-' :: 'h' :: cs => some (.option .help (some (String.ofList cs)))
    | _ => none
  match option? with
  | some word => word
  | none =>
    if !s.startsWith "-" || s == "-" || isNegativeNumber s || s.contains ' ' then .plain s
    else .unknown

/-- What the words of a command line are. -/
def classifyAll : List String → List Word
  | [] => []
  | s :: rest =>
    if s == "--" then .separator :: rest.map .plain else classify s :: classifyAll rest

/-! ## Arguments -/

/-- What a command line asks for. -/
structure Arguments where
  config : Option String := none
  problem : Option String := none
  dimension : Option Int := none
  iterations : Option Int := none
  showTrace : Bool := false
  logLevel : String := "warning"
  deriving DecidableEq, Repr

inductive Refusal where
  | usage
  | help
  | version
  deriving DecidableEq, Repr

/-- The arguments read so far. -/
structure Reading where
  arguments : Arguments := {}
  /-- The place of the run file is taken. -/
  placed : Bool := false
  /-- There were words that belong nowhere. -/
  surplus : Bool := false

namespace Reading

def assign (r : Reading) (flag : Flag) (v : String) : Except Refusal Reading := do
  let a := r.arguments
  let whole : Except Refusal Int := (Text.readInteger? v).elim (.error .usage) .ok
  let a ← match flag with
    | .problem => pure { a with problem := some v }
    | .dimension => do pure { a with dimension := some (← whole) }
    | .iterations => do pure { a with iterations := some (← whole) }
    | .logLevel => pure { a with logLevel := v }
    | .help | .showTrace | .version => throw .usage
  return { r with arguments := a }

def switch (r : Reading) : Flag → Except Refusal Reading
  | .showTrace => .ok { r with arguments := { r.arguments with showTrace := true } }
  | .help => .error .help
  | .version => .error .version
  | _ => .error .usage

/-- Puts a word, or none, in the place of the run file. -/
def place (r : Reading) (s : Option String) : Reading :=
  if r.placed then { r with surplus := true }
  else { r with placed := true, arguments := { r.arguments with config := s } }

def words (r : Reading) : List Word → Except Refusal Reading
  | [] => .ok r
  | .ambiguous :: _ => .error .usage
  | .unknown :: ws => words { r with surplus := true } ws
  | .option flag (some v) :: ws => do words (← r.assign flag v) ws
  | .option flag none :: .plain v :: ws =>
    if flag.takesValue then do words (← r.assign flag v) ws
    else do words (← r.switch flag) (.plain v :: ws)
  | .option flag none :: ws => do words (← r.switch flag) ws
  | .separator :: .plain s :: ws => words (r.place (some s)) ws
  | .separator :: ws => words (r.place none) ws
  | .plain s :: .separator :: ws => words (r.place (some s)) ws
  | .plain s :: ws => words (r.place (some s)) ws

end Reading

/-- Reads a command line, which has to name either a run file or a problem. -/
def Arguments.read (argv : List String) : Except Refusal Arguments := do
  let words := classifyAll argv
  if words.any fun | .ambiguous => true | _ => false then throw .usage
  let r ← Reading.words {} words
  if r.surplus || r.arguments.config.isNone == r.arguments.problem.isNone then throw .usage
  return r.arguments

end NonlinearCG
