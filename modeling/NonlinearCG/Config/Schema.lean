import NonlinearCG.Config.Validation
import NonlinearCG.Options
import NonlinearCG.Problem
import NonlinearCG.Text.Names

/-!
# Run files

What a run file says: the problem, the options of the run, the line search and the preconditioner.
All sections and fields may be missing, and fields that are not known are ignored. The schema is
the same over all scalars and for all readers.
-/

namespace NonlinearCG

/-! ## Sections -/

/-- The names under which a run file asks for a line search. The first two mean the same. -/
inductive LineSearchName where
  | hagerzhang
  | hagerZhang
  | backtracking
  deriving DecidableEq, Repr

namespace LineSearchName

def text : LineSearchName → String
  | hagerzhang => "hagerzhang"
  | hagerZhang => "hager_zhang"
  | backtracking => "backtracking"

def all : List LineSearchName := [backtracking, hagerZhang, hagerzhang]

end LineSearchName

/-- The names under which a run file asks for a preconditioner. The first two mean the same. -/
inductive PreconditionerName where
  | identity
  | none
  | diagonal
  deriving DecidableEq, Repr

namespace PreconditionerName

def text : PreconditionerName → String
  | identity => "identity"
  | none => "none"
  | diagonal => "diagonal"

def all : List PreconditionerName := [diagonal, identity, none]

end PreconditionerName

inductive Weights (α : Type) where
  /-- One weight for all variables. -/
  | uniform (w : α)
  /-- A weight for each variable. -/
  | each (ws : List α)

structure ProblemConfig (α : Type) where
  family : ProblemFamily := .rosenbrock
  dimension : Option Int := none
  /-- The starting point, instead of the problem's own. -/
  start : Option (List α) := none

/-- The line search of a run, with the parameters of both kinds of search. -/
structure LineSearchConfig (α : Type) where
  name : LineSearchName
  delta : α
  sigma : α
  rho : α
  epsilon : α
  gamma : α
  linesearchmax : Int
  c1 : α
  rhohi : α
  rholo : α
  maxIterations : Int

structure PreconditionerConfig (α : Type) where
  name : PreconditionerName := .identity
  weights : Option (Weights α) := none

/-- All that a run file says. -/
structure RunConfig (α : Type) where
  problem : ProblemConfig α
  options : Options α Int
  lineSearch : LineSearchConfig α
  preconditioner : PreconditionerConfig α

/-! ## Validation -/

section

variable {φ α : Type} (r : Readers φ α)

/-- The member of a list that has the name given by a text. -/
def Readers.name {A : Type} (what : String) (all : List A) (name : A → String) (v : Value φ) :
    Except Complaint A := do
  let s ← r.text v
  match Text.choose? all name s with
  | some a => return a
  | none => throw (.refused (Text.unknownName what s (all.map name)))

variable [Scalar α]

def Readers.bounded (bounds : List (Bound α)) (v : Value φ) : Checked α :=
  .ofExcept do Bound.check bounds (← r.real v)

/-- The curvature parameter of the line search, which is compared with the decrease parameter if
that is valid. -/
def Readers.sigma (delta? : Option α) (v : Value φ) : Except Complaint α := do
  let sigma ← Bound.check [.below 1.0, .above 0.0] (← r.real v)
  match delta? with
  | some delta => if sigma < delta then throw (.refused "sigma must be >= delta") else return sigma
  | none => return sigma

/-- The weights of a diagonal preconditioner. A value that is neither a number nor a list of numbers
is reported as both. -/
def Readers.weights (v : Value φ) : Checked (Weights α) :=
  match (Checked.ofExcept (r.real v)).under (.key "float"),
    (r.listOf r.real v).under (.key "list[float]") with
  | .valid w, _ => .valid (.uniform w)
  | .invalid _, .valid ws => .valid (.each ws)
  | .invalid issues, .invalid more => .invalid (issues ++ more)

variable [Foreign φ]

def ProblemConfig.read (entries : List (Value φ × Value φ)) : Checked (ProblemConfig α) :=
  let field {A : Type} := Value.checkField (A := A) entries
  ProblemConfig.mk
    <$> field "name" .rosenbrock
      (.ofExcept ∘ r.name "problem" ProblemFamily.all ProblemFamily.name)
    <*> field "dimension" none (Value.optionally (.ofExcept ∘ r.positive))
    <*> field "initial_x" none (Value.optionally (r.listOf r.real))

def Options.read (entries : List (Value φ × Value φ)) : Checked (Options α Int) :=
  let usual : Options α Int := .default Int.ofNat
  let tolerance (name : String) (x : α) :=
    Value.checkField entries name x (r.bounded [.atLeast 0.0])
  let flag (name : String) := Value.checkField entries name false (.ofExcept ∘ r.truth)
  Options.mk
    <$> tolerance "xtol" usual.xtol
    <*> tolerance "ftol" usual.ftol
    <*> tolerance "grtol" usual.grtol
    <*> Value.checkField entries "iterations" usual.iterations (.ofExcept ∘ r.positive)
    <*> flag "store_trace"
    <*> flag "show_trace"
    <*> flag "extended_trace"
    <*> Value.checkField entries "eta" usual.eta (r.bounded [.above 0.0])

def LineSearchConfig.read (entries : List (Value φ × Value φ)) : Checked (LineSearchConfig α) :=
  let bounded (name : String) (x : α) (bounds : List (Bound α)) :=
    Value.checkField entries name x (r.bounded bounds)
  let count (name : String) (k : Int) := Value.checkField entries name k (.ofExcept ∘ r.positive)
  let delta := bounded "delta" 0.1 [.below 1.0, .above 0.0]
  LineSearchConfig.mk
    <$> Value.checkField entries "type" .hagerzhang
      (.ofExcept ∘ r.name "line search" LineSearchName.all LineSearchName.text)
    <*> delta
    <*> Value.checkField entries "sigma" 0.9 (.ofExcept ∘ r.sigma delta.valid?)
    <*> bounded "rho" 5.0 [.above 1.0]
    <*> bounded "epsilon" 1e-6 [.atLeast 0.0]
    <*> bounded "gamma" 0.66 [.below 1.0, .above 0.0]
    <*> count "linesearchmax" 50
    <*> bounded "c1" 1e-4 [.below 1.0, .above 0.0]
    <*> bounded "rhohi" 0.5 [.below 1.0, .above 0.0]
    <*> bounded "rholo" 0.1 [.below 1.0, .above 0.0]
    <*> count "max_iterations" 1000

def PreconditionerConfig.read (entries : List (Value φ × Value φ)) :
    Checked (PreconditionerConfig α) :=
  PreconditionerConfig.mk
    <$> Value.checkField entries "type" .identity
      (.ofExcept ∘ r.name "preconditioner" PreconditionerName.all PreconditionerName.text)
    <*> Value.checkField entries "weights" none (Value.optionally r.weights)

/-- A section of a run file. A section that is missing is like one without entries. -/
def readSection {A : Type} (entries : List (Value φ × Value φ)) (name : String)
    (read : List (Value φ × Value φ) → Checked A) : Checked A :=
  (Value.asSection read ((Value.field? name entries).getD (.mapping []))).under (.key name)

def RunConfig.read : Value φ → Checked (RunConfig α) :=
  Value.asSection fun entries ↦
    RunConfig.mk
      <$> readSection entries "problem" (ProblemConfig.read r)
      <*> readSection entries "options" (Options.read r)
      <*> readSection entries "linesearch" (LineSearchConfig.read r)
      <*> readSection entries "preconditioner" (PreconditionerConfig.read r)

end

end NonlinearCG
