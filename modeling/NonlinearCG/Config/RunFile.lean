import NonlinearCG.Config.Message
import NonlinearCG.Yaml.Parser

/-!
# From a run file to its run

A run file is read, overrides are merged into its options section, and the run that it describes is
built. Each stage has its own way to fail. The format of run files is a parameter.
-/

namespace NonlinearCG

/-! ## Formats -/

/-- A format of run files: how their texts are read as documents, and how values in documents are
read. -/
structure Format (φ : Type) where
  parse : String → Except Yaml.ReadError (Value φ)
  readers : Readers φ Float

/-- The format that is read here, without values of further kinds. -/
def Yaml.format : Format Empty where
  parse := Yaml.read
  readers := PlainValue.readers

section

variable {φ : Type} [Foreign φ]

/-! ## Reading -/

/-- What a path leads to. -/
inductive FileContent where
  | missing
  | directory
  /-- A file that cannot be opened. -/
  | locked
  /-- Bytes that are no text, and the message about them. -/
  | undecodable (message : String)
  | text (s : String)

/-- Why a run file cannot be read. -/
inductive LoadError where
  | missing
  | directory
  | locked
  | undecodable (message : String)
  | malformed (e : Yaml.ReadError)

/-- The document in a run file. A document that counts as false is one without sections. -/
def FileContent.load (format : Format φ) : FileContent → Except LoadError (Value φ)
  | missing => .error .missing
  | directory => .error .directory
  | locked => .error .locked
  | undecodable message => .error (.undecodable message)
  | text s => match format.parse s with
    | .error e => .error (.malformed e)
    | .ok v => .ok (if v.truthy then v else .mapping [])

/-! ## Overriding options -/

/-- Why options cannot be overridden. -/
inductive MergeError where
  /-- The document or its options section is not a mapping. -/
  | notMapping
  /-- The document is a sequence, with a member of the given length that is not a pair. -/
  | notPair (position length : Nat)
  deriving DecidableEq, Repr

/-- The entries that a sequence of pairs stands for. -/
def pairEntries (i : Nat) : List (Value φ) → Except MergeError (List (Value φ × Value φ))
  | [] => .ok []
  | v :: vs => do
    match v.members? with
    | none => throw .notMapping
    | some [key, value] =>
      if key.isKey then return (key, value) :: (← pairEntries (i + 1) vs) else throw .notMapping
    | some members => throw (.notPair i members.length)

/-- The entries of a mapping, or of a sequence of pairs. -/
def Value.toEntries (v : Value φ) : Except MergeError (List (Value φ × Value φ)) :=
  match v.entries?, v.members? with
  | some entries, _ => .ok entries
  | none, some members => (pairEntries 0 members).map distinct
  | none, none => .error .notMapping

/-- The entries of an options section. One that counts as false has none. -/
def Value.toOptions (v : Value φ) : Except MergeError (List (Value φ × Value φ)) :=
  match v.truthy, v.entries? with
  | false, _ => .ok []
  | true, some entries => .ok entries
  | true, none => .error .notMapping

/-- The document with overrides in its options section. Without overrides it stays as it is. -/
def overrideOptions (overrides : List (String × Value φ)) (document : Value φ) :
    Except MergeError (Value φ) :=
  if overrides.isEmpty then .ok document
  else do
    let entries ← document.toEntries
    let options ← (Value.field? "options" entries).elim (.ok []) Value.toOptions
    let merged := overrides.foldl (fun kept (name, v) ↦ Value.insert (.text name) v kept) options
    return .mapping (Value.insert (.text "options") (.mapping merged) entries)

/-! ## Running -/

/-- Why a run file leads to no run. -/
inductive JobError where
  | load (e : LoadError)
  | merge (e : MergeError)
  | invalid (issues : List Issue)
  | build (e : BuildError Float)

def Job.ofValue (format : Format φ) (document : Value φ) : Except JobError (Job Float) :=
  match RunConfig.read format.readers document with
  | .invalid issues => .error (.invalid issues)
  | .valid config => config.job.mapError .build

def Job.ofFile (format : Format φ) (file : FileContent) (overrides : List (String × Value φ)) :
    Except JobError (Job Float) := do
  let document ← (file.load format).mapError .load
  let document ← (overrideOptions overrides document).mapError .merge
  Job.ofValue format document

end

end NonlinearCG
