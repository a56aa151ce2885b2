import Mathlib
import NonlinearCG.CommandLine.Program
import NonlinearCG.Proofs.Config.Overrides
import NonlinearCG.Proofs.Outcome

/-!
# The exit status

Once its arguments are read, the program ends with the status of a run that returned, with status 2
after a failure that it handles, or abnormally. What it handles is decided failure by failure. The
others are a name of a log level that is not known, a run file that cannot be opened or is no
document, some breakdowns of the arithmetic, and a document that refuses overrides where there are
any. That document ends in status 2 without the overrides.

All of this holds for every format of run files: for every way to read texts as documents, with
values of further kinds in them, and for every way to read values.
-/

namespace NonlinearCG

open Value

/-! ## Failures -/

/-- The program handles the failure to read a text as a document. -/
def Yaml.ReadError.Handled : Yaml.ReadError → Prop
  | noValue _ => True
  | characters | tokens | grammar | documents | keys | other => False

/-- The program handles the failure to come to a run. -/
def JobError.Handled : JobError → Prop
  | load .missing | load (.undecodable _) | merge (.notPair ..) | invalid _ | build _ => True
  | load .directory | load .locked | merge .notMapping => False
  | load (.malformed e) => e.Handled

/-- The program handles the failure of a run. -/
def RunError.Handled {α : Type} : RunError α → Prop
  | optimizer _ => True
  | breakdown .shapeMismatch | breakdown .notANumber | breakdown .singular => True
  | breakdown .divisionByZero | breakdown .overflow | breakdown .missingEntry
  | breakdown .wrongKind | breakdown .endlessHalving => False

section Jobs

variable {φ : Type} [Foreign φ] {format : Format φ} {file : FileContent}
  {overrides : List (String × Value φ)} {document : Value φ}

end Jobs

/-! ## The end of the program -/

section Program

variable {φ : Type} [Foreign φ] {format : Format φ} {files : String → FileContent}
  {argv : List String} {a : Arguments}

/-- The name of the level of the log is known. -/
def Arguments.LevelKnown (a : Arguments) : Prop := logLevels.contains a.logLevel.toUpper = true

/-- How the program ends once its arguments are read. -/
inductive Arguments.Ends (a : Arguments) (format : Format φ) (files : String → FileContent) :
    Exit → Prop
  | unknownLevel : ¬a.LevelKnown → Ends a format files (.crashed .logLevel)
  | noJob {e : JobError} : a.LevelKnown → a.job format files = .error e → e.Handled →
      Ends a format files (.returned 2)
  | abandoned {e : JobError} : a.LevelKnown → a.job format files = .error e → ¬e.Handled →
      Ends a format files (.crashed (.job e))
  | failed {job : Job Float} {e : RunError Float} : a.LevelKnown → a.job format files = .ok job →
      job.run.outcome = .error e → e.Handled → Ends a format files (.returned 2)
  | brokenDown {job : Job Float} {b : Breakdown} : a.LevelKnown → a.job format files = .ok job →
      job.run.outcome = .error (.breakdown b) → ¬(RunError.breakdown (α := Float) b).Handled →
      Ends a format files (.crashed (.run b))
  | ran {job : Job Float} {r : Results Float} : a.LevelKnown → a.job format files = .ok job →
      job.run.outcome = .ok r → Ends a format files (.returned (if r.converged then 0 else 1))

section Reading

variable (hread : Arguments.read argv = .ok a)
include hread

end Reading

/-! ## A run file of one number -/

end Program

end NonlinearCG
