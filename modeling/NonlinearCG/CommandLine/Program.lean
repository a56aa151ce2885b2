import NonlinearCG.CommandLine.Arguments
import NonlinearCG.Config.RunFile
import NonlinearCG.Text.Report

/-!
# The command line program

What the program prints and how it ends, from its arguments and the files that it may read, for any
format of run files. It ends with status 0 if the run converged, with 1 if it did not and with 2 on
an error. Some failures are not errors that the program handles; they end it abnormally.
-/

namespace NonlinearCG

/-! ## Endings -/

/-- A failure that the program does not handle. -/
inductive Crash where
  /-- The level of the log has no known name. -/
  | logLevel
  /-- The arguments lead to no run. -/
  | job (e : JobError)
  /-- The run has no results. -/
  | run (b : Breakdown)

/-- How the program ends. -/
inductive Exit where
  /-- With a status, after a run or an error. -/
  | returned (status : Nat)
  /-- With a status, while the arguments are read. -/
  | refused (status : Nat)
  /-- Abnormally. -/
  | crashed (crash : Crash)

/-- What the program prints and how it ends. -/
structure Transcript where
  stdout : String := ""
  stderr : String := ""
  exit : Exit

/-! ## Texts -/

def version : String := "pycg 0.1.0"

def helpText : String :=
  let line (flag : Flag) : String := s!"  {flag.name}: {flag.description}\n"
  "Minimize a test problem with preconditioned nonlinear conjugate gradient.\n\n" ++
    "  config: YAML run file\n" ++ String.join (Flag.all.map line)

def quotedPath (path : String) : String :=
  let quote := if path.contains '\'' && !path.contains '"' then "\"" else "'"
  quote ++ path ++ quote

/-- The message about a run file that describes no run. -/
def BuildError.report : BuildError Float → String
  | weights given dimension =>
    "operands could not be broadcast together with remapped shapes [original->remapped]: " ++
      s!"({given},)  and requested shape ({dimension},)"
  | e => e.message.getD ""

/-- The message about arguments that lead to no run, if the program handles the failure. -/
def JobError.message? (path : String) : JobError → Option String
  | load .missing => some ("[Errno 2] No such file or directory: " ++ quotedPath path)
  | load (.undecodable message) | load (.malformed (.noValue message)) => some message
  | load .directory | load .locked | load (.malformed _) => none
  | merge .notMapping => none
  | merge (.notPair i k) =>
    some s!"dictionary update sequence element #{i} has length {k}; 2 is required"
  | invalid issues => some ("\n".intercalate (invalidHeading :: issues.map Issue.text))
  | build e => some e.report

/-- The message about a run that broke down, if the program handles the failure. -/
def Breakdown.message? : Breakdown → Option String
  | shapeMismatch => some "operands could not be broadcast together"
  | notANumber => some "could not convert string to float"
  | singular => some "Singular matrix"
  | divisionByZero | overflow | missingEntry | wrongKind | endlessHalving => none

def logLevels : List String :=
  ["CRITICAL", "FATAL", "ERROR", "WARN", "WARNING", "INFO", "DEBUG", "NOTSET"]

/-! ## The run that is asked for -/

section

variable {φ : Type}

/-- The options that the arguments override. -/
def Arguments.overrides (a : Arguments) : List (String × Value φ) :=
  (a.iterations.map fun k ↦ ("iterations", Value.integer k)).toList ++
    if a.showTrace then [("show_trace", .boolean true)] else []

/-- The run file that the arguments stand for if they name a problem. -/
def Arguments.document (a : Arguments) (problem : String) : Value φ :=
  let dimension := (a.dimension.map fun k ↦ (.text "dimension", .integer k)).toList
  .mapping [
    (.text "problem", .mapping ((.text "name", .text problem) :: dimension)),
    (.text "options", .mapping (a.overrides.map fun (name, v) ↦ (.text name, v)))]

def Arguments.job [Foreign φ] (a : Arguments) (format : Format φ) (files : String → FileContent) :
    Except JobError (Job Float) :=
  match a.config with
  | some path => Job.ofFile format (files path) a.overrides
  | none => Job.ofValue format (a.document (a.problem.getD ""))

end

/-! ## The program -/

namespace Transcript

def failing (stdout message : String) : Transcript where
  stdout := stdout
  stderr := "Error: " ++ message ++ "\n"
  exit := .returned 2

def ofJobError (path : String) (e : JobError) : Transcript :=
  match e.message? path with
  | some message => failing "" message
  | none => { exit := .crashed (.job e) }

def ofReport (report : Report Float) : Transcript :=
  let displayed := table report.displayed
  match report.outcome with
  | .ok results =>
    { stdout := displayed ++ results.summary ++ "\n"
      exit := .returned (if results.converged then 0 else 1) }
  | .error (.optimizer e) => failing displayed e.cause.message
  | .error (.breakdown b) => match b.message? with
    | some message => failing displayed message
    | none => { stdout := displayed, exit := .crashed (.run b) }

end Transcript

/-- The program, with the format of run files and the files that it may read. -/
def program {φ : Type} [Foreign φ] (format : Format φ) (files : String → FileContent)
    (argv : List String) : Transcript :=
  match Arguments.read argv with
  | .error .usage => { stderr := helpText, exit := .refused 2 }
  | .error .help => { stdout := helpText, exit := .refused 0 }
  | .error .version => { stdout := version ++ "\n", exit := .refused 0 }
  | .ok arguments =>
    if !logLevels.contains arguments.logLevel.toUpper then { exit := .crashed .logLevel }
    else match arguments.job format files with
      | .error e => .ofJobError (arguments.config.getD "") e
      | .ok job => .ofReport job.run

end NonlinearCG
