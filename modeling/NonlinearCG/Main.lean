import NonlinearCG.CommandLine.Program

/-!
# Entry point

Reads the run file that the command line names, and prints what the program prints.
-/

open NonlinearCG

/-- What a path leads to on this machine. -/
def readContent (path : String) : IO FileContent := do
  try
    match String.fromUTF8? (← IO.FS.readBinFile path) with
    | some s => return .text s
    | none => return .undecodable "the file is not encoded in UTF-8"
  catch
    | .inappropriateType .. => return .directory
    | .noFileOrDirectory .. => return .missing
    | _ => return .locked

/-- Runs the program. A failure that it does not handle ends it with status 1. -/
def main (argv : List String) : IO UInt32 := do
  let file ← match Arguments.read argv with
    | .ok { config := some path, .. } => readContent path
    | _ => pure .missing
  let transcript := program Yaml.format (fun _ ↦ file) argv
  IO.print transcript.stdout
  IO.eprint transcript.stderr
  match transcript.exit with
  | .returned status | .refused status => return status.toUInt32
  | .crashed _ => return 1
