import NonlinearCG.Minimizer
import NonlinearCG.Text.ArrayText

/-!
# Reports

The texts that tell a user how a run went: the rows of the table printed while it runs, and the
summary of its results.
-/

namespace NonlinearCG

open Text

/-! ## States -/

def Datum.render : Datum Float → String
  | number x => plain x
  | array ⟨[], entries⟩ => plain (entries.toList.headD 0.0)
  | array t => Text.array 8 t
  | integer k => toString k
  | flag b => truth b
  | text s => s
  | absent => "None"

/-- The row of a state, followed by a line for each entry of the extended trace. -/
def State.render (s : State Float) : String :=
  let row := rightAligned 6 (toString s.iteration) ++ "   " ++
    rightAligned 14 (scientific 6 s.value) ++ "   " ++
    rightAligned 14 (scientific 6 s.gradnorm)
  "\n".intercalate (row :: s.metadata.map fun (key, value) ↦ s!" * {key}: {value.render}")

def tableHeading : String :=
  "Iter     Function value   Gradient norm \n" ++
    "------   --------------   --------------"

/-- The table of states, with a heading unless it is empty. -/
def table (states : Array (State Float)) : String :=
  if states.isEmpty then ""
  else String.join ((tableHeading :: (states.toList.map State.render)).map (· ++ "\n"))

/-! ## Line searches -/

def Cache.text (c : Cache Float) : String :=
  let column (f : Sample Float → Float) : String :=
    "[" ++ ", ".intercalate (c.samples.toList.map fun s ↦ plain (f s)) ++ "]"
  s!"LineSearchResults(alpha={column Sample.step}, value={column Sample.value}, " ++
    s!"slope={column Sample.slope}, nfailures={c.failures})"

/-! ## Results -/

def Results.summary (r : Results Float) : String :=
  "\n".intercalate [
    "Results of Optimization Algorithm",
    " * Algorithm: " ++ Results.method,
    " * Starting Point: " ++ Text.array 6 r.start,
    " * Minimum: " ++ Text.array 6 r.minimum,
    " * Value of Function at Minimum: " ++ scientific 6 r.value,
    s!" * Iterations: {r.iterations}",
    " * Convergence: " ++ truth r.converged,
    s!"   * |x - x'| < {scientific 1 r.tolerances.xtol}: {truth r.verdict.x}",
    s!"   * |f(x) - f(x')| / |f(x)| < {scientific 1 r.tolerances.ftol}: {truth r.verdict.f}",
    s!"   * |g(x)| < {scientific 1 r.tolerances.grtol}: {truth r.verdict.gradient}",
    "   * Exceeded Maximum Number of Iterations: " ++ truth r.exhausted,
    "   * Termination: " ++ r.termination.text,
    s!" * Objective Function Calls: {r.calls.values}",
    s!" * Gradient Calls: {r.calls.gradients}"]

end NonlinearCG
