import NonlinearCG.Config.Plan
import NonlinearCG.Text.Message

/-!
# Messages about run files
-/

namespace NonlinearCG

def Plan.name (p : Plan Float) : String :=
  (p.options.map Numeral.real Numeral.integer).minimizerName (p.strategy.map Numeral.real).name
    p.weighting.name

/-- The message about a run file that describes no run. Weights that do not fit are refused without
one. -/
def BuildError.message : BuildError Float → Option String
  | problem e => e.message
  | startSize given p =>
    some s!"initial_x has {given} entries, problem {p.name} needs {p.dimension}"
  | strategy s => (s.map Numeral.real).refusal?
  | weights .. => none
  | option o d => d.message (o.map .real .integer)

def invalidHeading : String := "Invalid configuration:"

def PathStep.text : PathStep → String
  | key name => name
  | index i => toString i

def Issue.text (issue : Issue) : String :=
  let reason := match issue.complaint with
    | .refused reason => ": " ++ reason
    | _ => ""
  ".".intercalate (issue.path.map PathStep.text) ++ ": " ++ issue.complaint.code ++ reason

end NonlinearCG
