import NonlinearCG.Minimizer
import NonlinearCG.Text.Names

/-!
# Methods by name

Users may ask for the method of minimization by name. There is one method, with two names. An
objective given in this way has no combined evaluation.
-/

namespace NonlinearCG

/-- The methods of minimization. -/
inductive Method where
  | conjugateGradient
  deriving DecidableEq, Repr

namespace Method

def names : List (String × Method) :=
  [("cg", conjugateGradient), ("conjugate_gradient", conjugateGradient)]

/-- The method with a name, or the message about a name that no method has. -/
def ofName (name : String) : Except String Method :=
  match Text.choose? names Prod.fst name with
  | some (_, method) => .ok method
  | none => .error (Text.unknownName "method" name (names.map Prod.fst))

/-- Minimizes by a method an objective that is evaluated separately. -/
def minimize {ω α : Type} [Scalar α] (_ : Method) (m : Minimizer ω α) (x : Tensor α)
    (f : Objective ω α x.shape.size) (session : Session ω α) : Report α × Session ω α :=
  m.minimize x f.separate session

end Method

end NonlinearCG
