import NonlinearCG.Options
import NonlinearCG.Scalar.Double
import NonlinearCG.Value

/-!
# Options from loose data

The options of a run as a caller may hand them over without a schema. Every value is converted to
the kind that its option has, and nothing is tested against a range.
-/

namespace NonlinearCG.Options

/-- The options with the values of the given entries, converted. Other entries are ignored. -/
def convert (entries : List (PlainValue × PlainValue)) : Except Breakdown (Options Float Int) := do
  let usual : Options Float Int := default Int.ofNat
  let field {A : Type} (name : String) (read : PlainValue → Except Breakdown A) (x : A) :=
    (Value.field? name entries).elim (.ok x) read
  let flag (name : String) := field name (fun v ↦ .ok v.truthy) false
  return {
    xtol := ← field "xtol" Value.toReal usual.xtol
    ftol := ← field "ftol" Value.toReal usual.ftol
    grtol := ← field "grtol" Value.toReal usual.grtol
    iterations := ← field "iterations" Value.toInteger usual.iterations
    storeTrace := ← flag "store_trace"
    showTrace := ← flag "show_trace"
    extendedTrace := ← flag "extended_trace"
    eta := ← field "eta" Value.toReal usual.eta }

end NonlinearCG.Options
