import NonlinearCG.Options
import NonlinearCG.Text.Number
import NonlinearCG.Value

/-!
# Numbers as given

A number that a caller wrote down is an integer or a real. The difference does not matter to the
optimizer but to the texts: an integer is shown without a point.
-/

namespace NonlinearCG

/-- A number as it was given. -/
inductive Numeral where
  | integer (k : Int)
  | real (x : Float)

namespace Numeral

/-- The nearest double. -/
def toFloat : Numeral → Float
  | integer k => Text.nearest k
  | real x => x

def text : Numeral → String
  | integer k => toString k
  | real x => Text.plain x

/-- The bound on the number of iterations that a number stands for, if it is positive. The loop goes
on while fewer iterations have been made than the number says, so a fraction is rounded up, and a
value that is no number allows none. No run is as long as an infinite bound. -/
def limit? : Numeral → Option Limit
  | integer k => if k ≤ 0 then none else some ⟨k.toNat, true⟩
  | real x =>
    if x ≤ 0.0 then none
    else if x.isNaN then some ⟨0, false⟩
    else if x.isInf then some ⟨Nat.pow 2 1024, false⟩
    else
      let r := (Text.Dyadic.ofFloat x).ratio
      let steps := (r.num + r.den - 1) / r.den
      some ⟨steps, steps * r.den == r.num⟩

end Numeral

end NonlinearCG
