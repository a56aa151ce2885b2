import NonlinearCG.LineSearch.Search

/-!
# Trial steps

Where a line search starts. The first step of a run is scaled to the starting point; every later
one is predicted from the step before by a quadratic fit, at the cost of one evaluation.
-/

namespace NonlinearCG.TrialStep

variable {ω α : Type} [Scalar α]

/-! ## The first step of a run -/

/-- A first step: the share `psi0` of the point's size over the gradient's, or of the value over the
squared gradient where the point is zero, or 1 where that says nothing either. A step that is known
is kept. -/
def initial {m n : Nat} (alpha : α) (x : Vec α m) (g : Vec α n) (value : α) (psi0 : α) :
    Except Breakdown α :=
  let gmax := Vec.infNorm g
  let xmax := Vec.infNorm x
  if !Scalar.isNaN alpha then .ok alpha
  else if gmax == 0.0 then .ok 1.0
  else if xmax != 0.0 then Scalar.divide (psi0 * xmax) gmax
  else if value != 0.0 then Scalar.divide (psi0 * Scalar.abs value) (Vec.dot g g)
  else .ok 1.0

/-- The share of the starting point's size that the first step of a run uses. -/
def initialShare : α := 0.01

/-! ## Later steps -/

/-- How a step is predicted. -/
structure Rule (α : Type) where
  /-- The fraction of the previous step that is tested. -/
  psi1 : α
  /-- Expansion of the previous step where the fit is not convex. -/
  psi2 : α
  /-- Reduction of the test step while its value is not finite. -/
  psi3 : α
  /-- The number of attempts at a finite value. -/
  attempts : Int
  /-- The largest admissible step. -/
  alphamax : α

def Rule.default : Rule α where
  psi1 := 0.2
  psi2 := 2.0
  psi3 := 0.1
  attempts := 52
  alphamax := Scalar.infinity

/-- Reduces a test step until its value is finite. Gives up after the given number of reductions,
without looking at the last value. -/
def reduce (rule : Rule α) (φ : LineFunction ω α) :
    (reductions : Nat) → (calls : Calls) → (t v : α) → Search ω α (Option (α × α) × Calls)
  | 0, calls, _, _ => return (none, calls)
  | reductions + 1, calls, t, v => do
    if Scalar.isFinite v then return (some (t, v), calls)
    let t := rule.psi3 * t
    let v ← Search.valueAt φ t
    Search.countFailure
    reduce rule φ reductions (calls + .ofValue) t v

/-- The quadratic coefficient of the parabola through the sample at the zero step and the value at
a test step. -/
def curvature (start : Sample α) (t v : α) : Except Breakdown α := do
  let chord ← Scalar.divide (v - start.value) t
  Scalar.divide (chord - start.slope) t

/-- The step predicted from a test step with a finite value, and whether it minimizes the fitted
parabola. -/
def fitted (rule : Rule α) (start : Sample α) (alpha t v : α) : Except Breakdown (α × Bool) := do
  let a ← curvature start t v
  if Scalar.isFinite a && 0.0 < a && v ≤ start.value then
    let u := -start.slope / 2.0 / a
    if u ≤ rule.alphamax then return (Scalar.lesser rule.alphamax u, true)
    else return (Scalar.lesser rule.alphamax rule.alphamax, false)
  else if start.value < v then return (Scalar.lesser rule.alphamax t, false)
  else return (Scalar.lesser rule.alphamax (alpha * rule.psi2), false)

/-- Predicts a step from the previous one. The flag says that the step minimizes the quadratic fit;
it also accompanies the zero step, which is the answer where no test step has a finite value. -/
def propose (rule : Rule α) (φ : LineFunction ω α) (alpha : α) :
    Search ω α ((α × Bool) × Calls) := do
  let start ← Search.cached 0
  let t := Scalar.lesser (rule.psi1 * alpha) rule.alphamax
  let v ← Search.valueAt φ t
  let (r, calls) ← reduce rule φ (max 1 (rule.attempts - 1)).toNat .ofValue t v
  match r with
  | none => return ((0.0, true), calls)
  | some (t, v) =>
    let trial ← Search.lift (fitted rule start.toSample alpha t v)
    return (trial, calls)

end NonlinearCG.TrialStep
