import NonlinearCG.Minimizer

/-!
# Functions of arrays

What a caller minimizes is a function of arrays with its gradient, which has the shape of the point.
The optimizer works on the flat vector of the entries, and each evaluation gets the array that such
a vector stands for. For arrays with one axis nothing else changes. For all others the function gets
a combined evaluation, in which its own combined evaluation is wrapped, or else the default one.

A gradient may also hand over an array of its own. Its entries are then copied, whatever its shape,
as long as their number is right.
-/

namespace NonlinearCG

/-- A function of arrays with its gradient. -/
structure Evaluator (ω α : Type) where
  /-- The value at a point. -/
  value : Tensor α → Eval ω α
  /-- The entries of the gradient at a point. -/
  gradient : (x : Tensor α) → Eval ω (Vec α x.shape.size)
  /-- Value and gradient at a point in one evaluation, where there is one. -/
  combined : Option ((x : Tensor α) → Eval ω (α × Vec α x.shape.size)) := none

namespace Evaluator

variable {ω α : Type}

/-- A function with a gradient that hands over an array of its own. -/
def ofGradient (value : Tensor α → Eval ω α) (gradient : Tensor α → Eval ω (Tensor α)) :
    Evaluator ω α where
  value
  gradient x := do
    let g ← gradient x
    if h : g.shape.size = x.shape.size then return g.entries.cast h else throw .shapeMismatch

/-- The function of arrays with `n` entries, of any shape, that has the evaluations of an
objective. -/
def ofObjective {n : Nat} (f : Objective ω α n) : Evaluator ω α where
  value x := if h : x.shape.size = n then f.value (x.entries.cast h) else throw .shapeMismatch
  gradient x :=
    if h : x.shape.size = n then (·.cast h.symm) <$> f.gradient (x.entries.cast h)
    else throw .shapeMismatch
  combined := f.combined.map fun combined x ↦
    if h : x.shape.size = n then Prod.map id (·.cast h.symm) <$> combined (x.entries.cast h)
    else throw .shapeMismatch

/-- The evaluations on the arrays of a shape, of the vectors that stand for them. -/
def onShape (e : Evaluator ω α) (s : Shape) : Objective ω α s.size where
  value v := e.value ⟨s, v⟩
  gradient v := e.gradient ⟨s, v⟩
  combined := e.combined.map fun combined v ↦ combined ⟨s, v⟩

/-- The function as the optimizer gets it. -/
def flatten (e : Evaluator ω α) (s : Shape) : Objective ω α s.size :=
  if s.length = 1 then e.onShape s else { e.onShape s with combined := some (e.onShape s).both }

end Evaluator

/-- Minimizes a function of arrays from an array. -/
def Minimizer.minimizeArray {ω α : Type} [Scalar α] (m : Minimizer ω α) (e : Evaluator ω α)
    (x : Tensor α) (session : Session ω α) : Report α × Session ω α :=
  m.minimize x (e.flatten x.shape) session

end NonlinearCG
