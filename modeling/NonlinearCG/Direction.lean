import NonlinearCG.Preconditioner

/-!
# Search directions

The direction of the next step is a combination of the steepest descent direction `-P g` and the
direction `s` of the last step. With `y = g - g'` the change of the gradient,

```text
η_k  = η (s · g') / (sᵀ P⁻¹ s)
β_k  = (y · P g - (yᵀ P y)(g · s) / (y · s)) / (y · s)
s    ← max(β_k, η_k) s - P g
```

The quotients are not guarded. A vanishing denominator makes the direction infinite or undefined,
and the next restart test replaces a direction that does not lead downhill by `-g`.
-/

namespace NonlinearCG

variable {α : Type} [Scalar α] {n : Nat}

/-! ## The restart test -/

/-- A direction that has been tested for descent. -/
structure Descent (α : Type) (n : Nat) where
  direction : Vec α n
  /-- The slope along the direction. -/
  slope : α
  /-- The slope along the direction that was replaced, if one was. -/
  replaced : Option α
  /-- The slope along the direction is negative. -/
  recovered : Bool

/-- Tests whether a direction leads downhill, and replaces it by steepest descent if not. -/
def descentRestart (g s : Vec α n) : Descent α n :=
  let slope := Vec.dot g s
  if slope < 0.0 then ⟨s, slope, none, true⟩
  else
    let s' := Vec.neg g
    let slope' := Vec.dot g s'
    ⟨s', slope', some slope, slope' < 0.0⟩

/-! ## The update -/

/-- A new direction with the quantities it was computed from. -/
structure DirectionUpdate (α : Type) (n : Nat) where
  direction : Vec α n
  /-- The weight of the last direction. -/
  beta : α
  /-- The change of the gradient. -/
  change : Vec α n
  /-- The preconditioned gradient. -/
  preconditioned : Vec α n

/-- The direction after one along `s` that led from gradient `g'` to `g`. -/
def updateDirection (P : Operator α n) (eta : α) (s g g' : Vec α n) : DirectionUpdate α n :=
  let etak := eta * Vec.dot s g' / P.inverseDot s s
  let y := Vec.sub g g'
  let ys := Vec.dot y s
  let pg := P.forward g
  let betak := (Vec.dot y pg - P.forwardDot y y * Vec.dot g s / ys) / ys
  let beta := Scalar.maximum betak etak
  { direction := Vector.zipWith (fun si pi ↦ si * beta - pi) s pg
    beta
    change := y
    preconditioned := pg }

end NonlinearCG
