import NonlinearCG.Mat

/-!
# Quadratic functions

The function `f x = ½ xᵀ A x - bᵀ x` of a symmetric matrix `A` and a vector `b`. Where `A` is
positive definite its only minimizer is the solution of `A x = b`.
-/

namespace NonlinearCG

/-- A quadratic function of `n` variables. -/
structure Quadratic (α : Type) (n : Nat) where
  A : Mat α n
  b : Vec α n

namespace Quadratic

variable {α : Type} [Scalar α] {n : Nat}

/-- The sum of the squares of the variables. -/
def sphere (n : Nat) : Quadratic α n := ⟨.scalar n 2.0, Vector.replicate n 0.0⟩

def value (q : Quadratic α n) (x : Vec α n) : α :=
  Vec.dot (x.map (0.5 * ·)) (q.A.mulVec x) - Vec.dot q.b x

def gradient (q : Quadratic α n) (x : Vec α n) : Vec α n := Vec.sub (q.A.mulVec x) q.b

def initial (n : Nat) : List α := (List.range n).map fun i ↦ Scalar.ofNat (i + 1)

/-- The point where the gradient vanishes, unless elimination finds the matrix singular. -/
def solution? (q : Quadratic α n) : Option (Vec α n) := q.A.solve q.b

end Quadratic

end NonlinearCG
