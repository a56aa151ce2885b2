import NonlinearCG.Scalar

/-!
# The extended Rosenbrock function

A curved valley in any number of variables,

```text
f x = ∑ᵢ 100 (xᵢ₊₁ - xᵢ²)² + (1 - xᵢ)²
```

over pairs of neighbouring variables. It is zero at `(1, …, 1)` and positive elsewhere.
-/

namespace NonlinearCG.Rosenbrock

variable {α : Type} [Scalar α]

/-- The deviation of a pair of neighbours from the bottom of the valley. -/
def offset (x y : α) : α := y - x * x

/-- The term of a pair of neighbours. -/
def term (x y : α) : α :=
  100.0 * (offset x y * offset x y) + (1.0 - x) * (1.0 - x)

def value (x : List α) : α := (List.zipWith term x x.tail).foldl (· + ·) 0.0

/-- The derivative of a pair's term by its first variable. -/
def slopeLeft (x y : α) : α := -400.0 * x * offset x y - 2.0 * (1.0 - x)

/-- The derivative of a pair's term by its second variable. -/
def slopeRight (x y : α) : α := 200.0 * offset x y

/-- The gradient from one variable on, where `carry` is the contribution of the pair before it. -/
def gradientFrom (carry : α) : List α → List α
  | [] => []
  | [_] => [0.0 + carry]
  | x :: y :: rest => (0.0 + slopeLeft x y + carry) :: gradientFrom (slopeRight x y) (y :: rest)

def gradient (x : List α) : List α := gradientFrom 0.0 x

def initial (n : Nat) : List α := (List.range n).map fun i ↦ if i % 2 = 0 then -1.2 else 1.0

def solution (n : Nat) : List α := List.replicate n 1.0

end NonlinearCG.Rosenbrock
