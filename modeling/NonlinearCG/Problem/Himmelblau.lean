import NonlinearCG.Scalar

/-!
# Himmelblau's function

A function of two variables with four minimizers,

```text
f x y = (x² + y - 11)² + (x + y² - 7)²
```
-/

namespace NonlinearCG.Himmelblau

variable {α : Type} [Scalar α]

/-- The term whose square comes first. -/
def first (x y : α) : α := x * x + y - 11.0

/-- The term whose square comes second. -/
def second (x y : α) : α := x + y * y - 7.0

def value (x y : α) : α := first x y * first x y + second x y * second x y

def gradient (x y : α) : List α := [
  4.0 * x * first x y + 2.0 * second x y,
  2.0 * first x y + 4.0 * y * second x y]

def initial : List α := [2.0, 2.0]

/-- The minimizers, to six decimal places where they are not exact. -/
def solutions : List (List α) := [
  [3.0, 2.0],
  [-2.805118, 3.131312],
  [-3.779310, -3.283186],
  [3.584428, -1.848126]]

end NonlinearCG.Himmelblau
