import NonlinearCG.Scalar

/-!
# The extended Powell singular function

A function of blocks of four variables, each of which contributes

```text
(x₁ + 10 x₂)² + 5 (x₃ - x₄)² + (x₂ - 2 x₃)⁴ + 10 (x₁ - x₄)⁴
```

It is zero at the origin, where its second derivative is singular, and positive elsewhere.
-/

namespace NonlinearCG.Powell

variable {α : Type} [Scalar α]

/-- Four variables. -/
structure Block (α : Type) where
  x₁ : α
  x₂ : α
  x₃ : α
  x₄ : α

/-- The blocks of a point, unless variables are left over. -/
def blocks? : List α → Option (List (Block α))
  | [] => some []
  | x₁ :: x₂ :: x₃ :: x₄ :: rest => (blocks? rest).map (⟨x₁, x₂, x₃, x₄⟩ :: ·)
  | _ => none

private def cube (t : α) : α := t * t * t

namespace Block

/-- The four forms that the block's terms are powers of. -/
def form₁ (b : Block α) : α := b.x₁ + 10.0 * b.x₂

@[inherit_doc form₁]
def form₂ (b : Block α) : α := b.x₃ - b.x₄

@[inherit_doc form₁]
def form₃ (b : Block α) : α := b.x₂ - 2.0 * b.x₃

@[inherit_doc form₁]
def form₄ (b : Block α) : α := b.x₁ - b.x₄

/-- The contribution to the value. -/
def value (b : Block α) : α :=
  let s₃ := b.form₃ * b.form₃
  let s₄ := b.form₄ * b.form₄
  b.form₁ * b.form₁ + 5.0 * (b.form₂ * b.form₂) + s₃ * s₃ + 10.0 * (s₄ * s₄)

/-- The derivatives by the four variables. -/
def gradient (b : Block α) : List α := [
  2.0 * b.form₁ + 40.0 * cube b.form₄,
  20.0 * b.form₁ + 4.0 * cube b.form₃,
  10.0 * b.form₂ - 8.0 * cube b.form₃,
  -10.0 * b.form₂ - 40.0 * cube b.form₄]

end Block

/-- The value at a point given by its blocks. -/
def value (bs : List (Block α)) : α := (bs.map Block.value).foldl (· + ·) 0.0

/-- The gradient at a point given by its blocks. -/
def gradient (bs : List (Block α)) : List α := bs.flatMap Block.gradient

def initial (n : Nat) : List α := (List.replicate (n / 4) [3.0, -1.0, 0.0, 1.0]).flatten

def solution (n : Nat) : List α := List.replicate n 0.0

end NonlinearCG.Powell
