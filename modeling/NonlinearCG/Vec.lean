import NonlinearCG.Scalar

/-!
# Vectors

Vectors of a fixed length over the scalars, with the reductions the optimizer needs. Sums run from
left to right, starting at zero.
-/

namespace NonlinearCG

/-- Vectors of `n` scalars. -/
abbrev Vec (α : Type) (n : Nat) := Vector α n

namespace Vec

variable {α : Type} [Scalar α] {n : Nat}

def dot (a b : Vec α n) : α := (Vector.zipWith (· * ·) a b).foldl (· + ·) 0.0

/-- The largest absolute component, zero for the empty vector. -/
def infNorm (a : Vec α n) : α := (a.map Scalar.abs).foldl Scalar.maximum 0.0

def sub (a b : Vec α n) : Vec α n := Vector.zipWith (· - ·) a b

/-- The largest absolute componentwise difference. -/
def maxDiff (a b : Vec α n) : α := infNorm (sub a b)

def neg (a : Vec α n) : Vec α n := a.map (- ·)

def allFinite (a : Vec α n) : Bool := a.all Scalar.isFinite

/-- The positions of the components that are not finite, in increasing order. -/
def nonFinite (a : Vec α n) : List Nat :=
  (List.finRange n).filterMap fun i ↦ if Scalar.isFinite (a.get i) then none else some i.val

/-- The vector with `n` entries that an array of this size, or a single entry, stands for. -/
def spreadTo {α : Type} (n : Nat) (a : Array α) : Except Breakdown (Vec α n) :=
  if h : a.size = n then .ok ⟨a, h⟩
  else if h : a.size = 1 then .ok (Vector.replicate n a[0])
  else .error .shapeMismatch

/-- The point `t` along the ray from `x` in the direction `s`. -/
def along (x s : Vec α n) (t : α) : Vec α n := Vector.zipWith (fun si xi ↦ si * t + xi) s x

/-- The vector moved by `t` times the direction `s`. -/
def moved (x s : Vec α n) (t : α) : Vec α n := Vector.zipWith (fun xi si ↦ xi + si * t) x s

end Vec

end NonlinearCG
