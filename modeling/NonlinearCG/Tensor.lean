import NonlinearCG.Vec

/-!
# Shaped arrays

A caller may hold the variables in an array of any shape. The optimizer works on the flat vector of
its entries in row-major order; this module goes back and forth between the two, and to nested
lists, which are how arrays are written down.

Two arrays are combined entry by entry after *spreading* them to a common shape: shapes are aligned
at their last axis, and an axis of length one is repeated.
-/

namespace NonlinearCG

/-- The lengths of the axes of an array. -/
abbrev Shape := List Nat

namespace Shape

def size : Shape → Nat
  | [] => 1
  | k :: s => k * size s

/-- The common shape of two shapes given by their axes from the last to the first. -/
private def meetReversed : Shape → Shape → Option Shape
  | [], t => some t
  | s, [] => some s
  | i :: s, j :: t => do
    let k ← if i = j then some i else if i = 1 then some j else if j = 1 then some i else none
    return k :: (← meetReversed s t)

/-- The shape to which arrays of two shapes are spread, if there is one. -/
def meet? (s t : Shape) : Option Shape := (meetReversed s.reverse t.reverse).map List.reverse

/-- The coordinates of a position in row-major order. -/
def coordinates : Shape → Nat → List Nat
  | [], _ => []
  | _ :: s, i => i / size s :: coordinates s (i % size s)

/-- The position of coordinates in row-major order, where an axis of length one takes any
coordinate. -/
def position : Shape → List Nat → Nat
  | k :: s, c :: cs => (if k = 1 then 0 else c) * size s + position s cs
  | _, _ => 0

/-- A shape as it appears in messages. -/
def text : Shape → String
  | [k] => s!"({k},)"
  | s => "(" ++ ", ".intercalate (s.map toString) ++ ")"

end Shape

/-- Nested lists of scalars. -/
inductive Nested (α : Type) where
  | leaf (x : α)
  | node (xs : List (Nested α))

namespace Nested

variable {α : Type}

mutual

/-- The shape, if the lists are not ragged. -/
def shape? : Nested α → Option Shape
  | leaf _ => some []
  | node [] => some [0]
  | node (x :: xs) => do
    let s ← shape? x
    if haveShape s xs then some ((xs.length + 1) :: s) else none

def haveShape (s : Shape) : List (Nested α) → Bool
  | [] => true
  | x :: xs => shape? x == some s && haveShape s xs

end

mutual

def leaves : Nested α → List α
  | leaf x => [x]
  | node xs => leavesOf xs

/-- The entries of several lists, one after the other. -/
def leavesOf : List (Nested α) → List α
  | [] => []
  | x :: xs => leaves x ++ leavesOf xs

end

/-- Cuts a list into pieces of one length. -/
def pieces (m : Nat) : (count : Nat) → List α → List (List α)
  | 0, _ => []
  | count + 1, xs => xs.take m :: pieces m count (xs.drop m)

/-- The nested lists of a shape with given entries. -/
def ofEntries : Shape → List α → Nested α
  | [], [] => node []
  | [], x :: _ => leaf x
  | k :: s, xs => node ((pieces (Shape.size s) k xs).map (ofEntries s))

end Nested

/-- An array with its shape. -/
structure Tensor (α : Type) where
  shape : Shape
  entries : Vec α shape.size

namespace Tensor

variable {α : Type}

/-- The array written as nested lists, unless they are ragged. -/
def ofNested? (x : Nested α) : Option (Tensor α) := do
  let shape ← x.shape?
  let entries := x.leaves.toArray
  if h : entries.size = shape.size then some ⟨shape, ⟨entries, h⟩⟩ else none

/-- The nested lists of an array. -/
def toNested (t : Tensor α) : Nested α := Nested.ofEntries t.shape t.entries.toList

def ofVec {n : Nat} (v : Vec α n) : Tensor α := ⟨[n], v.cast (by simp [Shape.size])⟩

/-- The array spread to a shape that its own shape fits into. -/
def spread [Inhabited α] (t : Tensor α) (s : Shape) : Tensor α where
  shape := s
  entries := Vector.ofFn fun i ↦
    let coordinates := (s.coordinates i).drop (s.length - t.shape.length)
    t.entries.toArray.getD (t.shape.position coordinates) default

variable [Scalar α]

/-- The inner product of the entries of two arrays of equal size. -/
def dot? (a b : Tensor α) : Except Breakdown α :=
  if h : b.shape.size = a.shape.size then .ok (Vec.dot a.entries (b.entries.cast h))
  else .error .shapeMismatch

/-- The largest absolute difference of two arrays, spread to a common shape. -/
def maxDiff? (a b : Tensor α) : Except Breakdown α :=
  if a.shape.size = 0 then .ok 0.0
  else match a.shape.meet? b.shape with
    | none => .error .shapeMismatch
    | some s =>
      if s.size = 0 then .error .shapeMismatch
      else .ok (Vec.maxDiff (a.spread s).entries (b.spread s).entries)

end Tensor

end NonlinearCG
