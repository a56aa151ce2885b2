import NonlinearCG.Mat
import NonlinearCG.Objective
import NonlinearCG.Tensor

/-!
# Preconditioners

A preconditioner is a symmetric positive definite operator `P` that is applied to gradients. It is
used in three ways: as `P v`, in the inner product `aᵀ P b` and in `aᵀ P⁻¹ b`.

Weights and matrices come with a length of their own, so a preconditioner is not tied to a number of
variables. `Preconditioner.sized` makes it an `Operator` on vectors of the length at hand, or finds
that it does not fit; a single weight fits every length.
-/

namespace NonlinearCG

/-! ## Operators -/

/-- A preconditioner for vectors of length `n`. -/
inductive Operator (α : Type) (n : Nat) where
  | identity
  | diagonal (weights : Vec α n)
  /-- A positive definite matrix with its inverse. -/
  | matrix (M inverse : Mat α n)

namespace Operator

variable {α : Type} [Scalar α] {n : Nat}

def forward : Operator α n → Vec α n → Vec α n
  | identity, v => v
  | diagonal p, v => Vector.zipWith (· * ·) p v
  | matrix M _, v => M.mulVec v

def backward : Operator α n → Vec α n → Vec α n
  | identity, v => v
  | diagonal p, v => Vector.zipWith (· / ·) v p
  | matrix _ inverse, v => inverse.mulVec v

/-- The inner product weighted by the operator. -/
def forwardDot (P : Operator α n) (a b : Vec α n) : α := Vec.dot a (P.forward b)

/-- The inner product weighted by the inverse of the operator. -/
def inverseDot (P : Operator α n) (a b : Vec α n) : α := Vec.dot a (P.backward b)

end Operator

/-! ## Preconditioners -/

/-- What a preconditioner consists of. -/
inductive Weighting (α : Type) where
  | identity
  | diagonal (weights : Array α)
  /-- A positive definite matrix with its inverse. -/
  | matrix {n : Nat} (M inverse : Mat α n)

/-- A preconditioner, with the rule by which it follows the iterates. -/
structure Preconditioner (α : Type) where
  weighting : Weighting α
  /-- The weighting at a new point, from the current one. -/
  follow : Weighting α → Array α → Except Breakdown (Weighting α) := fun w _ ↦ .ok w

/-- Why data do not define a preconditioner. -/
inductive PreconditionerError where
  /-- Diagonal weights with other than one axis. -/
  | notOneDimensional (shape : Shape)
  /-- A matrix that is not square. -/
  | notSquare (shape : Shape)
  /-- A matrix that is not symmetric. -/
  | notSymmetric
  /-- A symmetric matrix that is not positive definite. -/
  | notPositiveDefinite
  /-- An array that is neither a vector nor a matrix. -/
  | unsupported

namespace Weighting

variable {α : Type} [Scalar α]

/-- The array with one axis, as diagonal weights. -/
def ofWeights? (t : Tensor α) : Except PreconditionerError (Weighting α) :=
  match t.shape with
  | [_] => .ok (.diagonal t.entries.toArray)
  | shape => .error (.notOneDimensional shape)

/-- The square symmetric positive definite array, with its inverse. -/
def ofMatrix? (t : Tensor α) : Except PreconditionerError (Weighting α) :=
  match Mat.ofTensor? t with
  | none => .error (.notSquare t.shape)
  | some ⟨_, M⟩ =>
    if !M.isSymmetric then .error .notSymmetric
    else match M.choleskyInverse with
      | none => .error .notPositiveDefinite
      | some inverse => .ok (.matrix M inverse)

/-- Replaces the weighting by a matrix. An array that is refused leaves the weighting as it is. -/
def setMatrix (t : Tensor α) : ExceptT PreconditionerError (StateM (Weighting α)) Unit := do
  set (← MonadExcept.ofExcept (ofMatrix? t))

/-- Diagonal weights from an array with one axis, a matrix from one with two. -/
def ofArray? (t : Tensor α) : Except PreconditionerError (Weighting α) :=
  match t.shape.length with
  | 1 => ofWeights? t
  | 2 => ofMatrix? t
  | _ => .error .unsupported

/-- The operator on vectors of length `n`. -/
def sized (n : Nat) : Weighting α → Except Breakdown (Operator α n)
  | identity => .ok .identity
  | diagonal p => return .diagonal (← Vec.spreadTo n p)
  | @matrix _ m M inverse =>
    if h : m = n then .ok (.matrix (h ▸ M) (h ▸ inverse)) else .error .shapeMismatch

/-- The weighting with the weights that `f` gives at a point; other weightings stay. -/
def reweighted (f : α → α) (x : Array α) : Weighting α → Except Breakdown (Weighting α)
  | diagonal p => return .diagonal ((← Vec.spreadTo p.size x).map f).toArray
  | w => .ok w

/-! ### Vectors of any length

An inner product does not need to know the length beforehand: its second vector is spread to the
length of the weights, or they to its length, and the first has to have the length that results. -/

/-- The length at which a weighting meets a vector of the given length. -/
def meetingLength (n : Nat) : Weighting α → Nat
  | diagonal p => if n = 1 then p.size else n
  | _ => n

def forward (w : Weighting α) (a : Array α) : Except Breakdown (Array α) := do
  let P ← w.sized a.size
  return (P.forward ⟨a, rfl⟩).toArray

/-- Combines two arrays by an inner product of the operator on their common length. -/
def pair (product : {n : Nat} → Operator α n → Vec α n → Vec α n → α) (w : Weighting α)
    (a b : Array α) : Except Breakdown α := do
  let n := w.meetingLength b.size
  let P ← w.sized n
  let b ← Vec.spreadTo n b
  if h : a.size = n then return product P ⟨a, h⟩ b else throw .shapeMismatch

def forwardDot (w : Weighting α) (a b : Array α) : Except Breakdown α :=
  w.pair Operator.forwardDot a b

def inverseDot (w : Weighting α) (a b : Array α) : Except Breakdown α :=
  w.pair Operator.inverseDot a b

def name : Weighting α → String
  | identity => "Identity"
  | diagonal p => s!"Diagonal(n={p.size})"
  | @matrix _ n _ _ => s!"Matrix(n={n})"

end Weighting

namespace Preconditioner

variable {α : Type} [Scalar α]

/-- The preconditioner that does nothing. -/
def identity : Preconditioner α := ⟨.identity, fun w _ ↦ .ok w⟩

/-- The preconditioner refreshed at a point by its own rule. -/
def refreshed (P : Preconditioner α) (x : Array α) : Except Breakdown (Preconditioner α) := do
  return { P with weighting := ← P.follow P.weighting x }

end Preconditioner

end NonlinearCG
