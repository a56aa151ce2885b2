import NonlinearCG.Tensor

/-!
# Square matrices

Square matrices by rows, with the two factorizations that the library needs. Both take a matrix
apart at its first row and column and go on with the Schur complement: the Cholesky factor of a
positive definite matrix, and the solution of a linear system by elimination with row exchanges.
-/

namespace NonlinearCG

/-- Square matrices, by rows. -/
structure Mat (α : Type) (n : Nat) where
  rows : Vector (Vec α n) n

namespace Mat

variable {α : Type} {n : Nat}

/-- The entry in a row and a column. -/
def entry (A : Mat α n) (i j : Fin n) : α := (A.rows.get i).get j

def ofFn (f : Fin n → Fin n → α) : Mat α n := ⟨Vector.ofFn fun i ↦ Vector.ofFn (f i)⟩

@[simp]
theorem entry_ofFn (f : Fin n → Fin n → α) (i j : Fin n) : (ofFn f).entry i j = f i j := by
  simp [entry, ofFn, Vector.get]
  rfl

/-- The matrix of a square array. -/
def ofTensor? [Inhabited α] : Tensor α → Option ((n : Nat) × Mat α n)
  | ⟨[m, n], entries⟩ =>
    if m = n then some ⟨n, ofFn fun i j ↦ entries.toArray.getD (i.val * n + j.val) default⟩
    else none
  | _ => none

def transpose (A : Mat α n) : Mat α n := ofFn fun i j ↦ A.entry j i

/-- The matrix with a first row and column around a smaller one. -/
def bordered (corner : α) (row column : Fin n → α) (rest : Fin n → Fin n → α) : Mat α (n + 1) :=
  ofFn fun i j ↦ i.cases (j.cases corner row) fun i ↦ j.cases (column i) (rest i)

variable [Scalar α]

def mulVec (A : Mat α n) (x : Vec α n) : Vec α n := A.rows.map fun row ↦ Vec.dot row x

def mul (A B : Mat α n) : Mat α n :=
  let columns := B.transpose.rows
  ofFn fun i j ↦ Vec.dot (A.rows.get i) (columns.get j)

/-- A multiple of the identity. -/
def scalar (n : Nat) (c : α) : Mat α n := ofFn fun i j ↦ if i = j then c else 0.0

def diagonal (p : Vec α n) : Mat α n := ofFn fun i j ↦ if i = j then p.get i else 0.0

/-! ## Symmetry -/

/-- Two scalars agree to within an absolute and a relative tolerance. -/
def close (a b : α) : Bool :=
  (decide (Scalar.abs (a - b) ≤ 1e-8 + 1e-5 * Scalar.abs b) && Scalar.isFinite b) || a == b

/-- Every entry is close to the one across the diagonal. -/
def isSymmetric (A : Mat α n) : Bool :=
  (List.finRange n).all fun i ↦ (List.finRange n).all fun j ↦ close (A.entry i j) (A.entry j i)

/-! ## Cholesky factors -/

/-- The lower triangular factor `L` with positive diagonal and `L Lᵀ = A`, where `A` is read from
its lower triangle. There is none unless `A` is positive definite. -/
def cholesky : {n : Nat} → Mat α n → Option (Mat α n)
  | 0, A => some A
  | _ + 1, A =>
    let a := A.entry 0 0
    if 0.0 < a then do
      let l := Scalar.sqrt a
      let column := Vector.ofFn fun i ↦ A.entry i.succ 0 / l
      let L ← cholesky (ofFn fun i j ↦ A.entry i.succ j.succ - column.get i * column.get j)
      return bordered l (fun _ ↦ 0.0) (fun i ↦ column.get i) L.entry
    else none

/-- The inverse of a lower triangular matrix. -/
def lowerInverse : {n : Nat} → Mat α n → Mat α n
  | 0, L => L
  | _ + 1, L =>
    let l := L.entry 0 0
    let K := lowerInverse (ofFn fun i j ↦ L.entry i.succ j.succ)
    let column := K.mulVec (Vector.ofFn fun i ↦ L.entry i.succ 0)
    bordered (1.0 / l) (fun _ ↦ 0.0) (fun i ↦ -column.get i / l) K.entry

/-- The inverse of a positive definite matrix, from its Cholesky factor. -/
def choleskyInverse (A : Mat α n) : Option (Mat α n) := do
  let K := lowerInverse (← cholesky A)
  return K.transpose.mul K

/-! ## Linear systems -/

/-- The row whose first entry is largest in absolute value, the first of several. -/
def pivotRow (A : Mat α (n + 1)) : Fin (n + 1) :=
  (List.finRange (n + 1)).foldl
    (fun best i ↦
      if Scalar.abs (A.entry best 0) < Scalar.abs (A.entry i 0) then i else best) 0

/-- The solution of `A x = b`, unless elimination meets a zero pivot. -/
def solve : {n : Nat} → Mat α n → Vec α n → Option (Vec α n)
  | 0, _, b => some b
  | n + 1, A, b =>
    let p := pivotRow A
    let row (i : Fin (n + 1)) : Fin (n + 1) := if i = 0 then p else if i = p then 0 else i
    let a := A.entry p 0
    if a == 0.0 then none
    else do
      let factor := Vector.ofFn fun i : Fin n ↦ A.entry (row i.succ) 0 / a
      let rest := ofFn fun i j : Fin n ↦
        A.entry (row i.succ) j.succ - factor.get i * A.entry p j.succ
      let x ← solve rest (Vector.ofFn fun i ↦ b.get (row i.succ) - factor.get i * b.get p)
      let top := Vector.ofFn fun j : Fin n ↦ A.entry p j.succ
      let x0 := (b.get p - Vec.dot top x) / a
      return Vector.ofFn fun i : Fin (n + 1) ↦ i.cases x0 x.get

end Mat

end NonlinearCG
