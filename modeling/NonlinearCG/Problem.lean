import NonlinearCG.Objective
import NonlinearCG.Problem.Himmelblau
import NonlinearCG.Problem.Powell
import NonlinearCG.Problem.Quadratic
import NonlinearCG.Problem.Rosenbrock
import NonlinearCG.Tensor

/-!
# Test problems

A problem is an objective with its gradient, a standard starting point and its known minimizers.
Its functions take points of any length and break down at one that they make no sense of.
-/

namespace NonlinearCG

/-- The families of problems. -/
inductive ProblemFamily where
  | himmelblau
  | powell
  | quadratic
  | rosenbrock
  deriving DecidableEq, Repr

def ProblemFamily.name : ProblemFamily → String
  | himmelblau => "himmelblau"
  | powell => "powell"
  | quadratic => "quadratic"
  | rosenbrock => "rosenbrock"

/-- All families, in the order of their names. -/
def ProblemFamily.all : List ProblemFamily := [himmelblau, powell, quadratic, rosenbrock]

/-- A test problem. -/
inductive Problem (α : Type) where
  | himmelblau
  | powell (dimension : Nat)
  | quadratic {n : Nat} (q : Quadratic α n)
  | rosenbrock (dimension : Nat)

/-- Why data do not define a problem. -/
inductive ProblemError where
  /-- A dimension that the family does not have. -/
  | dimension (family : ProblemFamily) (n : Int)
  /-- A matrix that is not square. -/
  | matrixShape (shape : Shape)
  /-- A linear term that does not belong to a matrix of the given size. -/
  | vectorShape (n : Nat) (shape : Shape)

def ProblemError.message : ProblemError → String
  | dimension .himmelblau n => s!"Himmelblau is two-dimensional, got dimension={n}"
  | dimension .powell n => s!"dimension must be a positive multiple of 4, got {n}"
  | dimension .quadratic n => s!"dimension must be >= 1, got {n}"
  | dimension .rosenbrock n => s!"dimension must be >= 2, got {n}"
  | matrixShape shape => "A must be square, got shape " ++ shape.text
  | vectorShape n shape => s!"b must have shape ({n},), got {shape.text}"

namespace Problem

variable {α : Type} [Scalar α]

/-! ## Building problems -/

/-- The problem of a family in the given number of variables, or in its usual number. -/
def ofDimension? (family : ProblemFamily) (n? : Option Int) : Except ProblemError (Problem α) :=
  match family, n?.getD (if family = .powell then 4 else 2) with
  | .himmelblau, n => if n = 2 then .ok .himmelblau else .error (.dimension .himmelblau n)
  | .powell, n =>
    if n < 4 ∨ n % 4 ≠ 0 then .error (.dimension .powell n) else .ok (.powell n.toNat)
  | .quadratic, n =>
    if n < 1 then .error (.dimension .quadratic n) else .ok (.quadratic (.sphere n.toNat))
  | .rosenbrock, n =>
    if n < 2 then .error (.dimension .rosenbrock n) else .ok (.rosenbrock n.toNat)

/-- The quadratic problem of a matrix, by default twice the identity, and a linear term, by default
zero. -/
def quadratic? (A? b? : Option (Tensor α)) (n? : Option Int) : Except ProblemError (Problem α) := do
  let ⟨n, A⟩ ← match A? with
    | some A => match Mat.ofTensor? A with
      | some A => pure A
      | none => throw (.matrixShape A.shape)
    | none =>
      let n := n?.getD 2
      if n < 1 then throw (.dimension .quadratic n)
      else pure ⟨n.toNat, .scalar n.toNat 2.0⟩
  match b? with
  | none => return .quadratic ⟨A, Vector.replicate n 0.0⟩
  | some b =>
    if h : b.shape = [n] then
      return .quadratic ⟨A, b.entries.cast (by simp [h, Shape.size])⟩
    else throw (.vectorShape n b.shape)

/-- The problem of a family from the data that it takes; only a quadratic problem takes a matrix and
a linear term. -/
def build (family : ProblemFamily) (A? b? : Option (Tensor α)) (n? : Option Int) :
    Except ProblemError (Problem α) :=
  if family = .quadratic then quadratic? A? b? n? else ofDimension? family n?

/-! ## Properties -/

def dimension : Problem α → Nat
  | himmelblau => 2
  | powell n | rosenbrock n => n
  | @quadratic _ n _ => n

def name : Problem α → String
  | himmelblau => "Himmelblau"
  | powell n => s!"Powell(n={n})"
  | @quadratic _ n _ => s!"Quadratic(n={n})"
  | rosenbrock n => s!"Rosenbrock(n={n})"

def initial : Problem α → List α
  | himmelblau => Himmelblau.initial
  | powell n => Powell.initial n
  | @quadratic _ n _ => Quadratic.initial n
  | rosenbrock n => Rosenbrock.initial n

def solutions : Problem α → Except Breakdown (List (List α))
  | himmelblau => .ok Himmelblau.solutions
  | powell n => .ok [Powell.solution n]
  | quadratic q => match q.solution? with
    | some x => .ok [x.toList]
    | none => .error .singular
  | rosenbrock n => .ok [Rosenbrock.solution n]

/-! ## Evaluation -/

def value (p : Problem α) (x : List α) : Except Breakdown α :=
  match p with
  | himmelblau => match x with
    | x :: y :: _ => .ok (Himmelblau.value x y)
    | _ => .error .missingEntry
  | powell _ => match Powell.blocks? x with
    | some bs => .ok (Powell.value bs)
    | none => .error .shapeMismatch
  | @quadratic _ n q =>
    if h : x.length = n then .ok (q.value ⟨x.toArray, by simpa using h⟩)
    else .error .shapeMismatch
  | rosenbrock _ => .ok (Rosenbrock.value x)

def gradient (p : Problem α) (x : List α) : Except Breakdown (List α) :=
  match p with
  | himmelblau => match x with
    | x :: y :: _ => .ok (Himmelblau.gradient x y)
    | _ => .error .missingEntry
  | powell _ => match Powell.blocks? x with
    | some bs => .ok (Powell.gradient bs)
    | none => .error .shapeMismatch
  | @quadratic _ n q =>
    if h : x.length = n then .ok (q.gradient ⟨x.toArray, by simpa using h⟩).toList
    else .error .shapeMismatch
  | rosenbrock _ => .ok (Rosenbrock.gradient x)

/-- The problem as an objective of `n` variables, with a combined evaluation. -/
def objective {ω : Type} (p : Problem α) (n : Nat) : Objective ω α n :=
  let gradient (x : Vec α n) : Eval ω (Vec α n) :=
    Eval.ofExcept do Vec.spreadTo n (← p.gradient x.toList).toArray
  let value (x : Vec α n) : Eval ω α := Eval.ofExcept (p.value x.toList)
  { value, gradient
    combined := some fun x ↦ do
      let g ← gradient x
      return (← value x, g) }

end Problem

end NonlinearCG
