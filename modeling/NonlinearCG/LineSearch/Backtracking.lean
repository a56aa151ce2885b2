import NonlinearCG.LineSearch.Search

/-!
# Backtracking

A search for a step of sufficient decrease. A trial step that does not decrease the value enough is
reduced to the minimizer of the quadratic through the initial value, the initial slope and the
trial value, kept within fixed ratios of the step; one whose value is not finite is reduced by the
smaller ratio. Only values are evaluated.
-/

namespace NonlinearCG

/-- The parameters of the search, over any type of numbers. -/
structure Backtracking (ν : Type) where
  /-- Sufficient decrease. -/
  c1 : ν
  /-- The largest ratio of one step to the step before. -/
  rhohi : ν
  /-- The smallest ratio of one step to the step before. -/
  rholo : ν
  /-- The number of reductions. -/
  iterations : Int

namespace Backtracking

def map {ν μ : Type} (f : ν → μ) (p : Backtracking ν) : Backtracking μ where
  c1 := f p.c1
  rhohi := f p.rhohi
  rholo := f p.rholo
  iterations := p.iterations

variable {ω α : Type} [Scalar α]

def default : Backtracking α where
  c1 := 1e-4
  rhohi := 0.5
  rholo := 0.1
  iterations := 1000

/-! ## Admissible parameters -/

/-- The first parameter outside its range. -/
inductive Defect where
  | c1
  | ratios
  | iterations
  deriving DecidableEq, Repr

/-- The first parameter outside its range, if there is one. -/
def defect? (p : Backtracking α) : Option Defect :=
  if ¬(0.0 < p.c1 ∧ p.c1 < 1.0) then some .c1
  else if ¬(0.0 < p.rholo ∧ p.rholo ≤ p.rhohi ∧ p.rhohi < 1.0) then some .ratios
  else if p.iterations ≤ 0 then some .iterations
  else none

/-! ## The search -/

/-- A step fails to decrease the value sufficiently. -/
def rejects (p : Backtracking α) (start : Sample α) (t v : α) : Bool :=
  !Scalar.isFinite v || start.value + p.c1 * t * start.slope < v

/-- The minimizer of the quadratic through the initial value, the initial slope and the value at a
step. -/
def interpolated (start : Sample α) (t v : α) : Except Breakdown α := do
  let t2 ← Scalar.square t
  Scalar.divide (-(start.slope * t2)) (2.0 * (v - start.value - start.slope * t))

/-- The step after a rejected one with a finite value. -/
def reduced (p : Backtracking α) (start : Sample α) (t v : α) : Except Breakdown α := do
  let u ← interpolated start t v
  return Scalar.greater (Scalar.lesser u (t * p.rhohi)) (t * p.rholo)

/-- Reduces a step until it is not rejected. -/
def descend (p : Backtracking α) (φ : LineFunction ω α) (start : Sample α) :
    (reductions : Nat) → (calls : Calls) → (t v : α) → Search ω α ((α × α) × Calls)
  | reductions, calls, t, v => do
    if p.rejects start t v then
      match reductions with
      | 0 => Search.giveUp .tooManyReductions
      | reductions + 1 =>
        if Scalar.isFinite v then
          let t ← Search.lift (p.reduced start t v)
          let v ← Search.valueAt φ t
          descend p φ start reductions (calls + .ofValue) t v
        else
          Search.countFailure
          let t := t * p.rholo
          let v ← Search.valueAt φ t
          descend p φ start reductions (calls + .ofValue) t v
    else return ((t, v), calls)

/-- The accepted step, from a trial step. -/
def step (p : Backtracking α) (φ : LineFunction ω α) (trial : α) : Search ω α (Step α) := do
  let start ← Search.cached 0
  unless 0.0 < trial ∧ Scalar.isFinite trial do Search.giveUp (.stepNotPositive trial)
  let v ← Search.valueAt φ trial
  let ((t, v), calls) ← descend p φ start.toSample p.iterations.toNat .ofValue trial v
  let _ ← Search.keep ⟨t, v, Scalar.nan⟩
  return ⟨t, calls⟩

def lineSearch (p : Backtracking α) : LineSearch ω α where
  search f x s trial _ := step p (.ofObjective f x s) trial

end Backtracking

end NonlinearCG
