import Mathlib
import NonlinearCG.Problem.Quadratic
import NonlinearCG.Proofs.Exact.Operator
import NonlinearCG.Proofs.LineSearch.Ray
import NonlinearCG.Proofs.LineSearch.Valley

/-!
# Quadratic functions

An objective that computes a quadratic function is a parabola along every ray. The quadratic
functions of this library are such objectives.
-/

namespace NonlinearCG

open Matrix

variable {ω K : Type} [Field K] [LinearOrder K] {G : Grid K} {n : ℕ}
  {A M : Matrix (Fin n) (Fin n) K} {b : Fin n → K} {f : Objective ω (Exact G) n}

/-! ## Quadratic functions -/

def quadraticValue (A : Matrix (Fin n) (Fin n) K) (b x : Fin n → K) : K :=
  1 / 2 * (x ⬝ᵥ A *ᵥ x) - b ⬝ᵥ x

/-- An objective that computes a quadratic function and its gradient on vectors of numbers. -/
structure Objective.IsQuadratic (f : Objective ω (Exact G) n) (A : Matrix (Fin n) (Fin n) K)
    (b : Fin n → K) : Prop where
  value (x : Fin n → K) : Returns (f.value (Vec.num x)) (.num (quadraticValue A b x))
  both (x : Fin n → K) :
    Returns (f.both (Vec.num x)) (.num (quadraticValue A b x), Vec.num (A *ᵥ x - b))

omit [LinearOrder K] in
theorem gradient_along (x s : Fin n → K) (t : K) :
    A *ᵥ (x + t • s) - b = A *ᵥ x - b + t • A *ᵥ s := by
  rw [mulVec_add, mulVec_smul, add_sub_right_comm]

variable [IsStrictOrderedRing K]

/-- On a ray a quadratic function is a parabola. -/
theorem quadraticValue_along (hA : SPD A) (x s : Fin n → K) (t : K) :
    quadraticValue A b (x + t • s) = quadraticValue A b x + (A *ᵥ x - b) ⬝ᵥ s * t +
      s ⬝ᵥ A *ᵥ s / 2 * t ^ 2 := by
  have hcross : s ⬝ᵥ A *ᵥ x = x ⬝ᵥ A *ᵥ s := hA.dot_comm s x
  simp only [quadraticValue, mulVec_add, mulVec_smul, add_dotProduct, dotProduct_add,
    smul_dotProduct, dotProduct_smul, smul_eq_mul, sub_dotProduct, hcross,
    dotProduct_comm (A *ᵥ x) s]
  ring

theorem Objective.IsQuadratic.follows (hA : SPD A) (hf : f.IsQuadratic A b) {x s : Fin n → K}
    {c : Valley K} (hvalue : c.value = quadraticValue A b x)
    (hslope : c.slope = (A *ᵥ x - b) ⬝ᵥ s) (hcurvature : c.curvature = s ⬝ᵥ A *ᵥ s) :
    (LineFunction.ofObjective f (Vec.num x) (Vec.num s)).Follows c := by
  have hheight : ∀ t, quadraticValue A b (x + t • s) = c.height t := by
    intro t
    rw [quadraticValue_along hA, Valley.height, hvalue, hslope, hcurvature]
  have hgradient : ∀ t, (A *ᵥ (x + t • s) - b) ⬝ᵥ s = c.slope + c.curvature * t := by
    intro t
    rw [gradient_along, add_dotProduct, smul_dotProduct, smul_eq_mul, hslope, hcurvature,
      dotProduct_comm (A *ᵥ s), mul_comm]
  constructor
  · intro t
    have hreturns := hf.value (x + t • s)
    rw [hheight, ← Vec.along_num] at hreturns
    exact LineFunction.value_returns hreturns
  · intro t
    have hreturns := hf.both (x + t • s)
    rw [hheight, ← Vec.along_num] at hreturns
    rw [← hgradient, ← Vec.dot_num]
    exact LineFunction.both_returns hreturns rfl

/-! ## The quadratic functions of this library -/

namespace Quadratic

def num (A : Matrix (Fin n) (Fin n) K) (b : Fin n → K) : Quadratic (Exact G) n :=
  ⟨Mat.ofFn fun i j ↦ .num (A i j), Vec.num b⟩

theorem value_num (x : Fin n → K) :
    (num A b).value (Vec.num x) = (.num (quadraticValue A b x) : Exact G) := by
  have hhalf : (Vec.num x).map (0.5 * ·) = Vec.num (G := G) ((1 / 2 : K) • x) := by
    rw [Vec.map_num, Exact.half_eq]
    rfl
  rw [value, num, Operator.mulVec_num, hhalf, Vec.dot_num, Vec.dot_num, Exact.num_sub,
    smul_dotProduct, smul_eq_mul, quadraticValue]

theorem gradient_num (x : Fin n → K) :
    (num A b).gradient (Vec.num x) = Vec.num (G := G) (A *ᵥ x - b) := by
  rw [gradient, num, Operator.mulVec_num, Vec.sub_num]

theorem isQuadratic_ofFunctions (A : Matrix (Fin n) (Fin n) K) (b : Fin n → K) :
    (Objective.ofFunctions (num A b).value (num A b).gradient :
      Objective ω (Exact G) n).IsQuadratic A b := by
  constructor
  · intro x
    rw [← value_num]
    exact .pure _
  · intro x
    rw [← value_num, ← gradient_num]
    exact .pure _

end Quadratic

end NonlinearCG
