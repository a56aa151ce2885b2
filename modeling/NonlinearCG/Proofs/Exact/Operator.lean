import Mathlib
import NonlinearCG.Preconditioner
import NonlinearCG.Proofs.Exact.Vector

/-!
# Preconditioners as matrices

In exact arithmetic a preconditioner that is symmetric and positive definite is a matrix: it takes
vectors of numbers to vectors of numbers, its backward application is the inverse, and its two inner
products are those of the matrix and of the inverse. All three kinds of preconditioners are of this
form: the identity, positive weights, and a positive definite matrix with its inverse.
-/

namespace NonlinearCG

open Matrix

/-- A symmetric matrix with positive quadratic form. -/
structure SPD {K : Type} [Field K] [LinearOrder K] {n : ℕ} (M : Matrix (Fin n) (Fin n) K) :
    Prop where
  symm : M.IsSymm
  pos : ∀ v ≠ 0, 0 < v ⬝ᵥ M *ᵥ v

namespace SPD

variable {K : Type} [Field K] [LinearOrder K] {n : ℕ} {M : Matrix (Fin n) (Fin n) K}

theorem nonneg (hM : SPD M) (v : Fin n → K) : 0 ≤ v ⬝ᵥ M *ᵥ v := by
  rcases eq_or_ne v 0 with rfl | hv
  · rw [zero_dotProduct]
  · exact (hM.pos v hv).le

theorem dot_comm (hM : SPD M) (v w : Fin n → K) : v ⬝ᵥ M *ᵥ w = w ⬝ᵥ M *ᵥ v := by
  rw [dotProduct_mulVec, ← mulVec_transpose, hM.symm.eq, dotProduct_comm]

theorem mulVec_ne_zero (hM : SPD M) {v : Fin n → K} (hv : v ≠ 0) : M *ᵥ v ≠ 0 := by
  intro h
  have hpos := hM.pos v hv
  rw [h, dotProduct_zero] at hpos
  exact hpos.false

theorem isUnit (hM : SPD M) : IsUnit M := by
  rw [← mulVec_injective_iff_isUnit]
  intro v w h
  by_contra hne
  refine hM.mulVec_ne_zero (sub_ne_zero.mpr hne) ?_
  rw [mulVec_sub, sub_eq_zero]
  exact h

theorem mulVec_inv_mulVec (hM : SPD M) (v : Fin n → K) : M *ᵥ (M⁻¹ *ᵥ v) = v := by
  rw [mulVec_mulVec, mul_nonsing_inv _ ((isUnit_iff_isUnit_det M).mp hM.isUnit), one_mulVec]

theorem inv (hM : SPD M) : SPD M⁻¹ := by
  refine ⟨hM.symm.inv, fun v hv ↦ ?_⟩
  have hne : M⁻¹ *ᵥ v ≠ 0 := by
    intro h
    refine hv ?_
    rw [← hM.mulVec_inv_mulVec v, h, mulVec_zero]
  have hpos := hM.pos _ hne
  rwa [hM.mulVec_inv_mulVec, dotProduct_comm] at hpos

end SPD

namespace Operator

variable {K : Type} [Field K] [LinearOrder K] {G : Grid K} {n : ℕ}

/-- The preconditioner acts as a symmetric positive definite matrix. -/
structure Acts (P : Operator (Exact G) n) (M : Matrix (Fin n) (Fin n) K) : Prop where
  spd : SPD M
  forward (v : Fin n → K) : P.forward (Vec.num v) = Vec.num (M *ᵥ v)
  backward (v : Fin n → K) : P.backward (Vec.num v) = Vec.num (M⁻¹ *ᵥ v)

section Products

variable [IsStrictOrderedRing K] {P : Operator (Exact G) n} {M : Matrix (Fin n) (Fin n) K}

theorem Acts.forwardDot (h : P.Acts M) (v w : Fin n → K) :
    P.forwardDot (Vec.num v) (Vec.num w) = .num (v ⬝ᵥ M *ᵥ w) := by
  rw [Operator.forwardDot, h.forward, Vec.dot_num]

theorem Acts.inverseDot (h : P.Acts M) (v w : Fin n → K) :
    P.inverseDot (Vec.num v) (Vec.num w) = .num (v ⬝ᵥ M⁻¹ *ᵥ w) := by
  rw [Operator.inverseDot, h.backward, Vec.dot_num]

end Products

/-! ## The three kinds -/

section Kinds

variable [IsStrictOrderedRing K]

theorem spd_diagonal {p : Fin n → K} (hp : ∀ i, 0 < p i) : SPD (Matrix.diagonal p) := by
  refine ⟨isSymm_diagonal p, fun v hv ↦ ?_⟩
  obtain ⟨i, hi⟩ := Function.ne_iff.mp hv
  have hterm : ∀ j, v j * (Matrix.diagonal p *ᵥ v) j = p j * v j ^ 2 := by
    intro j
    rw [mulVec_diagonal]
    ring
  have hpos : 0 < ∑ j, p j * v j ^ 2 := by
    refine Finset.sum_pos' (fun j _ ↦ ?_) ⟨i, Finset.mem_univ i, ?_⟩
    · exact mul_nonneg (hp j).le (sq_nonneg (v j))
    · exact mul_pos (hp i) (sq_pos_of_ne_zero hi)
  calc 0 < ∑ j, p j * v j ^ 2 := hpos
    _ = v ⬝ᵥ Matrix.diagonal p *ᵥ v := (Finset.sum_congr rfl fun j _ ↦ hterm j).symm

theorem identity_acts : (identity : Operator (Exact G) n).Acts 1 := by
  refine ⟨?_, fun v ↦ ?_, fun v ↦ ?_⟩
  · rw [← diagonal_one]
    exact spd_diagonal fun _ ↦ one_pos
  · rw [one_mulVec, Operator.forward]
  · rw [inv_one, one_mulVec, Operator.backward]

omit [IsStrictOrderedRing K] in
theorem inv_diagonal_of_pos {p : Fin n → K} (hp : ∀ i, 0 < p i) :
    (Matrix.diagonal p)⁻¹ = Matrix.diagonal fun i ↦ (p i)⁻¹ := by
  refine inv_eq_right_inv ?_
  rw [diagonal_mul_diagonal, ← diagonal_one]
  exact congrArg _ (funext fun i ↦ mul_inv_cancel₀ (hp i).ne')

omit [IsStrictOrderedRing K] in
theorem diagonal_forward (p v : Fin n → K) :
    (diagonal (Vec.num p)).forward (Vec.num v) = Vec.num (G := G) (Matrix.diagonal p *ᵥ v) := by
  rw [Operator.forward, Vec.zipWith_num, Vec.num]
  refine congrArg Vector.ofFn (funext fun i ↦ ?_)
  rw [Exact.num_mul, mulVec_diagonal]

omit [IsStrictOrderedRing K] in
theorem diagonal_backward {p : Fin n → K} (hp : ∀ i, p i ≠ 0) (v : Fin n → K) :
    (diagonal (Vec.num p)).backward (Vec.num v) =
      Vec.num (G := G) (Matrix.diagonal (fun i ↦ (p i)⁻¹) *ᵥ v) := by
  rw [Operator.backward, Vec.zipWith_num, Vec.num]
  refine congrArg Vector.ofFn (funext fun i ↦ ?_)
  rw [Exact.num_div (hp i), mulVec_diagonal, div_eq_inv_mul]

theorem diagonal_acts {p : Fin n → K} (hp : ∀ i, 0 < p i) :
    (diagonal (Vec.num p) : Operator (Exact G) n).Acts (Matrix.diagonal p) := by
  refine ⟨spd_diagonal hp, diagonal_forward p, fun v ↦ ?_⟩
  rw [inv_diagonal_of_pos hp]
  exact diagonal_backward (fun i ↦ (hp i).ne') v

theorem mulVec_num (M : Matrix (Fin n) (Fin n) K) (v : Fin n → K) :
    (Mat.ofFn fun i j ↦ (.num (M i j) : Exact G)).mulVec (Vec.num v) = Vec.num (M *ᵥ v) := by
  refine Vector.ext fun i hi ↦ ?_
  rw [Mat.mulVec, Mat.ofFn, Vector.getElem_map, Vector.getElem_ofFn]
  refine (Vec.dot_num (fun j ↦ M ⟨i, hi⟩ j) v).trans ?_
  rw [Vec.num, Vector.getElem_ofFn]
  rfl

theorem matrix_acts {M : Matrix (Fin n) (Fin n) K} (hM : SPD M) :
    (matrix (Mat.ofFn fun i j ↦ .num (M i j)) (Mat.ofFn fun i j ↦ .num (M⁻¹ i j)) :
      Operator (Exact G) n).Acts M :=
  ⟨hM, mulVec_num M, mulVec_num M⁻¹⟩

end Kinds

end Operator

/-! ## Weightings of the right length -/

namespace Weighting

variable {α : Type} {n : ℕ}

theorem sized_matrix (M inverse : Mat α n) :
    (matrix M inverse).sized n = .ok (.matrix M inverse) := dif_pos rfl

theorem sized_diagonal (p : Vec α n) : (diagonal p.toArray).sized n = .ok (.diagonal p) := by
  rw [sized, Vec.spreadTo, dif_pos p.size_toArray]
  rfl

end Weighting

end NonlinearCG
