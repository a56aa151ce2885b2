import Mathlib
import NonlinearCG.Proofs.Direction.SufficientDescent
import NonlinearCG.Proofs.Exact.Cholesky

/-!
# Preconditioning is a change of variables

In exact arithmetic a preconditioner `P = C Cᵀ` does to a direction what the change of variables
`x = C z` does without one. Gradients go over into `Cᵀ g`, directions come from `s = C z`, and of
the inner products of the update,

* the plain ones pair a gradient with a direction, `g · C z = Cᵀ g · z`;
* those weighted by `P` pair two gradients, `y · P g = Cᵀ y · Cᵀ g`;
* those weighted by `P⁻¹` pair two directions, `C z · P⁻¹ C z = z · z`.

So both updates weigh the last direction in the same way (`betaOf_image`, `etaOf_image`), and the
new direction is the image of the new direction.
-/

namespace NonlinearCG

open Matrix

variable {K : Type} [Field K] [LinearOrder K] [IsStrictOrderedRing K] {G : Grid K} {n : ℕ}
  {C : Matrix (Fin n) (Fin n) K} {z g g' : Fin n → K} {eta : K}

/-! ## The inner products -/

omit [LinearOrder K] [IsStrictOrderedRing K] in
theorem dot_image (C : Matrix (Fin n) (Fin n) K) (g z : Fin n → K) :
    g ⬝ᵥ C *ᵥ z = (Cᵀ *ᵥ g) ⬝ᵥ z := by
  rw [dotProduct_mulVec, mulVec_transpose]

omit [LinearOrder K] [IsStrictOrderedRing K] in
theorem forward_image (C : Matrix (Fin n) (Fin n) K) (y g : Fin n → K) :
    y ⬝ᵥ (C * Cᵀ) *ᵥ g = (Cᵀ *ᵥ y) ⬝ᵥ (Cᵀ *ᵥ g) := by
  rw [← mulVec_mulVec, dot_image]

omit [LinearOrder K] [IsStrictOrderedRing K] in
theorem inverse_image (hC : IsUnit C) (z w : Fin n → K) :
    (C *ᵥ z) ⬝ᵥ (C * Cᵀ)⁻¹ *ᵥ (C *ᵥ w) = z ⬝ᵥ w := by
  have hunit := (isUnit_iff_isUnit_det C).mp hC
  have hunit' : IsUnit Cᵀ.det := by rwa [det_transpose]
  have hcancel : Cᵀ * ((C * Cᵀ)⁻¹ * C) = 1 := by
    rw [Matrix.mul_inv_rev, Matrix.mul_assoc, nonsing_inv_mul C hunit, Matrix.mul_one,
      mul_nonsing_inv Cᵀ hunit']
  calc (C *ᵥ z) ⬝ᵥ (C * Cᵀ)⁻¹ *ᵥ (C *ᵥ w)
    _ = (Cᵀ * ((C * Cᵀ)⁻¹ * C)) *ᵥ w ⬝ᵥ z := by
      rw [dotProduct_comm, dot_image, mulVec_mulVec, mulVec_mulVec, Matrix.mul_assoc]
    _ = z ⬝ᵥ w := by rw [hcancel, one_mulVec, dotProduct_comm]

/-! ## The weights of the last direction -/

omit [LinearOrder K] [IsStrictOrderedRing K] in
theorem betaOf_image (C : Matrix (Fin n) (Fin n) K) (z g y : Fin n → K) :
    betaOf (C * Cᵀ) (C *ᵥ z) g y = betaOf 1 z (Cᵀ *ᵥ g) (Cᵀ *ᵥ y) := by
  rw [betaOf, betaOf, one_mulVec, one_mulVec, forward_image, forward_image, dot_image C g z,
    dot_image C y z]

omit [LinearOrder K] [IsStrictOrderedRing K] in
theorem etaOf_image (hC : IsUnit C) (eta : K) (z g' : Fin n → K) :
    etaOf (C * Cᵀ) eta (C *ᵥ z) g' = etaOf 1 eta z (Cᵀ *ᵥ g') := by
  rw [etaOf, etaOf, inverse_image hC, inv_one, one_mulVec, dotProduct_comm (C *ᵥ z),
    dot_image C g' z, dotProduct_comm z (Cᵀ *ᵥ g')]

/-! ## The update -/

/-- Two updates weigh the last direction in the same way, and the direction of the first one is the
image under `C` of that of the second one. -/
def DirectionUpdate.IsImage (C : Matrix (Fin n) (Fin n) K) (u u' : DirectionUpdate (Exact G) n) :
    Prop :=
  ∃ (beta : K) (d : Fin n → K), u.beta = .num beta ∧ u'.beta = .num beta ∧
    u.direction = Vec.num (C *ᵥ d) ∧ u'.direction = Vec.num d

/-- The update with a preconditioner that acts as `C Cᵀ` is the image of the update without one. -/
theorem Operator.Acts.updateDirection_isImage {P : Operator (Exact G) n} (hP : P.Acts (C * Cᵀ))
    (hC : IsUnit C) (eta : K) (hy : (g - g') ⬝ᵥ C *ᵥ z ≠ 0) :
    (updateDirection P (.num eta) (Vec.num (C *ᵥ z)) (Vec.num g) (Vec.num g')).IsImage C
      (updateDirection .identity (.num eta) (Vec.num z) (Vec.num (Cᵀ *ᵥ g))
        (Vec.num (Cᵀ *ᵥ g'))) := by
  have hz : z ≠ 0 := by
    rintro rfl
    rw [mulVec_zero, dotProduct_zero] at hy
    exact hy rfl
  have hs : C *ᵥ z ≠ 0 := by
    intro hzero
    rw [hzero, dotProduct_zero] at hy
    exact hy rfl
  have hy' : (Cᵀ *ᵥ g - Cᵀ *ᵥ g') ⬝ᵥ z ≠ 0 := by rwa [← mulVec_sub, ← dot_image]
  have hidentity : (Operator.identity : Operator (Exact G) n).Acts 1 := Operator.identity_acts
  have hbeta : max (betaOf (C * Cᵀ) (C *ᵥ z) g (g - g')) (etaOf (C * Cᵀ) eta (C *ᵥ z) g') =
      max (betaOf 1 z (Cᵀ *ᵥ g) (Cᵀ *ᵥ g - Cᵀ *ᵥ g')) (etaOf 1 eta z (Cᵀ *ᵥ g')) := by
    rw [betaOf_image, etaOf_image hC, mulVec_sub]
  refine ⟨_, _, updateDirection_beta hP hs hy, ?_, ?_, updateDirection_num hidentity hz hy'⟩
  · rw [hbeta]
    exact updateDirection_beta hidentity hz hy'
  · rw [updateDirection_num hP hs hy, hbeta, mulVec_sub, mulVec_smul, one_mulVec, mulVec_mulVec]

/-- **Preconditioning is a change of variables.** For every invertible matrix `C`, the matrix
`C Cᵀ` is accepted as a preconditioner, and for a diagonal one so are the squares of its entries as
weights. With either of them, an update from `s = C z` and gradients `g`, `g'` weighs the last
direction as does the update without a preconditioner from `z` and gradients `Cᵀ g`, `Cᵀ g'`, and
leads to the image under `C` of its direction. -/
theorem updateDirection_changeOfVariables (hsqrt : ∀ x, 0 < x → G.sqrt x * G.sqrt x = x)
    (hC : IsUnit C) (eta : K) (hy : (g - g') ⬝ᵥ C *ᵥ z ≠ 0) :
    let u' : DirectionUpdate (Exact G) n := updateDirection .identity (.num eta) (Vec.num z)
      (Vec.num (Cᵀ *ᵥ g)) (Vec.num (Cᵀ *ᵥ g'))
    let u (P : Operator (Exact G) n) : DirectionUpdate (Exact G) n :=
      updateDirection P (.num eta) (Vec.num (C *ᵥ z)) (Vec.num g) (Vec.num g')
    (∃ w P, Weighting.ofMatrix? (Mat.num (C * Cᵀ)).toTensor = .ok w ∧ w.sized n = .ok P ∧
      (u P).IsImage C u') ∧
    ∀ c : Fin n → K, C = Matrix.diagonal c →
      ∃ w P, Weighting.ofWeights? (.ofVec (Vec.num fun i ↦ c i ^ 2)) = .ok w ∧
        w.sized n = .ok P ∧ (u P).IsImage C u' := by
  intro u' u
  have hspd : SPD (C * Cᵀ) := .mul_transpose hC
  refine ⟨⟨_, _, Weighting.ofMatrix?_spd hsqrt hspd, Weighting.sized_matrix _ _, ?_⟩, fun c hc ↦ ?_⟩
  · exact (Operator.matrix_acts hspd).updateDirection_isImage hC eta hy
  · have hsquares : C * Cᵀ = Matrix.diagonal fun i ↦ c i ^ 2 := by
      rw [hc, diagonal_transpose, diagonal_mul_diagonal]
      exact congrArg _ (funext fun i ↦ (pow_two (c i)).symm)
    have hpos : ∀ i, 0 < c i ^ 2 := by
      intro i
      rw [hc, isUnit_diagonal] at hC
      exact sq_pos_of_ne_zero (Pi.isUnit_iff.mp hC i).ne_zero
    have hacts := Operator.diagonal_acts (G := G) hpos
    rw [← hsquares] at hacts
    refine ⟨_, _, rfl, Weighting.sized_diagonal (Vec.num fun i ↦ c i ^ 2), ?_⟩
    exact hacts.updateDirection_isImage hC eta hy

/-- In the plane, with a shear `C` and its matrix `C Cᵀ`, and with a diagonal matrix and the squares
of its entries. -/
theorem updateDirection_changeOfVariables_plane :
    (∃ w P, Weighting.ofMatrix? (Mat.num (G := Grid.real) !![1, 1; 1, 2]).toTensor = .ok w ∧
      w.sized 2 = .ok P ∧
      (updateDirection P (.num (2 / 5)) (Vec.num ![1, 1]) (Vec.num ![1, 1]) (Vec.num 0)).IsImage
        !![1, 0; 1, 1] (updateDirection .identity (.num (2 / 5)) (Vec.num ![1, 0])
          (Vec.num ![2, 1]) (Vec.num 0))) ∧
    ∃ w P, Weighting.ofWeights? (.ofVec (Vec.num (G := Grid.real) ![4, 9])) = .ok w ∧
      w.sized 2 = .ok P ∧
      (updateDirection P (.num (2 / 5)) (Vec.num ![2, 0]) (Vec.num ![1, 1]) (Vec.num 0)).IsImage
        (Matrix.diagonal ![2, 3]) (updateDirection .identity (.num (2 / 5)) (Vec.num ![1, 0])
          (Vec.num ![2, 3]) (Vec.num 0)) := by
  constructor
  · let C : Matrix (Fin 2) (Fin 2) ℝ := !![1, 0; 1, 1]
    have hC : IsUnit C := by
      rw [isUnit_iff_isUnit_det, det_fin_two_of]
      norm_num
    have hproduct : C * Cᵀ = !![1, 1; 1, 2] := by
      ext i j
      fin_cases i <;> fin_cases j <;> norm_num [C, mul_apply, Fin.sum_univ_two]
    have himage : C *ᵥ ![1, 0] = ![1, 1] := by
      ext i
      fin_cases i <;> norm_num [C, mulVec, dotProduct, Fin.sum_univ_two]
    have hgradient : Cᵀ *ᵥ ![1, 1] = ![2, 1] := by
      ext i
      fin_cases i <;> norm_num [C, mulVec, dotProduct, Fin.sum_univ_two]
    have hy : (![1, 1] - 0) ⬝ᵥ C *ᵥ ![1, 0] ≠ 0 := by
      rw [himage]
      norm_num [dotProduct, Fin.sum_univ_two]
    have hmatrix := (updateDirection_changeOfVariables Grid.real_sqrt hC (2 / 5) hy).1
    rwa [hproduct, himage, hgradient, mulVec_zero] at hmatrix
  · let c : Fin 2 → ℝ := ![2, 3]
    have hC : IsUnit (Matrix.diagonal c) := by
      rw [isUnit_iff_isUnit_det, det_diagonal]
      norm_num [c, Fin.prod_univ_two]
    have hsquares : (fun i ↦ c i ^ 2) = ![4, 9] := by
      ext i
      fin_cases i <;> norm_num [c]
    have himage : Matrix.diagonal c *ᵥ ![1, 0] = ![2, 0] := by
      ext i
      fin_cases i <;> norm_num [c, mulVec_diagonal]
    have hgradient : (Matrix.diagonal c)ᵀ *ᵥ ![1, 1] = ![2, 3] := by
      ext i
      fin_cases i <;> norm_num [c, mulVec_diagonal]
    have hy : (![1, 1] - 0) ⬝ᵥ Matrix.diagonal c *ᵥ ![1, 0] ≠ 0 := by
      rw [himage]
      norm_num [dotProduct, Fin.sum_univ_two]
    have hweights := (updateDirection_changeOfVariables Grid.real_sqrt hC (2 / 5) hy).2 c rfl
    rwa [hsquares, himage, hgradient, mulVec_zero] at hweights

end NonlinearCG
