import Mathlib
import NonlinearCG.Proofs.Exact.Diagonal

/-!
# Cholesky factors

In exact arithmetic, with square roots that are ones, the factorization of a matrix of numbers
decides whether the symmetric matrix in its lower triangle is positive definite, and the inverse
that comes from the factor is the inverse of that symmetric matrix.

Both recursions take off the first row and column. What remains of a symmetric matrix is its Schur
complement. It is positive definite with the matrix, because a vector that solves the first equation
sees nothing of the matrix but the complement (`schur_mulVec`). A factor, on the other hand, is
itself the proof that its product is positive definite (`IsFactor.spd`), so the recursion has to
carry the factor only.
-/

namespace NonlinearCG

open Matrix

variable {K : Type} [Field K] [LinearOrder K] {G : Grid K} {n : ℕ}

/-! ## Reading a lower triangle -/

section LowerTriangle

omit [Field K] [LinearOrder K]

/-- The symmetric matrix that has the lower triangle of `A`. -/
def lowerMirror (A : Matrix (Fin n) (Fin n) K) : Matrix (Fin n) (Fin n) K :=
  Matrix.of fun i j ↦ if j ≤ i then A i j else A j i

theorem lowerMirror_of_le (A : Matrix (Fin n) (Fin n) K) {i j : Fin n} (h : j ≤ i) :
    lowerMirror A i j = A i j :=
  if_pos h

theorem lowerMirror_isSymm (A : Matrix (Fin n) (Fin n) K) : (lowerMirror A).IsSymm := by
  ext i j
  rw [transpose_apply, lowerMirror, of_apply, of_apply]
  rcases lt_trichotomy i j with h | rfl | h
  · rw [if_pos h.le, if_neg h.not_ge]
  · rfl
  · rw [if_neg h.not_ge, if_pos h.le]

theorem lowerMirror_eq {A : Matrix (Fin n) (Fin n) K} (hA : A.IsSymm) : lowerMirror A = A := by
  ext i j
  by_cases h : j ≤ i
  · exact lowerMirror_of_le A h
  · exact (if_neg h).trans (hA.apply i j)

end LowerTriangle

/-! ## Schur complements -/

section Schur

/-- What remains of a matrix without its first row and column, less the products of `c`. -/
def schur (S : Matrix (Fin (n + 1)) (Fin (n + 1)) K) (c : Fin n → K) : Matrix (Fin n) (Fin n) K :=
  S.submatrix Fin.succ Fin.succ - vecMulVec c c

omit [LinearOrder K] in
theorem schur_apply (S : Matrix (Fin (n + 1)) (Fin (n + 1)) K) (c : Fin n → K) (i j : Fin n) :
    schur S c i j = S i.succ j.succ - c i * c j := rfl

omit [LinearOrder K] in
theorem lowerMirror_schur (A : Matrix (Fin (n + 1)) (Fin (n + 1)) K) (c : Fin n → K) :
    lowerMirror (schur A c) = schur (lowerMirror A) c := by
  ext i j
  simp only [lowerMirror, schur_apply, of_apply, Fin.succ_le_succ_iff]
  split_ifs
  · rfl
  · rw [mul_comm]

variable {S : Matrix (Fin (n + 1)) (Fin (n + 1)) K} {l : K} {c : Fin n → K}

omit [LinearOrder K] in
/-- On a vector that solves the first equation of a symmetric matrix, the matrix is its Schur
complement. -/
theorem schur_mulVec (hS : S.IsSymm) (hcorner : S 0 0 = l * l)
    (hcolumn : ∀ i : Fin n, S i.succ 0 = l * c i) {t : K} {v : Fin n → K}
    (h : l * t + c ⬝ᵥ v = 0) : S *ᵥ vecCons t v = vecCons 0 (schur S c *ᵥ v) := by
  have hrow : ∀ j : Fin n, S 0 j.succ = l * c j := fun j ↦ (hS.apply _ _).trans (hcolumn j)
  ext i
  cases i using Fin.cases with
  | zero =>
    have hfirst : (S *ᵥ vecCons t v) 0 = l * (l * t + c ⬝ᵥ v) := by
      simp only [mulVec, dotProduct, Fin.sum_univ_succ, cons_val_zero, cons_val_succ, hcorner, hrow,
        mul_add, Finset.mul_sum, mul_assoc]
    rw [hfirst, h, mul_zero]
    rfl
  | succ i =>
    have hother : (S *ᵥ vecCons t v) i.succ = (schur S c *ᵥ v) i + c i * (l * t + c ⬝ᵥ v) := by
      simp only [mulVec, dotProduct, Fin.sum_univ_succ, cons_val_zero, cons_val_succ, hcolumn,
        schur_apply, sub_mul, Finset.sum_sub_distrib, mul_add, Finset.mul_sum, mul_assoc]
      ring
    rw [hother, h, mul_zero, add_zero]
    rfl

theorem SPD.schur (hS : SPD S) (hl : l ≠ 0) (hcorner : S 0 0 = l * l)
    (hcolumn : ∀ i : Fin n, S i.succ 0 = l * c i) : SPD (schur S c) := by
  refine ⟨?_, fun v hv ↦ ?_⟩
  · ext i j
    rw [transpose_apply, schur_apply, schur_apply, hS.symm.apply, mul_comm]
  · -- the vector is completed to one that solves the first equation
    have hsolves : l * (-(c ⬝ᵥ v) / l) + c ⬝ᵥ v = 0 := by
      rw [mul_div_cancel₀ _ hl, neg_add_cancel]
    have hne : vecCons (-(c ⬝ᵥ v) / l) v ≠ 0 := fun h ↦ hv (cons_eq_zero_iff.mp h).2
    have hpos := hS.pos _ hne
    rwa [schur_mulVec hS.symm hcorner hcolumn hsolves, cons_dotProduct_cons, mul_zero,
      zero_add] at hpos

theorem SPD.corner_pos (hS : SPD S) : 0 < S 0 0 := by
  have hpos := hS.pos (Pi.single 0 1) (Pi.single_ne_zero_iff.mpr one_ne_zero)
  rwa [single_one_dotProduct, mulVec_single_one] at hpos

end Schur

/-! ## Factors -/

theorem SPD.mul_transpose [IsStrictOrderedRing K] {C : Matrix (Fin n) (Fin n) K} (hC : IsUnit C) :
    SPD (C * Cᵀ) := by
  refine ⟨?_, fun v hv ↦ ?_⟩
  · rw [IsSymm, transpose_mul, transpose_transpose]
  · have hne : Cᵀ *ᵥ v ≠ 0 := by
      intro hzero
      rw [← mulVec_zero Cᵀ] at hzero
      exact hv (mulVec_injective_iff_isUnit.mpr ((isUnit_transpose C).mpr hC) hzero)
    have hsquare : v ⬝ᵥ (C * Cᵀ) *ᵥ v = (Cᵀ *ᵥ v) ⬝ᵥ (Cᵀ *ᵥ v) := by
      rw [← mulVec_mulVec, dotProduct_mulVec, ← mulVec_transpose]
    calc 0 < (Cᵀ *ᵥ v) ⬝ᵥ (Cᵀ *ᵥ v) :=
          (Vec.dotProduct_self_nonneg _).lt_of_ne' (dotProduct_self_eq_zero.not.mpr hne)
      _ = v ⬝ᵥ (C * Cᵀ) *ᵥ v := hsquare.symm

/-- A lower triangular matrix without zeros on its diagonal, whose product with its transpose
is `S`. -/
structure IsFactor (L S : Matrix (Fin n) (Fin n) K) : Prop where
  lower : L.IsLowerTriangular
  diagonal (i : Fin n) : L i i ≠ 0
  product : L * Lᵀ = S

namespace IsFactor

variable {L S : Matrix (Fin n) (Fin n) K}

omit [LinearOrder K] in
theorem isUnit (h : IsFactor L S) : IsUnit L := by
  rw [isUnit_iff_isUnit_det, det_of_isLowerTriangular L h.lower]
  exact (Finset.prod_ne_zero_iff.mpr fun i _ ↦ h.diagonal i).isUnit

theorem spd [IsStrictOrderedRing K] (h : IsFactor L S) : SPD S := by
  rw [← h.product]
  exact .mul_transpose h.isUnit

end IsFactor

/-! ## The recursions on matrices of numbers -/

/-- A lower triangular matrix with a first column. -/
def border (l : K) (c : Fin n → K) (L : Matrix (Fin n) (Fin n) K) :
    Matrix (Fin (n + 1)) (Fin (n + 1)) K :=
  Matrix.of fun i j ↦ i.cases (j.cases l fun _ ↦ 0) fun i ↦ j.cases (c i) (L i)

section Border

variable {l : K} {c : Fin n → K} {L : Matrix (Fin n) (Fin n) K}

omit [LinearOrder K]

@[simp] theorem border_zero_zero : border l c L 0 0 = l := rfl

@[simp] theorem border_zero_succ (j : Fin n) : border l c L 0 j.succ = 0 := rfl

@[simp] theorem border_succ_zero (i : Fin n) : border l c L i.succ 0 = c i := rfl

@[simp] theorem border_succ_succ (i j : Fin n) : border l c L i.succ j.succ = L i j := rfl

theorem eq_border {L : Matrix (Fin (n + 1)) (Fin (n + 1)) K} (h : L.IsLowerTriangular) :
    L = border (L 0 0) (fun i ↦ L i.succ 0) (L.submatrix Fin.succ Fin.succ) := by
  ext i j
  cases i using Fin.cases with
  | zero =>
    cases j using Fin.cases with
    | zero => rfl
    | succ j => exact h (Fin.succ_pos j)
  | succ i => cases j using Fin.cases <;> rfl

theorem border_mul_border (l l' : K) (c c' : Fin n → K) (L L' : Matrix (Fin n) (Fin n) K) :
    border l c L * border l' c' L' =
      border (l * l') (fun i ↦ c i * l' + (L *ᵥ c') i) (L * L') := by
  ext i j
  rw [mul_apply, Fin.sum_univ_succ]
  cases i using Fin.cases with
  | zero => cases j using Fin.cases <;> simp
  | succ i =>
    cases j using Fin.cases with
    | zero => rfl
    | succ j => simp [mul_apply]

theorem border_one : border (1 : K) (fun _ : Fin n ↦ 0) 1 = 1 := by
  ext i j
  cases i using Fin.cases with
  | zero =>
    cases j using Fin.cases with
    | zero => rfl
    | succ j => exact (one_apply_ne (Fin.succ_ne_zero j).symm).symm
  | succ i =>
    cases j using Fin.cases with
    | zero => exact (one_apply_ne (Fin.succ_ne_zero i)).symm
    | succ j => simp [one_apply]

theorem Mat.bordered_num (l : K) (c : Fin n → K) (L : Matrix (Fin n) (Fin n) K) :
    bordered (.num l) (fun _ ↦ .num 0) (fun i ↦ .num (c i)) (num (G := G) L).entry =
      num (border l c L) := by
  refine ext_entry fun i j ↦ ?_
  rw [bordered, entry_ofFn, entry_num]
  cases i using Fin.cases with
  | zero => cases j using Fin.cases <;> rfl
  | succ i =>
    cases j using Fin.cases with
    | zero => rfl
    | succ j => exact entry_num L i j

/-- The factor of a Schur complement, with the column that was taken off, is a factor of the
matrix. -/
theorem IsFactor.border {S : Matrix (Fin (n + 1)) (Fin (n + 1)) K} (h : IsFactor L (schur S c))
    (hS : S.IsSymm) (hl : l ≠ 0) (hcorner : S 0 0 = l * l)
    (hcolumn : ∀ i : Fin n, S i.succ 0 = l * c i) : IsFactor (border l c L) S := by
  refine ⟨fun i j hij ↦ ?_, fun i ↦ ?_, ?_⟩
  · cases j using Fin.cases with
    | zero => exact absurd hij (Fin.not_lt_zero i)
    | succ j =>
      cases i using Fin.cases with
      | zero => rfl
      | succ i => exact h.lower (Fin.succ_lt_succ_iff.mp hij)
  · cases i using Fin.cases with
    | zero => exact hl
    | succ i => exact h.diagonal i
  · have hproduct (i j : Fin n) : ∑ k, L i k * L j k = S i.succ j.succ - c i * c j := by
      rw [← schur_apply, ← h.product]
      rfl
    ext i j
    -- the first column adds what the Schur complement has taken off
    rw [mul_apply, Fin.sum_univ_succ]
    cases i using Fin.cases with
    | zero =>
      cases j using Fin.cases with
      | zero => simp [hcorner]
      | succ j => simp [← hS.apply 0 j.succ, hcolumn]
    | succ i =>
      cases j using Fin.cases with
      | zero => simp [hcolumn, mul_comm]
      | succ j => simp [hproduct]

end Border

namespace Mat

variable [IsStrictOrderedRing K]

/-- The factorization of a matrix of numbers takes off the first column, over the square root of the
corner, and goes on with the Schur complement. -/
theorem cholesky_num_succ {A : Matrix (Fin (n + 1)) (Fin (n + 1)) K} (hcorner : 0 < A 0 0)
    (hne : G.sqrt (A 0 0) ≠ 0) :
    cholesky (num (G := G) A) =
      (cholesky (num (schur A fun i ↦ A i.succ 0 / G.sqrt (A 0 0)))).bind fun L ↦
        some (bordered (.num (G.sqrt (A 0 0))) (fun _ ↦ .num 0)
          (fun i ↦ .num (A i.succ 0 / G.sqrt (A 0 0))) L.entry) := by
  have hsqrt : Scalar.sqrt (Exact.num (G := G) (A 0 0)) = .num (G.sqrt (A 0 0)) :=
    if_neg hcorner.not_gt
  rw [cholesky]
  simp only [entry_num, Exact.zero_eq, Exact.num_lt, hcorner, if_true, hsqrt, get_ofFn,
    Exact.num_div hne, Exact.num_mul, Exact.num_sub]
  rfl

/-- **Factorization.** A matrix of numbers has a Cholesky factor exactly if the symmetric matrix in
its lower triangle is positive definite. -/
theorem cholesky_num (hsqrt : ∀ x, 0 < x → G.sqrt x * G.sqrt x = x)
    (A : Matrix (Fin n) (Fin n) K) :
    (∃ L, cholesky (num (G := G) A) = some (num L) ∧ IsFactor L (lowerMirror A)) ∨
      cholesky (num (G := G) A) = none ∧ ¬SPD (lowerMirror A) := by
  induction n with
  | zero =>
    refine Or.inl ⟨A, congrArg some (ext_entry fun i ↦ i.elim0), ?_, fun i ↦ i.elim0, ?_⟩
    · exact fun i ↦ i.elim0
    · ext i
      exact i.elim0
  | succ n ih =>
    by_cases hcorner : 0 < A 0 0
    · have hsquare := hsqrt _ hcorner
      have hne : G.sqrt (A 0 0) ≠ 0 := by
        intro hzero
        rw [hzero, mul_zero] at hsquare
        exact hcorner.ne hsquare
      -- the column of the factor below the corner
      let c : Fin n → K := fun i ↦ A i.succ 0 / G.sqrt (A 0 0)
      have hcolumn : ∀ i : Fin n, lowerMirror A i.succ 0 = G.sqrt (A 0 0) * c i := by
        intro i
        rw [lowerMirror_of_le A (Fin.zero_le _), mul_div_cancel₀ _ hne]
      have hmirror : lowerMirror A 0 0 = G.sqrt (A 0 0) * G.sqrt (A 0 0) := hsquare.symm
      rw [cholesky_num_succ hcorner hne]
      rcases ih (schur A c) with ⟨L, hL, hfactor⟩ | ⟨hnone, hspd⟩
      · rw [lowerMirror_schur] at hfactor
        refine Or.inl ⟨_, ?_, hfactor.border (lowerMirror_isSymm A) hne hmirror hcolumn⟩
        rw [hL]
        exact congrArg some (bordered_num _ _ _)
      · rw [lowerMirror_schur] at hspd
        refine Or.inr ⟨?_, fun hA ↦ hspd (hA.schur hne hmirror hcolumn)⟩
        rw [hnone]
        rfl
    · -- the corner of a positive definite matrix is positive
      refine Or.inr ⟨?_, fun hA ↦ hcorner hA.corner_pos⟩
      rw [cholesky]
      simp only [entry_num, Exact.zero_eq, Exact.num_lt, hcorner, if_false]

theorem lowerInverse_num (L : Matrix (Fin n) (Fin n) K) (hlower : L.IsLowerTriangular)
    (hne : ∀ i, L i i ≠ 0) : ∃ R, lowerInverse (num (G := G) L) = num R ∧ R * L = 1 := by
  induction n with
  | zero =>
    refine ⟨1, ext_entry fun i ↦ i.elim0, ?_⟩
    ext i
    exact i.elim0
  | succ n ih =>
    obtain ⟨R, hR, hinverse⟩ := ih (L.submatrix Fin.succ Fin.succ)
      (fun _ _ hij ↦ hlower (Fin.succ_lt_succ_iff.mpr hij)) fun i ↦ hne i.succ
    have hcorner := hne 0
    let c : Fin n → K := fun i ↦ L i.succ 0
    have hcolumn : ∀ i, ((num (G := G) R).mulVec (Vec.num c)).get i = .num ((R *ᵥ c) i) := by
      intro i
      exact (congrArg (Vector.get · i) (Operator.mulVec_num R c)).trans (get_ofFn _ i)
    -- the inverse in blocks, of which the first column is to be checked
    refine ⟨border (1 / L 0 0) (fun i ↦ -(R *ᵥ c) i / L 0 0) R, ?_, ?_⟩
    · rw [lowerInverse]
      simp only [entry_num]
      change bordered _ _ (fun i ↦ -((lowerInverse (num (L.submatrix Fin.succ Fin.succ))).mulVec
        (Vec.num c)).get i / _) (lowerInverse (num (L.submatrix Fin.succ Fin.succ))).entry = _
      rw [hR]
      simp only [hcolumn, Exact.one_eq, Exact.zero_eq, Exact.num_neg, Exact.num_div hcorner]
      exact bordered_num _ _ _
    · rw [eq_border hlower, border_mul_border, hinverse]
      simp only [border_zero_zero, div_mul_cancel₀ _ hcorner]
      change border 1 (fun i ↦ -(R *ᵥ c) i + (R *ᵥ c) i) 1 = 1
      simp only [neg_add_cancel, border_one]

/-- **The inverse that comes from the Cholesky factor** is that of the symmetric matrix in the lower
triangle, and there is one exactly if this matrix is positive definite. -/
theorem choleskyInverse_num (hsqrt : ∀ x, 0 < x → G.sqrt x * G.sqrt x = x)
    (A : Matrix (Fin n) (Fin n) K) :
    SPD (lowerMirror A) ∧ choleskyInverse (num (G := G) A) = some (num (lowerMirror A)⁻¹) ∨
      ¬SPD (lowerMirror A) ∧ choleskyInverse (num (G := G) A) = none := by
  rcases cholesky_num hsqrt A with ⟨L, hL, hfactor⟩ | ⟨hnone, hspd⟩
  · obtain ⟨R, hR, hinverse⟩ := lowerInverse_num (G := G) L hfactor.lower hfactor.diagonal
    refine Or.inl ⟨hfactor.spd, ?_⟩
    have hright : Lᵀ * Rᵀ = 1 := by rw [← transpose_mul, hinverse, transpose_one]
    have hproduct : Rᵀ * R * lowerMirror A = 1 := by
      rw [← hfactor.product, Matrix.mul_assoc, ← Matrix.mul_assoc R, hinverse, Matrix.one_mul,
        mul_eq_one_comm.mp hright]
    change (cholesky (num _)).bind _ = _
    rw [hL]
    change some ((lowerInverse _).transpose.mul (lowerInverse _)) = _
    rw [hR, transpose_num, mul_num, inv_eq_left_inv hproduct]
  · refine Or.inr ⟨hspd, ?_⟩
    change (cholesky (num _)).bind _ = _
    rw [hnone]
    rfl

end Mat

/-! ## Matrices as preconditioners -/

namespace Weighting

theorem ofMatrix?_spd [IsStrictOrderedRing K] (hsqrt : ∀ x, 0 < x → G.sqrt x * G.sqrt x = x)
    {M : Matrix (Fin n) (Fin n) K} (hM : SPD M) :
    ofMatrix? (Mat.num (G := G) M).toTensor = .ok (.matrix (Mat.num M) (Mat.num M⁻¹)) := by
  have hinverse : (Mat.num (G := G) M).choleskyInverse = some (Mat.num M⁻¹) := by
    rcases Mat.choleskyInverse_num hsqrt M with ⟨-, h⟩ | ⟨h, -⟩
    · rwa [lowerMirror_eq hM.symm] at h
    · rw [lowerMirror_eq hM.symm] at h
      exact absurd hM h
  simp only [ofMatrix?, Mat.ofTensor?_toTensor, Mat.isSymmetric_num hM.symm, hinverse]
  rfl

end Weighting

/-- The reals with their square roots. -/
noncomputable def Grid.real : Grid ℝ where
  sqrt := Real.sqrt
  spacing _ := 1 / 2 ^ 52
  nextUp x := x + 1 / 2 ^ 52
  halvings _ _ := 1100

theorem Grid.real_sqrt (x : ℝ) (h : 0 < x) : real.sqrt x * real.sqrt x = x :=
  Real.mul_self_sqrt h.le

end NonlinearCG
