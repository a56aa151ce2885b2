import Mathlib
import NonlinearCG.Proofs.Exact.Operator

/-!
# Weights as a diagonal matrix

Positive weights can be given as such or as the matrix that has them on its diagonal. The matrix
goes through a test of symmetry, a Cholesky factorization and the inversion of the factor. All three
stay within the diagonal matrices, and in exact arithmetic, with square roots that are ones, the
inverse that comes out is the diagonal matrix of the inverse weights (`choleskyInverse_diagonal`).
Both ways therefore lead to operators that act as the same matrix.
-/

namespace NonlinearCG

open Matrix

variable {K : Type} [Field K] [LinearOrder K] {G : Grid K} {n : ℕ} {p l : Fin n → K}

/-! ## Matrices and their arrays -/

namespace Mat

variable {α : Type}

theorem get_ofFn (f : Fin n → α) (i : Fin n) : (Vector.ofFn f).get i = f i := by
  rw [Vector.get_eq_getElem, Vector.getElem_ofFn]

theorem ext_entry {A B : Mat α n} (h : ∀ i j, A.entry i j = B.entry i j) : A = B := by
  obtain ⟨rows⟩ := A
  obtain ⟨rows'⟩ := B
  refine congrArg Mat.mk (Vector.ext fun i hi ↦ Vector.ext fun j hj ↦ ?_)
  exact h ⟨i, hi⟩ ⟨j, hj⟩

/-- The square array of a matrix. -/
def toTensor (A : Mat α n) : Tensor α where
  shape := [n, n]
  entries := Vector.ofFn fun k ↦
    have hk : k.val < n * n := by simpa [Shape.size] using k.isLt
    A.entry ⟨k / n, Nat.div_lt_of_lt_mul hk⟩
      ⟨k % n, Nat.mod_lt _ (Nat.pos_of_mul_pos_left (Nat.zero_lt_of_lt hk))⟩

theorem ofTensor?_toTensor [Inhabited α] (A : Mat α n) : ofTensor? A.toTensor = some ⟨n, A⟩ := by
  rw [toTensor, ofTensor?, if_pos rfl]
  refine congrArg (fun B ↦ some (Sigma.mk n B)) (ext_entry fun i j ↦ ?_)
  have hn : 0 < n := i.pos
  have hlt : i.val * n + j.val < Shape.size [n, n] := by
    have hrow : (i.val + 1) * n ≤ n * n := Nat.mul_le_mul_right n i.isLt
    rw [Nat.succ_mul] at hrow
    simp only [Shape.size, mul_one]
    exact (Nat.add_lt_add_left j.isLt _).trans_le hrow
  have hdiv : (i.val * n + j.val) / n = i := by
    rw [mul_comm, Nat.mul_add_div hn, Nat.div_eq_of_lt j.isLt, add_zero]
  have hmod : (i.val * n + j.val) % n = j := by
    rw [mul_comm, Nat.mul_add_mod, Nat.mod_eq_of_lt j.isLt]
  rw [entry_ofFn, Array.getD_eq_getD_getElem?, Vector.getElem?_toArray]
  refine (congrArg (Option.getD · default) (Vector.getElem?_eq_getElem hlt)).trans ?_
  rw [Option.getD_some, Vector.getElem_ofFn]
  simp only [hdiv, hmod]

def num (M : Matrix (Fin n) (Fin n) K) : Mat (Exact G) n := ofFn fun i j ↦ .num (M i j)

omit [Field K] [LinearOrder K] in
@[simp] theorem entry_num (M : Matrix (Fin n) (Fin n) K) (i j : Fin n) :
    (num (G := G) M).entry i j = .num (M i j) := entry_ofFn _ i j

omit [Field K] [LinearOrder K] in
theorem transpose_num (M : Matrix (Fin n) (Fin n) K) :
    (num (G := G) M).transpose = num M.transpose :=
  ext_entry fun i j ↦ by rw [transpose, entry_ofFn, entry_num, entry_num, transpose_apply]

variable [IsStrictOrderedRing K]

theorem mul_num (M N : Matrix (Fin n) (Fin n) K) :
    (num M).mul (num N) = num (G := G) (M * N) := by
  refine ext_entry fun i j ↦ ?_
  have hrow : (num (G := G) M).rows.get i = Vec.num (M i) := by
    refine Vector.ext fun k hk ↦ ?_
    rw [Vec.getElem_num]
    exact entry_num M i ⟨k, hk⟩
  have hcolumn : (num (G := G) N).transpose.rows.get j = Vec.num fun k ↦ N k j := by
    refine Vector.ext fun k hk ↦ ?_
    rw [Vec.getElem_num, transpose_num]
    exact entry_num _ j ⟨k, hk⟩
  rw [mul, entry_ofFn, hrow, hcolumn, Vec.dot_num, entry_num]
  rfl

/-! ## Diagonal matrices -/

theorem diagonal_num (p : Fin n → K) : diagonal (Vec.num (G := G) p) = num (Matrix.diagonal p) := by
  refine ext_entry fun i j ↦ ?_
  rw [diagonal, entry_ofFn, entry_num, diagonal_apply, Exact.zero_eq]
  split_ifs
  · exact Vec.getElem_num p i i.isLt
  · rfl

omit [IsStrictOrderedRing K] in
theorem isSymmetric_num {M : Matrix (Fin n) (Fin n) K} (hM : M.IsSymm) :
    (num (G := G) M).isSymmetric = true := by
  simp only [isSymmetric, List.all_eq_true, entry_num]
  intro i _ j _
  rw [hM.apply, close, Exact.num_beq, decide_eq_true rfl, Bool.or_true]

omit [LinearOrder K] [IsStrictOrderedRing K] in
theorem bordered_diagonal (p : Fin (n + 1) → K) :
    bordered (.num (p 0)) (fun _ ↦ .num 0) (fun _ ↦ .num 0)
      (num (G := G) (Matrix.diagonal fun i : Fin n ↦ p i.succ)).entry =
      num (Matrix.diagonal p) := by
  refine ext_entry fun i j ↦ ?_
  rw [bordered, entry_ofFn, entry_num]
  cases i using Fin.cases with
  | zero =>
    cases j using Fin.cases with
    | zero => simp
    | succ j => simp [(Fin.succ_ne_zero j).symm]
  | succ i =>
    cases j using Fin.cases with
    | zero => simp
    | succ j => simp [diagonal_apply]

omit [LinearOrder K] [IsStrictOrderedRing K] in
theorem entry_succ_succ (p : Fin (n + 1) → K) (i j : Fin n) :
    (num (G := G) (Matrix.diagonal p)).entry i.succ j.succ =
      .num (Matrix.diagonal (fun i ↦ p i.succ) i j) := by
  simp [diagonal_apply]

omit [LinearOrder K] [IsStrictOrderedRing K] in
theorem entry_succ_zero (p : Fin (n + 1) → K) (i : Fin n) :
    (num (G := G) (Matrix.diagonal p)).entry i.succ 0 = .num 0 := by
  simp

theorem cholesky_diagonal (hp : ∀ i, 0 < p i) (hl : ∀ i, G.sqrt (p i) = l i)
    (hne : ∀ i, l i ≠ 0) :
    cholesky (num (G := G) (Matrix.diagonal p)) = some (num (Matrix.diagonal l)) := by
  induction n with
  | zero => exact congrArg some (ext_entry fun i ↦ i.elim0)
  | succ n ih =>
    have hcorner : (num (G := G) (Matrix.diagonal p)).entry 0 0 = .num (p 0) := by simp
    have hsqrt : Scalar.sqrt (Exact.num (G := G) (p 0)) = .num (l 0) :=
      (if_neg (hp 0).not_gt).trans (congrArg Exact.num (hl 0))
    have hcolumn : ∀ i : Fin n, (Vector.ofFn fun i : Fin n ↦
        (num (G := G) (Matrix.diagonal p)).entry i.succ 0 / .num (l 0)).get i = .num 0 := by
      intro i
      rw [get_ofFn, entry_succ_zero, Exact.num_div (hne 0), zero_div]
    have hrest := ih (fun i ↦ hp i.succ) (fun i ↦ hl i.succ) fun i ↦ hne i.succ
    rw [cholesky]
    simp only [hcorner, hsqrt, hcolumn, entry_succ_succ, Exact.zero_eq, Exact.num_lt, hp 0, if_true,
      Exact.num_mul, Exact.num_sub, mul_zero, sub_zero]
    change (cholesky (num _)).bind _ = _
    rw [hrest]
    exact congrArg some (bordered_diagonal l)

theorem lowerInverse_diagonal (hne : ∀ i, l i ≠ 0) :
    lowerInverse (num (G := G) (Matrix.diagonal l)) = num (Matrix.diagonal fun i ↦ (l i)⁻¹) := by
  induction n with
  | zero => exact ext_entry fun i ↦ i.elim0
  | succ n ih =>
    have hcorner : (num (G := G) (Matrix.diagonal l)).entry 0 0 = .num (l 0) := by simp
    have hrest := ih fun i ↦ hne i.succ
    have hcolumn : ∀ i, ((num (G := G) (Matrix.diagonal fun i : Fin n ↦ (l i.succ)⁻¹)).mulVec
        (Vector.ofFn fun _ ↦ .num 0)).get i = .num 0 := by
      intro i
      have hzero := Operator.mulVec_num (G := G) (Matrix.diagonal fun i : Fin n ↦ (l i.succ)⁻¹) 0
      rw [mulVec_zero] at hzero
      exact (congrArg (Vector.get · i) hzero).trans (get_ofFn _ i)
    rw [lowerInverse]
    simp only [hcorner, entry_succ_zero, entry_succ_succ]
    change bordered _ _ (fun i ↦ -((lowerInverse (num _)).mulVec _).get i / _)
      (lowerInverse (num _)).entry = _
    rw [hrest]
    simp only [hcolumn, Exact.one_eq, Exact.zero_eq, Exact.num_neg, Exact.num_div (hne 0), neg_zero,
      zero_div, one_div]
    exact bordered_diagonal fun i ↦ (l i)⁻¹

/-- **The inverse that comes from the Cholesky factor** of a diagonal matrix is the one of its
weights, if the square roots of the weights are ones. -/
theorem choleskyInverse_diagonal (hp : ∀ i, 0 < p i)
    (hsqrt : ∀ i, G.sqrt (p i) * G.sqrt (p i) = p i) :
    choleskyInverse (num (G := G) (Matrix.diagonal p)) =
      some (num (Matrix.diagonal fun i ↦ (p i)⁻¹)) := by
  have hne : ∀ i, G.sqrt (p i) ≠ 0 := by
    intro i hzero
    have hsquare := hsqrt i
    rw [hzero, mul_zero] at hsquare
    exact (hp i).ne hsquare
  have hinverse : ∀ i, (G.sqrt (p i))⁻¹ * (G.sqrt (p i))⁻¹ = (p i)⁻¹ := fun i ↦ by
    rw [← mul_inv, hsqrt]
  change (cholesky (num _)).bind _ = _
  rw [cholesky_diagonal hp (fun _ ↦ rfl) hne]
  change some ((lowerInverse _).transpose.mul (lowerInverse _)) = _
  rw [lowerInverse_diagonal hne, transpose_num, diagonal_transpose, mul_num,
    diagonal_mul_diagonal]
  simp only [hinverse]

end Mat

theorem Weighting.ofMatrix?_diagonal [IsStrictOrderedRing K] (hp : ∀ i, 0 < p i)
    (hsqrt : ∀ i, G.sqrt (p i) * G.sqrt (p i) = p i) :
    ofMatrix? (Mat.diagonal (Vec.num (G := G) p)).toTensor =
      .ok (.matrix (Mat.num (Matrix.diagonal p)) (Mat.num (Matrix.diagonal p)⁻¹)) := by
  simp only [ofMatrix?, Mat.ofTensor?_toTensor, Mat.diagonal_num,
    Mat.isSymmetric_num (isSymm_diagonal p), Mat.choleskyInverse_diagonal hp hsqrt,
    Operator.inv_diagonal_of_pos hp]
  rfl

end NonlinearCG
