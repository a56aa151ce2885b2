import Mathlib
import NonlinearCG.Proofs.Exact.Diagonal

/-!
# Elimination

In exact arithmetic elimination with row exchanges decides whether a matrix of numbers is
nonsingular, and solves the system if it is.

One round exchanges the first row for the pivot row and takes the first variable out of the others.
The systems before and after it have the same solutions (`mulVec_vecCons_eq_iff`), so a singular
remainder comes from a singular matrix. The pivot is largest in its column. Where it is zero the
column is, and the matrix takes the first unit vector to zero.
-/

namespace NonlinearCG

open Matrix

variable {K : Type} [Field K] {n : ℕ}

/-! ## Taking out a variable -/

/-- The matrix takes only zero to zero. -/
def Nonsingular (A : Matrix (Fin n) (Fin n) K) : Prop := ∀ v, A *ᵥ v = 0 → v = 0

/-- What remains of a matrix when its first row takes the first variable out of the others. -/
def eliminated (A : Matrix (Fin (n + 1)) (Fin (n + 1)) K) : Matrix (Fin n) (Fin n) K :=
  Matrix.of fun i j ↦
    A i.succ j.succ - vecHead (A i.succ) / vecHead (vecHead A) * vecTail (vecHead A) j

/-- What remains of the right-hand side. -/
def reduced (A : Matrix (Fin (n + 1)) (Fin (n + 1)) K) (b : Fin (n + 1) → K) (i : Fin n) : K :=
  b i.succ - vecHead (A i.succ) / vecHead (vecHead A) * vecHead b

/-- The first variable from the first equation and the other variables. -/
def leading (A : Matrix (Fin (n + 1)) (Fin (n + 1)) K) (b : Fin (n + 1) → K) (y : Fin n → K) : K :=
  (vecHead b - vecTail (vecHead A) ⬝ᵥ y) / vecHead (vecHead A)

section Step

variable {A : Matrix (Fin (n + 1)) (Fin (n + 1)) K} {b : Fin (n + 1) → K} {t : K} {y : Fin n → K}

theorem eliminated_apply (i j : Fin n) :
    eliminated A i j = A i.succ j.succ - A i.succ 0 / A 0 0 * A 0 j.succ := rfl

theorem reduced_apply (i : Fin n) : reduced A b i = b i.succ - A i.succ 0 / A 0 0 * b 0 := rfl

theorem leading_eq : leading A b y = (b 0 - (fun j ↦ A 0 j.succ) ⬝ᵥ y) / A 0 0 := rfl

theorem mulVec_vecCons_eq_iff (hA : A 0 0 ≠ 0) :
    A *ᵥ vecCons t y = b ↔ t = leading A b y ∧ eliminated A *ᵥ y = reduced A b := by
  -- the product, row by row, with the first coordinate of the vector set apart
  have hrow : ∀ i, (A *ᵥ vecCons t y) i = A i 0 * t + ∑ j : Fin n, A i j.succ * y j := by
    intro i
    rw [mulVec, dotProduct, Fin.sum_univ_succ]
    rfl
  have hrest : ∀ i, (eliminated A *ᵥ y) i =
      ∑ j : Fin n, A i.succ j.succ * y j - A i.succ 0 / A 0 0 * ∑ j : Fin n, A 0 j.succ * y j := by
    intro i
    simp only [mulVec, dotProduct, eliminated_apply, sub_mul, Finset.sum_sub_distrib,
      Finset.mul_sum, mul_assoc]
  have hfirst : A 0 0 * t + ∑ j : Fin n, A 0 j.succ * y j = b 0 ↔ t = leading A b y := by
    rw [leading_eq, eq_div_iff hA, eq_sub_iff_add_eq, mul_comm t]
    rfl
  rw [funext_iff, Fin.forall_fin_succ, hrow, hfirst]
  refine and_congr_right fun ht ↦ Iff.trans (forall_congr' fun i ↦ ?_) funext_iff.symm
  -- the first row determines the first coordinate, which is put into the other rows
  have hfactor : A i.succ 0 * t =
      A i.succ 0 / A 0 0 * (b 0 - ∑ j : Fin n, A 0 j.succ * y j) := by
    rw [← hfirst.mpr ht, add_sub_cancel_right, ← mul_assoc, div_mul_cancel₀ _ hA]
  rw [hrow, hrest, reduced_apply, hfactor]
  constructor
  · intro h
    linear_combination h
  · intro h
    linear_combination h

theorem reduced_zero : reduced A 0 = 0 := by
  funext i
  rw [reduced_apply, Pi.zero_apply, Pi.zero_apply, mul_zero, sub_zero]
  rfl

theorem leading_zero : leading A 0 0 = 0 := by
  rw [leading_eq, dotProduct_zero, Pi.zero_apply, sub_zero, zero_div]

theorem nonsingular_eliminated_iff (hA : A 0 0 ≠ 0) :
    Nonsingular (eliminated A) ↔ Nonsingular A := by
  constructor
  · intro h v hv
    rw [← cons_head_tail v, mulVec_vecCons_eq_iff hA, reduced_zero] at hv
    have htail := h _ hv.2
    rw [htail, leading_zero] at hv
    rw [← cons_head_tail v, htail, hv.1, cons_zero_zero]
  · intro h y hy
    have hzero := h _ ((mulVec_vecCons_eq_iff hA).mpr ⟨rfl, hy.trans reduced_zero.symm⟩)
    exact (cons_eq_zero_iff.mp hzero).2

end Step

/-! ## Exchanging rows -/

section Rows

variable (A : Matrix (Fin n) (Fin n) K) (e : Equiv.Perm (Fin n)) (v : Fin n → K)

theorem submatrix_mulVec_eq : A.submatrix e id *ᵥ v = (A *ᵥ v) ∘ e := rfl

theorem nonsingular_submatrix_iff : Nonsingular (A.submatrix e id) ↔ Nonsingular A := by
  refine forall_congr' fun v ↦ imp_congr_left ?_
  rw [submatrix_mulVec_eq]
  exact e.surjective.injective_comp_right.eq_iff (b := 0)

end Rows

/-! ## Elimination on numbers -/

namespace Mat

variable [LinearOrder K] {G : Grid K}

/-- The search for the pivot ends at an entry that is at least as large as those before it. -/
theorem le_foldl_pivot (A : Matrix (Fin (n + 1)) (Fin (n + 1)) K) (l : List (Fin (n + 1)))
    (best : Fin (n + 1)) :
    let p := l.foldl (fun best i ↦ if Scalar.abs ((num (G := G) A).entry best 0) <
      Scalar.abs ((num A).entry i 0) then i else best) best
    |A best 0| ≤ |A p 0| ∧ ∀ i ∈ l, |A i 0| ≤ |A p 0| := by
  induction l generalizing best with
  | nil => exact ⟨le_rfl, fun i hi ↦ by cases hi⟩
  | cons i l ih =>
    simp only [entry_num, Exact.abs_num, Exact.num_lt] at ih ⊢
    rw [List.foldl_cons]
    split_ifs with hlt
    · obtain ⟨hi, hl⟩ := ih i
      exact ⟨hlt.le.trans hi, List.forall_mem_cons.mpr ⟨hi, hl⟩⟩
    · obtain ⟨hbest, hl⟩ := ih best
      exact ⟨hbest, List.forall_mem_cons.mpr ⟨(not_lt.mp hlt).trans hbest, hl⟩⟩

theorem le_pivotRow (A : Matrix (Fin (n + 1)) (Fin (n + 1)) K) (i : Fin (n + 1)) :
    |A i 0| ≤ |A (pivotRow (num (G := G) A)) 0| :=
  (le_foldl_pivot A (List.finRange (n + 1)) 0).2 i (List.mem_finRange i)

variable [IsStrictOrderedRing K]

theorem not_nonsingular_of_pivot {A : Matrix (Fin (n + 1)) (Fin (n + 1)) K}
    (h : A (pivotRow (num (G := G) A)) 0 = 0) : ¬Nonsingular A := by
  intro hA
  have hcolumn : A *ᵥ Pi.single 0 1 = 0 := by
    rw [mulVec_single_one]
    funext i
    have hle := le_pivotRow (G := G) A i
    rw [h, abs_zero] at hle
    exact abs_nonpos_iff.mp hle
  exact one_ne_zero (Pi.single_eq_zero_iff.mp (hA _ hcolumn))

theorem solve_num_succ {A : Matrix (Fin (n + 1)) (Fin (n + 1)) K} {p : Fin (n + 1)}
    (hp : pivotRow (num (G := G) A) = p) (hne : A p 0 ≠ 0) (b : Fin (n + 1) → K) :
    solve (num (G := G) A) (Vec.num b) =
      (solve (num (eliminated (A.submatrix (Equiv.swap 0 p) id)))
        (Vec.num (reduced (A.submatrix (Equiv.swap 0 p) id) (b ∘ Equiv.swap 0 p)))).bind fun x ↦
          some (Vector.ofFn fun i ↦
            i.cases ((.num (b p) - Vec.dot (Vec.num fun j ↦ A p j.succ) x) / .num (A p 0))
              x.get) := by
  have hswap : ∀ i, (if i = 0 then p else if i = p then 0 else i) = Equiv.swap 0 p i :=
    fun i ↦ (Equiv.swap_apply_def 0 p i).symm
  have hget : ∀ i, (Vec.num (G := G) b).get i = .num (b i) := get_ofFn _
  rw [solve]
  simp only [hp, hswap, hget, entry_num, get_ofFn, Exact.zero_eq, Exact.num_beq, hne, decide_false,
    Bool.false_eq_true, if_false, Exact.num_div hne, Exact.num_mul, Exact.num_sub]
  simp only [num, Vec.num, eliminated_apply, reduced_apply, submatrix_apply, Function.comp_apply,
    Equiv.swap_apply_left, id_eq]
  rfl

/-- **Elimination** solves every system of a nonsingular matrix of numbers, and meets a zero pivot
in every other matrix. -/
theorem solve_num (A : Matrix (Fin n) (Fin n) K) (b : Fin n → K) :
    (Nonsingular A ∧ ∃ x, solve (num (G := G) A) (Vec.num b) = some (Vec.num x) ∧ A *ᵥ x = b) ∨
      ¬Nonsingular A ∧ solve (num (G := G) A) (Vec.num b) = none := by
  induction n with
  | zero => exact Or.inl ⟨fun v _ ↦ Subsingleton.elim v 0, b, rfl, Subsingleton.elim _ b⟩
  | succ n ih =>
    obtain ⟨p, hp⟩ : ∃ p, pivotRow (num (G := G) A) = p := ⟨_, rfl⟩
    by_cases hne : A p 0 = 0
    · -- no row has a pivot in the first column
      refine Or.inr ⟨not_nonsingular_of_pivot (hp ▸ hne), ?_⟩
      rw [solve]
      simp only [hp, entry_num, Exact.zero_eq, Exact.num_beq, hne, decide_true, if_true]
    · -- the system with its rows exchanged, whose corner is the pivot
      let B := A.submatrix (Equiv.swap 0 p) id
      let c := b ∘ Equiv.swap 0 p
      have hrow : B 0 = A p := congrArg A (Equiv.swap_apply_left 0 p)
      have hcorner : B 0 0 ≠ 0 := by rwa [hrow]
      have hregular : Nonsingular (eliminated B) ↔ Nonsingular A :=
        (nonsingular_eliminated_iff hcorner).trans (nonsingular_submatrix_iff A _)
      rw [solve_num_succ hp hne]
      rcases ih (eliminated B) (reduced B c) with ⟨hrest, y, hsolve, hy⟩ | ⟨hrest, hnone⟩
      · refine Or.inl ⟨hregular.mp hrest, vecCons (leading B c y) y, ?_, ?_⟩
        · have hc : c 0 = b p := congrArg b (Equiv.swap_apply_left 0 p)
          rw [hsolve, Option.bind_some, Vec.dot_num, Exact.num_sub, Exact.num_div hne, leading_eq,
            hrow, hc]
          refine congrArg some (congrArg Vector.ofFn (funext fun i ↦ ?_))
          cases i using Fin.cases with
          | zero => rfl
          | succ i => exact get_ofFn _ i
        · have hsolves := (mulVec_vecCons_eq_iff hcorner).mpr ⟨rfl, hy⟩
          exact (Equiv.swap 0 p).surjective.injective_comp_right hsolves
      · refine Or.inr ⟨fun hA ↦ hrest (hregular.mpr hA), ?_⟩
        rw [hnone, Option.bind_none]

end Mat

end NonlinearCG
