import Mathlib
import NonlinearCG.Proofs.Exact.Cholesky
import NonlinearCG.Proofs.Exact.Elimination
import NonlinearCG.Proofs.Problem.Gradient

/-!
# Minimizers of the test problems

The Rosenbrock and Powell functions are sums of even powers, and their listed solution is the only
point where all of them vanish. A quadratic function of a positive definite matrix is, up to a
constant, the quadratic form of the distance from the point where its gradient vanishes, and this
is the point that elimination finds.
-/

namespace NonlinearCG

open Matrix

variable {K : Type} [Field K] [LinearOrder K] [IsStrictOrderedRing K] {G : Grid K}

/-! ## Completing the square -/

section Quadratic

variable {n : ℕ} {A : Matrix (Fin n) (Fin n) K} {b m : Fin n → K}

omit [IsStrictOrderedRing K] in
theorem SPD.nonsingular (hA : SPD A) : Nonsingular A := by
  intro v hv
  by_contra hne
  exact hA.mulVec_ne_zero hne hv

omit [IsStrictOrderedRing K] in
theorem SPD.mulVec_sub_eq_zero_iff (hA : SPD A) (hm : A *ᵥ m = b) (x : Fin n → K) :
    A *ᵥ x - b = 0 ↔ x = m := by
  rw [← hm, ← mulVec_sub]
  constructor
  · intro h
    exact sub_eq_zero.mp (hA.nonsingular _ h)
  · rintro rfl
    rw [sub_self, mulVec_zero]

theorem quadraticValue_eq_add (hA : SPD A) (hm : A *ᵥ m = b) (x : Fin n → K) :
    quadraticValue A b x = quadraticValue A b m + (x - m) ⬝ᵥ A *ᵥ (x - m) / 2 := by
  have halong := quadraticValue_along (b := b) hA m (x - m) 1
  rwa [one_smul, add_sub_cancel, hm, sub_self, zero_dotProduct, zero_mul, add_zero, one_pow,
    mul_one] at halong

theorem quadraticValue_le (hA : SPD A) (hm : A *ᵥ m = b) (x : Fin n → K) :
    quadraticValue A b m ≤ quadraticValue A b x := by
  rw [quadraticValue_eq_add hA hm x, le_add_iff_nonneg_right]
  exact div_nonneg (hA.nonneg _) zero_le_two

theorem quadraticValue_eq_iff (hA : SPD A) (hm : A *ᵥ m = b) (x : Fin n → K) :
    quadraticValue A b x = quadraticValue A b m ↔ x = m := by
  constructor
  · intro h
    by_contra hne
    have hpos := half_pos (hA.pos _ (sub_ne_zero.mpr hne))
    rw [quadraticValue_eq_add hA hm x] at h
    exact hpos.ne' (add_eq_left.mp h)
  · rintro rfl
    rfl

theorem Quadratic.solution?_num (hA : SPD A) (b : Fin n → K) :
    ∃ m, (num A b).solution? = some (Vec.num (G := G) m) ∧ A *ᵥ m = b := by
  rcases Mat.solve_num (G := G) A b with ⟨-, hsolve⟩ | ⟨hsingular, -⟩
  · exact hsolve
  · exact absurd hA.nonsingular hsingular

end Quadratic

/-! ## Listed solutions -/

omit [Field K] [LinearOrder K] [IsStrictOrderedRing K] in
theorem Vec.toList_num_const (n : ℕ) (c : K) :
    (num (G := G) fun _ : Fin n ↦ c).toList = List.replicate n (.num c) := by
  rw [num, Vector.toList_ofFn, List.ofFn_const]

namespace Problem

section Criteria

/-- The point is the only listed solution, and the only point of numbers where the value is
smallest. -/
structure SoleMinimizer (p : Problem (Exact G)) (m : Fin p.dimension → K) : Prop where
  listed : p.solutions = .ok [(Vec.num m).toList]
  least : ∃ v, p.value (Vec.num m).toList = .ok (.num v) ∧
    ∀ x : Fin p.dimension → K,
      ∃ w, p.value (Vec.num x).toList = .ok (.num w) ∧ v ≤ w ∧ (w = v ↔ x = m)

/-- The point is the only point of numbers where the gradient is zero. -/
def SoleStationary (p : Problem (Exact G)) (m : Fin p.dimension → K) : Prop :=
  ∀ x : Fin p.dimension → K,
    p.gradient (Vec.num x).toList = .ok (Vec.num (0 : Fin p.dimension → K)).toList ↔ x = m

variable {p : Problem (Exact G)} {height : (Fin p.dimension → K) → K}
  {slopes : (Fin p.dimension → K) → Fin p.dimension → K} {m : Fin p.dimension → K}

omit [IsStrictOrderedRing K] in
theorem Computes.soleMinimizer (hp : p.Computes height slopes)
    (hlisted : p.solutions = .ok [(Vec.num m).toList]) (hle : ∀ x, height m ≤ height x)
    (heq : ∀ x, height x = height m ↔ x = m) : p.SoleMinimizer m :=
  ⟨hlisted, height m, hp.value m, fun x ↦ ⟨height x, hp.value x, hle x, heq x⟩⟩

omit [IsStrictOrderedRing K] in
theorem Computes.soleMinimizer_of_nonneg (hp : p.Computes height slopes)
    (hlisted : p.solutions = .ok [(Vec.num m).toList]) (hle : ∀ x, 0 ≤ height x)
    (hzero : ∀ x, height x = 0 ↔ x = m) : p.SoleMinimizer m := by
  have hm : height m = 0 := (hzero m).mpr rfl
  refine hp.soleMinimizer hlisted (fun x ↦ hm.trans_le (hle x)) fun x ↦ ?_
  rw [hm, hzero]

omit [IsStrictOrderedRing K] in
theorem Computes.soleStationary (hp : p.Computes height slopes)
    (hzero : ∀ x, slopes x = 0 ↔ x = m) : p.SoleStationary m := by
  intro x
  rw [hp.gradient, ← hzero, Except.ok.injEq, Vector.toList_inj, Vec.num_injective.eq_iff]

end Criteria

theorem rosenbrock_soleMinimizer (n : ℕ) :
    (rosenbrock (n + 2) : Problem (Exact G)).SoleMinimizer fun _ ↦ 1 := by
  refine (rosenbrock_computes n).soleMinimizer_of_nonneg ?_ Rosenbrock.height_nonneg
    Rosenbrock.height_eq_zero_iff
  rw [solutions, Rosenbrock.solution, Exact.one_eq]
  exact congrArg (fun l ↦ Except.ok [l]) (Vec.toList_num_const (n + 2) 1).symm

theorem powell_soleMinimizer (k : ℕ) :
    (powell (k * 4) : Problem (Exact G)).SoleMinimizer fun _ ↦ 0 := by
  refine (powell_computes k).soleMinimizer_of_nonneg ?_ Powell.height_nonneg
    Powell.height_eq_zero_iff
  rw [solutions, Powell.solution, Exact.zero_eq]
  exact congrArg (fun l ↦ Except.ok [l]) (Vec.toList_num_const (k * 4) 0).symm

theorem powell_soleStationary (k : ℕ) :
    (powell (k * 4) : Problem (Exact G)).SoleStationary fun _ ↦ 0 :=
  (powell_computes k).soleStationary Powell.slopes_eq_zero_iff

theorem quadratic_soleMinimizer {n : ℕ} {A : Matrix (Fin n) (Fin n) K} (hA : SPD A)
    (b : Fin n → K) :
    ∃ m : Fin n → K, A *ᵥ m = b ∧ (quadratic (.num A b) : Problem (Exact G)).SoleMinimizer m := by
  obtain ⟨m, hsolution, hm⟩ := Quadratic.solution?_num (G := G) hA b
  refine ⟨m, hm, (quadratic_computes A b).soleMinimizer ?_ (quadraticValue_le hA hm)
    (quadraticValue_eq_iff hA hm)⟩
  rw [solutions, hsolution]
  rfl

/-- **The listed solutions are the global minimizers.** At every other point of numbers the
Rosenbrock function, the Powell function and a quadratic function of a positive definite matrix are
larger than at the only solution that is listed. For the last two it is also the only point where
the gradient is zero. -/
theorem solutions_are_minimizers :
    (∀ n : ℕ, (rosenbrock (n + 2) : Problem (Exact G)).SoleMinimizer fun _ ↦ 1) ∧
    (∀ k : ℕ, (powell (k * 4) : Problem (Exact G)).SoleMinimizer (fun _ ↦ 0) ∧
      (powell (k * 4) : Problem (Exact G)).SoleStationary fun _ ↦ 0) ∧
    ∀ {n : ℕ} {A : Matrix (Fin n) (Fin n) K}, SPD A → ∀ b : Fin n → K,
      ∃ m : Fin n → K, A *ᵥ m = b ∧ (quadratic (.num A b) : Problem (Exact G)).SoleMinimizer m ∧
        (quadratic (.num A b) : Problem (Exact G)).SoleStationary m := by
  refine ⟨rosenbrock_soleMinimizer, fun k ↦ ⟨powell_soleMinimizer k, powell_soleStationary k⟩,
    fun {n A} hA b ↦ ?_⟩
  obtain ⟨m, hm, hminimizer⟩ := quadratic_soleMinimizer hA b
  exact ⟨m, hm, hminimizer,
    (quadratic_computes A b).soleStationary (hA.mulVec_sub_eq_zero_iff hm)⟩

/-- The minimizers in the plane and in four variables; that of the quadratic function is found with
an exchange of rows. -/
theorem solutions_are_minimizers_small :
    (rosenbrock 2 : Problem (Exact Grid.rational)).SoleMinimizer (fun _ ↦ 1) ∧
    (powell 4 : Problem (Exact Grid.rational)).SoleStationary (fun _ ↦ 0) ∧
    (quadratic (.num !![1, 2; 2, 5] ![3, 7]) : Problem (Exact Grid.rational)).SoleMinimizer
      ![1, 1] := by
  obtain ⟨hrosenbrock, hpowell, hquadratic⟩ := solutions_are_minimizers (G := Grid.rational)
  refine ⟨hrosenbrock 0, (hpowell 1).2, ?_⟩
  have hC : IsUnit (!![1, 0; 2, 1] : Matrix (Fin 2) (Fin 2) ℚ) := by
    rw [isUnit_iff_isUnit_det, det_fin_two_of]
    norm_num
  have hproduct : (!![1, 0; 2, 1] : Matrix (Fin 2) (Fin 2) ℚ) * !![1, 0; 2, 1]ᵀ =
      !![1, 2; 2, 5] := by decide +kernel
  have hA := SPD.mul_transpose hC
  rw [hproduct] at hA
  obtain ⟨m, hm, hminimizer, -⟩ := hquadratic hA ![3, 7]
  have hone : !![1, 2; 2, 5] *ᵥ ![1, 1] = (![3, 7] : Fin 2 → ℚ) := by decide +kernel
  have heq : ![1, 1] = m := (hA.mulVec_sub_eq_zero_iff hm _).mp (sub_eq_zero.mpr hone)
  rwa [heq]

end Problem

end NonlinearCG
