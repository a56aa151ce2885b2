import Mathlib
import NonlinearCG.Problem
import NonlinearCG.Proofs.Exact.Diagonal
import NonlinearCG.Proofs.Exact.Quadratic
import NonlinearCG.Proofs.Problem.Powell
import NonlinearCG.Proofs.Problem.Rosenbrock

/-!
# Gradients of the test problems

On numbers every test problem computes a polynomial function, its height, and a vector of
polynomials, its slopes (`Problem.Computes`). Along any line through a point the height expands with
the slopes as linear coefficient, so the gradient of each problem is the derivative of its value.
-/

namespace NonlinearCG

open Matrix Polynomial

variable {K : Type} [Field K]

/-! ## Himmelblau's function of numbers -/

namespace Himmelblau

def height (x : Fin 2 → K) : K :=
  (x 0 * x 0 + x 1 - 11) ^ 2 + (x 0 + x 1 * x 1 - 7) ^ 2

def slopes (x : Fin 2 → K) : Fin 2 → K := ![
  2 * (2 * x 0 * (x 0 * x 0 + x 1 - 11) + (x 0 + x 1 * x 1 - 7)),
  2 * ((x 0 * x 0 + x 1 - 11) + 2 * x 1 * (x 0 + x 1 * x 1 - 7))]

theorem height_expands (x h : Fin 2 → K) :
    Expands (fun t ↦ height (x + t • h)) (height x) (slopes x ⬝ᵥ h) := by
  have h₀ := Expands.line (x 0) (h 0)
  have h₁ := Expands.line (x 1) (h 1)
  have hfirst := ((h₀.mul h₀).add h₁).sub (Expands.const 11)
  have hsecond := (h₀.add (h₁.mul h₁)).sub (Expands.const 7)
  refine ((hfirst.mul hfirst).add (hsecond.mul hsecond)).of_eq (fun t ↦ ?_) ?_ ?_
  · simp only [height, Pi.add_apply, Pi.smul_apply, smul_eq_mul, sq]
  · rw [height, sq, sq]
  · simp only [slopes, dotProduct, Fin.sum_univ_two, cons_val]
    ring

variable [LinearOrder K] [IsStrictOrderedRing K] {G : Grid K}

theorem value_num (x : Fin 2 → K) :
    value (.num (x 0)) (.num (x 1)) = (.num (height x) : Exact G) := by
  simp only [value, first, second, Exact.ofScientific_eq, Exact.num_mul, Exact.num_sub,
    Exact.num_add, Exact.num_inj, height]
  norm_num [sq]

theorem gradient_num (x : Fin 2 → K) :
    gradient (.num (x 0)) (.num (x 1)) = List.ofFn fun i ↦ (.num (slopes x i) : Exact G) := by
  have hlist : ∀ f : Fin 2 → Exact G, List.ofFn f = [f 0, f 1] := fun _ ↦ rfl
  rw [hlist]
  simp only [gradient, first, second, Exact.ofScientific_eq, Exact.num_mul, Exact.num_sub,
    Exact.num_add, slopes, cons_val, List.cons.injEq, Exact.num_inj, and_true]
  constructor
  · norm_num
    ring
  · norm_num
    ring

end Himmelblau

/-! ## Quadratic functions -/

theorem quadraticValue_expands [LinearOrder K] [IsStrictOrderedRing K] {n : ℕ}
    {A : Matrix (Fin n) (Fin n) K} (hA : A.IsSymm)
    (b x h : Fin n → K) :
    Expands (fun t ↦ quadraticValue A b (x + t • h)) (quadraticValue A b x)
      ((A *ᵥ x - b) ⬝ᵥ h) := by
  have hquadratic := (Expands.dotProduct x h (A *ᵥ x) (A *ᵥ h)).const_mul (1 / 2)
  have hlinear := Expands.dotProduct b 0 x h
  have hcross : x ⬝ᵥ A *ᵥ h = (A *ᵥ x) ⬝ᵥ h := by
    rw [dotProduct_mulVec, ← mulVec_transpose, hA.eq]
  refine (hquadratic.sub hlinear).of_eq (fun t ↦ ?_) rfl ?_
  · rw [quadraticValue, mulVec_add, mulVec_smul, smul_zero, add_zero]
  · rw [hcross, dotProduct_comm h, zero_dotProduct, add_zero, sub_dotProduct, ← two_mul,
      ← mul_assoc, one_div_mul_cancel two_ne_zero, one_mul]

theorem Quadratic.sphere_eq_num [LinearOrder K] [IsStrictOrderedRing K] {G : Grid K} (n : ℕ) :
    sphere n = num (G := G) (diagonal fun _ ↦ 2) 0 := by
  have hA : Mat.scalar (α := Exact G) n 2.0 =
      Mat.ofFn fun i j ↦ .num (diagonal (fun _ ↦ (2 : K)) i j) := by
    refine Mat.ext_entry fun i j ↦ ?_
    rw [Mat.scalar, Mat.entry_ofFn, Mat.entry_ofFn, diagonal_apply, Exact.two_eq, Exact.zero_eq]
    split_ifs <;> rfl
  have hb : Vector.replicate n (0.0 : Exact G) = Vec.num 0 := by
    refine Vector.ext fun i hi ↦ ?_
    rw [Vector.getElem_replicate, Vec.getElem_num, Exact.zero_eq]
    rfl
  rw [sphere, num, hA, hb]

/-! ## The test problems on numbers -/

namespace Problem

variable [LinearOrder K] {G : Grid K}

/-- At points of numbers the value and the gradient of the problem are these functions. -/
structure Computes (p : Problem (Exact G)) (height : (Fin p.dimension → K) → K)
    (slopes : (Fin p.dimension → K) → Fin p.dimension → K) : Prop where
  value (x : Fin p.dimension → K) : p.value (Vec.num x).toList = .ok (.num (height x))
  gradient (x : Fin p.dimension → K) :
    p.gradient (Vec.num x).toList = .ok (Vec.num (slopes x)).toList

/-- The problems of numbers, in the dimensions that their families have, where the matrix of a
quadratic one is symmetric. -/
inductive Regular : Problem (Exact G) → Prop where
  | himmelblau : Regular himmelblau
  | powell (m : ℕ) : Regular (powell (m * 4))
  | quadratic {n : ℕ} {A : Matrix (Fin n) (Fin n) K} (hA : A.IsSymm) (b : Fin n → K) :
    Regular (quadratic (.num A b))
  | rosenbrock (n : ℕ) : Regular (rosenbrock (n + 2))

variable [IsStrictOrderedRing K]

theorem himmelblau_computes :
    (himmelblau : Problem (Exact G)).Computes Himmelblau.height Himmelblau.slopes := by
  refine ⟨fun x ↦ congrArg Except.ok (Himmelblau.value_num x), fun x ↦ congrArg Except.ok ?_⟩
  exact (Himmelblau.gradient_num x).trans Vector.toList_ofFn.symm

theorem value_powell {m : ℕ} (x : Fin (m * 4) → K) :
    (powell (m * 4)).value (Vec.num (G := G) x).toList = .ok (.num (Powell.height x)) := by
  rw [value, Vec.num, Vector.toList_ofFn, Powell.blocks?_ofFn]
  exact congrArg Except.ok (Powell.value_num x)

theorem gradient_powell {m : ℕ} (x : Fin (m * 4) → K) :
    (powell (m * 4)).gradient (Vec.num (G := G) x).toList =
      .ok (Vec.num (Powell.slopes x)).toList := by
  rw [gradient, Vec.num, Vec.num, Vector.toList_ofFn, Vector.toList_ofFn, Powell.blocks?_ofFn]
  exact congrArg Except.ok (Powell.gradient_num x)

theorem powell_computes (m : ℕ) :
    (powell (m * 4) : Problem (Exact G)).Computes Powell.height Powell.slopes :=
  ⟨value_powell, gradient_powell⟩

theorem value_quadratic {n : ℕ} (A : Matrix (Fin n) (Fin n) K) (b x : Fin n → K) :
    (quadratic (.num A b)).value (Vec.num (G := G) x).toList =
      .ok (.num (quadraticValue A b x)) := by
  rw [value, dif_pos Vector.length_toList]
  exact congrArg Except.ok (Quadratic.value_num x)

theorem gradient_quadratic {n : ℕ} (A : Matrix (Fin n) (Fin n) K) (b x : Fin n → K) :
    (quadratic (.num A b)).gradient (Vec.num (G := G) x).toList =
      .ok (Vec.num (A *ᵥ x - b)).toList := by
  rw [gradient, dif_pos Vector.length_toList]
  exact congrArg (Except.ok ∘ Vector.toList) (Quadratic.gradient_num x)

theorem quadratic_computes {n : ℕ} (A : Matrix (Fin n) (Fin n) K) (b : Fin n → K) :
    (quadratic (.num A b) : Problem (Exact G)).Computes (quadraticValue A b)
      fun x ↦ A *ᵥ x - b :=
  ⟨value_quadratic A b, gradient_quadratic A b⟩

theorem rosenbrock_computes (n : ℕ) :
    (rosenbrock (n + 2) : Problem (Exact G)).Computes Rosenbrock.height
      (Rosenbrock.slopesFrom 0) :=
  ⟨fun x ↦ congrArg Except.ok (Rosenbrock.value_num x),
    fun x ↦ congrArg Except.ok (Rosenbrock.gradient_num x)⟩

theorem Regular.computes {p : Problem (Exact G)} (hp : p.Regular) :
    ∃ height slopes, p.Computes height slopes ∧
      ∀ x h, Expands (fun t ↦ height (x + t • h)) (height x) (slopes x ⬝ᵥ h) := by
  cases hp with
  | himmelblau => exact ⟨_, _, himmelblau_computes, Himmelblau.height_expands⟩
  | powell m => exact ⟨_, _, powell_computes m, Powell.height_expands⟩
  | quadratic hA b => exact ⟨_, _, quadratic_computes _ b, quadraticValue_expands hA b⟩
  | rosenbrock n => exact ⟨_, _, rosenbrock_computes n, Rosenbrock.height_expands⟩

/-- The problems that users ask for by name and dimension are regular. -/
theorem regular_of_ofDimension? {family : ProblemFamily} {n? : Option ℤ} {p : Problem (Exact G)}
    (h : ofDimension? family n? = .ok p) : p.Regular := by
  rw [ofDimension?.eq_def] at h
  generalize n?.getD (if family = .powell then 4 else 2) = n at h
  -- every family checks the dimension, which leaves the ones of its own form
  cases family with
  | himmelblau =>
    dsimp only at h
    split_ifs at h
    cases h
    exact .himmelblau
  | powell =>
    dsimp only at h
    split_ifs at h
    cases h
    obtain ⟨m, hm⟩ : ∃ m, n.toNat = m * 4 := ⟨n.toNat / 4, by omega⟩
    rw [hm]
    exact .powell m
  | quadratic =>
    dsimp only at h
    split_ifs at h
    cases h
    rw [Quadratic.sphere_eq_num]
    exact .quadratic (isSymm_diagonal _) 0
  | rosenbrock =>
    dsimp only at h
    split_ifs at h
    cases h
    obtain ⟨m, hm⟩ : ∃ m, n.toNat = m + 2 := ⟨n.toNat - 2, by omega⟩
    rw [hm]
    exact .rosenbrock m

/-- **The gradient is the derivative of the value.** At a point of numbers a problem has a gradient
of numbers. Along every line through the point the value is a polynomial in the step, its constant
term is the value at the point, and its linear coefficient is the inner product of the gradient with
the direction of the line. -/
theorem gradient_is_derivative {p : Problem (Exact G)} (hp : p.Regular)
    (x : Fin p.dimension → K) :
    ∃ g : Fin p.dimension → K, p.gradient (Vec.num x).toList = .ok (Vec.num g).toList ∧
      ∀ h : Fin p.dimension → K, ∃ q : K[X],
        (∀ t, p.value (Vec.num (x + t • h)).toList = .ok (.num (q.eval t))) ∧
        p.value (Vec.num x).toList = .ok (.num (q.coeff 0)) ∧ q.coeff 1 = g ⬝ᵥ h := by
  obtain ⟨height, slopes, hcomputes, hexpands⟩ := hp.computes
  refine ⟨slopes x, hcomputes.gradient x, fun h ↦ ?_⟩
  obtain ⟨q, heval, hconstant, hlinear⟩ := hexpands x h
  refine ⟨q, fun t ↦ ?_, ?_, hlinear⟩
  · rw [hcomputes.value, ← heval]
  · rw [hcomputes.value, hconstant]

/-- The Rosenbrock function of three variables at `(0, 1, 2)`, where the gradient is
`(-2, -200, 200)`. -/
theorem gradient_is_derivative_rosenbrock :
    let p : Problem (Exact Grid.rational) := .rosenbrock 3
    let x : Fin 3 → ℚ := ![0, 1, 2]
    p.gradient (Vec.num x).toList = .ok (Vec.num ![-2, -200, 200]).toList ∧
      ∀ h : Fin 3 → ℚ, ∃ q : ℚ[X],
        (∀ t, p.value (Vec.num (x + t • h)).toList = .ok (.num (q.eval t))) ∧
        p.value (Vec.num x).toList = .ok (.num (q.coeff 0)) ∧
        q.coeff 1 = ![-2, -200, 200] ⬝ᵥ h := by
  intro p x
  have hslopes : Rosenbrock.slopesFrom 0 x = ![-2, -200, 200] := by decide +kernel
  have hgradient : p.gradient (Vec.num x).toList = .ok (Vec.num ![-2, -200, 200]).toList := by
    rw [← hslopes]
    exact (rosenbrock_computes 1).gradient x
  obtain ⟨g, hg, hexpands⟩ := gradient_is_derivative (.rosenbrock 1) x
  have heq : g = ![-2, -200, 200] :=
    Vec.num_injective (Vector.toList_inj.mp (Except.ok.inj (hg.symm.trans hgradient)))
  rw [heq] at hexpands
  exact ⟨hgradient, hexpands⟩

end Problem

end NonlinearCG
