import Mathlib
import NonlinearCG.Problem.Powell
import NonlinearCG.Proofs.Exact.Expansion
import NonlinearCG.Proofs.Exact.Vector

/-!
# The extended Powell singular function of numbers

A point in `m * 4` variables is read off as `m` blocks (`blocks?_ofFn`), value and gradient are put
together from the blocks, and so everything about them is a fact about four variables. In a block
the four forms determine the variables, and the gradient determines the forms: the quadratic ones
are multiples of `form₄ ^ 3`, which turns the last equation into one for this power alone.
-/

namespace NonlinearCG.Powell

open Matrix

variable {α K : Type} {m : ℕ}

/-! ## Points as blocks -/

/-- The place of a block's variable among all variables. -/
def place (i : Fin m) (j : Fin 4) : Fin (m * 4) := finProdFinEquiv (i, j)

def block (x : Fin (m * 4) → α) (i : Fin m) : Block α :=
  ⟨x (place i 0), x (place i 1), x (place i 2), x (place i 3)⟩

theorem ofFn_eq_flatten (x : Fin (m * 4) → α) :
    List.ofFn x = (List.ofFn fun i ↦ List.ofFn fun j ↦ x (place i j)).flatten := by
  have hplace : ∀ (i : Fin m) (j : Fin 4) (h : i.val * 4 + j.val < m * 4),
      (⟨i * 4 + j, h⟩ : Fin (m * 4)) = place i j := by
    intro i j h
    refine Fin.ext ?_
    change i.val * 4 + j.val = j.val + 4 * i.val
    omega
  rw [List.ofFn_mul]
  simp only [hplace]

theorem sum_place [AddCommMonoid α] (f : Fin (m * 4) → α) :
    ∑ k, f k = ∑ i, ∑ j, f (place i j) :=
  (finProdFinEquiv.sum_comp f).symm.trans (Fintype.sum_prod_type _)

theorem exists_place (k : Fin (m * 4)) : ∃ (i : Fin m) (j : Fin 4), place i j = k :=
  ⟨_, _, finProdFinEquiv.apply_symm_apply k⟩

theorem blocks?_flatten (bs : List (Block α)) :
    blocks? (bs.map fun b ↦ [b.x₁, b.x₂, b.x₃, b.x₄]).flatten = some bs := by
  induction bs with
  | nil => rfl
  | cons b bs ih =>
    rw [List.map_cons, List.flatten_cons]
    simp only [List.cons_append, List.nil_append, blocks?, ih, Option.map_some]

/-- A point in so many variables consists of its blocks. -/
theorem blocks?_ofFn (x : Fin (m * 4) → α) :
    blocks? (List.ofFn x) = some (List.ofFn (block x)) := by
  rw [← blocks?_flatten, List.map_ofFn, ofFn_eq_flatten]
  rfl

/-! ## Heights and slopes -/

namespace Block

variable [Field K]

/-- The height over a block. -/
def height (b : Block K) : K :=
  (b.x₁ + 10 * b.x₂) ^ 2 + 5 * (b.x₃ - b.x₄) ^ 2 + (b.x₂ - 2 * b.x₃) ^ 4 +
    10 * (b.x₁ - b.x₄) ^ 4

/-- The slopes in the four variables. -/
def slopes (b : Block K) : Fin 4 → K := ![
  2 * (b.x₁ + 10 * b.x₂) + 40 * (b.x₁ - b.x₄) ^ 3,
  20 * (b.x₁ + 10 * b.x₂) + 4 * (b.x₂ - 2 * b.x₃) ^ 3,
  10 * (b.x₃ - b.x₄) - 8 * (b.x₂ - 2 * b.x₃) ^ 3,
  -10 * (b.x₃ - b.x₄) - 40 * (b.x₁ - b.x₄) ^ 3]

theorem height_expands (b d : Block K) :
    Expands (fun t ↦ height ⟨b.x₁ + t * d.x₁, b.x₂ + t * d.x₂, b.x₃ + t * d.x₃, b.x₄ + t * d.x₄⟩)
      b.height (b.slopes ⬝ᵥ ![d.x₁, d.x₂, d.x₃, d.x₄]) := by
  have h₁ := Expands.line b.x₁ d.x₁
  have h₂ := Expands.line b.x₂ d.x₂
  have h₃ := Expands.line b.x₃ d.x₃
  have h₄ := Expands.line b.x₄ d.x₄
  have hform₁ := h₁.add (h₂.const_mul 10)
  have hform₂ := h₃.sub h₄
  have hform₃ := h₂.sub (h₃.const_mul 2)
  have hform₄ := h₁.sub h₄
  have hsq₃ := hform₃.mul hform₃
  have hsq₄ := hform₄.mul hform₄
  refine ((((hform₁.mul hform₁).add ((hform₂.mul hform₂).const_mul 5)).add
    (hsq₃.mul hsq₃)).add ((hsq₄.mul hsq₄).const_mul 10)).of_eq (fun t ↦ ?_) ?_ ?_
  · rw [height]
    ring
  · rw [height]
    ring
  · simp only [slopes, dotProduct, Fin.sum_univ_four, cons_val]
    ring

section Minimizer

variable [LinearOrder K] [IsStrictOrderedRing K] {b : Block K}

theorem height_nonneg (b : Block K) : 0 ≤ b.height := by
  rw [height]
  positivity

theorem eq_zero_of_forms (h₁ : b.x₁ + 10 * b.x₂ = 0) (h₂ : b.x₃ - b.x₄ = 0)
    (h₃ : b.x₂ - 2 * b.x₃ = 0) (h₄ : b.x₁ - b.x₄ = 0) : b = ⟨0, 0, 0, 0⟩ := by
  obtain ⟨x₁, x₂, x₃, x₄⟩ := b
  simp only [mk.injEq]
  simp only at h₁ h₂ h₃ h₄
  refine ⟨?_, ?_, ?_, ?_⟩ <;> linarith only [h₁, h₂, h₃, h₄]

theorem height_eq_zero_iff : b.height = 0 ↔ b = ⟨0, 0, 0, 0⟩ := by
  constructor
  · intro h
    rw [height] at h
    have hsq₁ := sq_nonneg (b.x₁ + 10 * b.x₂)
    have hsq₂ := sq_nonneg (b.x₃ - b.x₄)
    have hpow₃ : 0 ≤ (b.x₂ - 2 * b.x₃) ^ 4 := by positivity
    have hpow₄ : 0 ≤ (b.x₁ - b.x₄) ^ 4 := by positivity
    refine eq_zero_of_forms ?_ ?_ ?_ ?_
    · exact pow_eq_zero_iff two_ne_zero |>.mp (by linarith only [h, hsq₁, hsq₂, hpow₃, hpow₄])
    · exact pow_eq_zero_iff two_ne_zero |>.mp (by linarith only [h, hsq₁, hsq₂, hpow₃, hpow₄])
    · exact pow_eq_zero_iff four_ne_zero |>.mp (by linarith only [h, hsq₁, hsq₂, hpow₃, hpow₄])
    · exact pow_eq_zero_iff four_ne_zero |>.mp (by linarith only [h, hsq₁, hsq₂, hpow₃, hpow₄])
  · rintro rfl
    simp [height]

theorem slopes_eq_zero_iff : b.slopes = 0 ↔ b = ⟨0, 0, 0, 0⟩ := by
  constructor
  · intro h
    have hslope₁ : 2 * (b.x₁ + 10 * b.x₂) + 40 * (b.x₁ - b.x₄) ^ 3 = 0 := congrFun h 0
    have hslope₂ : 20 * (b.x₁ + 10 * b.x₂) + 4 * (b.x₂ - 2 * b.x₃) ^ 3 = 0 := congrFun h 1
    have hslope₃ : 10 * (b.x₃ - b.x₄) - 8 * (b.x₂ - 2 * b.x₃) ^ 3 = 0 := congrFun h 2
    have hslope₄ : -10 * (b.x₃ - b.x₄) - 40 * (b.x₁ - b.x₄) ^ 3 = 0 := congrFun h 3
    -- the first three say that the other forms are multiples of this cube
    have hcube₄ : (b.x₁ - b.x₄) ^ 3 = 0 := by
      linarith only [hslope₁, hslope₂, hslope₃, hslope₄]
    have hcube₃ : (b.x₂ - 2 * b.x₃) ^ 3 = 0 := by linarith only [hslope₁, hslope₂, hcube₄]
    refine eq_zero_of_forms ?_ ?_ ?_ ?_
    · linarith only [hslope₁, hcube₄]
    · linarith only [hslope₃, hcube₃]
    · exact pow_eq_zero_iff three_ne_zero |>.mp hcube₃
    · exact pow_eq_zero_iff three_ne_zero |>.mp hcube₄
  · rintro rfl
    funext j
    fin_cases j <;> simp [slopes]

end Minimizer

end Block

section Sums

variable [Field K]

def height (x : Fin (m * 4) → K) : K := ∑ i, (block x i).height

/-- The slopes at a point, block by block. -/
def slopes (x : Fin (m * 4) → K) (k : Fin (m * 4)) : K :=
  (block x (finProdFinEquiv.symm k).1).slopes (finProdFinEquiv.symm k).2

@[simp] theorem slopes_place (x : Fin (m * 4) → K) (i : Fin m) (j : Fin 4) :
    slopes x (place i j) = (block x i).slopes j := by
  rw [slopes, place, Equiv.symm_apply_apply]

theorem height_expands (x h : Fin (m * 4) → K) :
    Expands (fun t ↦ height (x + t • h)) (height x) (slopes x ⬝ᵥ h) := by
  have hslopes : slopes x ⬝ᵥ h = ∑ i, (block x i).slopes ⬝ᵥ
      ![(block h i).x₁, (block h i).x₂, (block h i).x₃, (block h i).x₄] := by
    rw [dotProduct, sum_place]
    refine Finset.sum_congr rfl fun i _ ↦ ?_
    simp only [slopes_place, dotProduct, Fin.sum_univ_four, cons_val, block]
  rw [hslopes]
  exact Expands.sum fun i _ ↦ (block x i).height_expands (block h i)

theorem eq_zero_iff_block (x : Fin (m * 4) → K) : x = 0 ↔ ∀ i, block x i = ⟨0, 0, 0, 0⟩ := by
  constructor
  · rintro rfl i
    rfl
  · intro h
    funext k
    obtain ⟨i, j, rfl⟩ := exists_place k
    have hi := h i
    simp only [block, Block.mk.injEq] at hi
    obtain ⟨h₁, h₂, h₃, h₄⟩ := hi
    fin_cases j
    · exact h₁
    · exact h₂
    · exact h₃
    · exact h₄

variable [LinearOrder K] [IsStrictOrderedRing K]

theorem height_nonneg (x : Fin (m * 4) → K) : 0 ≤ height x :=
  Finset.sum_nonneg fun i _ ↦ (block x i).height_nonneg

theorem height_eq_zero_iff (x : Fin (m * 4) → K) : height x = 0 ↔ x = 0 := by
  rw [height, Finset.sum_eq_zero_iff_of_nonneg fun i _ ↦ (block x i).height_nonneg,
    eq_zero_iff_block]
  simp only [Finset.mem_univ, true_imp_iff, Block.height_eq_zero_iff]

theorem slopes_eq_zero_iff (x : Fin (m * 4) → K) : slopes x = 0 ↔ x = 0 := by
  rw [eq_zero_iff_block x]
  constructor
  · intro h i
    refine Block.slopes_eq_zero_iff.mp (funext fun j ↦ ?_)
    rw [← slopes_place, h]
    rfl
  · intro h
    funext k
    obtain ⟨i, j, rfl⟩ := exists_place k
    rw [slopes_place, Block.slopes_eq_zero_iff.mpr (h i)]
    rfl

end Sums

/-! ## The functions of this library on numbers -/

section Numbers

variable [Field K] [LinearOrder K] [IsStrictOrderedRing K] {G : Grid K}

theorem Block.value_num (x₁ x₂ x₃ x₄ : K) :
    Block.value ⟨.num x₁, .num x₂, .num x₃, .num x₄⟩ =
      (.num (height ⟨x₁, x₂, x₃, x₄⟩) : Exact G) := by
  simp only [value, form₁, form₂, form₃, form₄, Exact.ofScientific_eq, Exact.num_mul,
    Exact.num_sub, Exact.num_add, Exact.num_inj, height]
  norm_num
  ring

theorem Block.gradient_num (x₁ x₂ x₃ x₄ : K) :
    Block.gradient ⟨.num x₁, .num x₂, .num x₃, .num x₄⟩ =
      List.ofFn fun j ↦ (.num (slopes ⟨x₁, x₂, x₃, x₄⟩ j) : Exact G) := by
  have hgradient : ∀ b : Block (Exact G), b.gradient = [
      2.0 * b.form₁ + 40.0 * (b.form₄ * b.form₄ * b.form₄),
      20.0 * b.form₁ + 4.0 * (b.form₃ * b.form₃ * b.form₃),
      10.0 * b.form₂ - 8.0 * (b.form₃ * b.form₃ * b.form₃),
      -10.0 * b.form₂ - 40.0 * (b.form₄ * b.form₄ * b.form₄)] := fun _ ↦ rfl
  have hlist : ∀ f : Fin 4 → Exact G, List.ofFn f = [f 0, f 1, f 2, f 3] := fun _ ↦ rfl
  rw [hgradient, hlist]
  simp only [form₁, form₂, form₃, form₄, Exact.ofScientific_eq, Exact.num_mul, Exact.num_sub,
    Exact.num_add, Exact.num_neg, slopes, cons_val]
  norm_num [pow_succ]

theorem value_num (x : Fin (m * 4) → K) :
    value (List.ofFn (block fun k ↦ .num (x k))) = (.num (height x) : Exact G) := by
  have hsum := Vec.foldl_ofFn_num (G := G) (fun i ↦ (block x i).height) 0
  rw [← Vector.foldl_toList, Vector.toList_ofFn, zero_add] at hsum
  rw [value, List.map_ofFn, Exact.zero_eq]
  simp only [Function.comp_def, block, Block.value_num]
  exact hsum

theorem gradient_num (x : Fin (m * 4) → K) :
    gradient (List.ofFn (block fun k ↦ .num (x k))) =
      List.ofFn fun k ↦ (.num (slopes x k) : Exact G) := by
  rw [gradient, List.flatMap_def, List.map_ofFn, ofFn_eq_flatten]
  simp only [Function.comp_def, block, Block.gradient_num, slopes_place]

end Numbers

end NonlinearCG.Powell
