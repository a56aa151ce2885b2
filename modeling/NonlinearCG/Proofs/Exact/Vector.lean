import Mathlib
import NonlinearCG.Preconditioner
import NonlinearCG.Proofs.Exact.Number

/-!
# Vectors of numbers

A vector of exact scalars that are all numbers comes from a function to the field, and on such
vectors the operations of the optimizer are those of linear algebra.
-/

namespace NonlinearCG

open Matrix

namespace Vec

variable {K : Type} [Field K] [LinearOrder K] {G : Grid K} {n : ℕ}

/-- The vector with the given numbers as components. -/
def num (a : Fin n → K) : Vec (Exact G) n := Vector.ofFn fun i ↦ .num (a i)

omit [Field K] [LinearOrder K] in
@[simp] theorem getElem_num (a : Fin n → K) (i : ℕ) (hi : i < n) :
    (num (G := G) a)[i] = .num (a ⟨i, hi⟩) := Vector.getElem_ofFn ..

omit [Field K] [LinearOrder K] in
theorem num_injective : Function.Injective (num (G := G) (n := n)) := by
  intro a b h
  funext i
  have hi : (num a)[i] = (num (G := G) b)[i] := by rw [h]
  rwa [Fin.getElem_fin, Fin.getElem_fin, getElem_num, getElem_num, Exact.num_inj] at hi

/-- The numbers that are the components of a vector. -/
def numbers (v : Vec (Exact G) n) : Fin n → K := fun i ↦ v[i].toNum

omit [LinearOrder K] in
@[simp] theorem numbers_num (a : Fin n → K) : numbers (num (G := G) a) = a := by
  funext i
  rw [numbers, Fin.getElem_fin, getElem_num]
  rfl

theorem allFinite_iff {v : Vec (Exact G) n} : v.allFinite = true ↔ ∃ a, v = num a := by
  rw [allFinite, Vector.all_eq_true]
  constructor
  · intro h
    choose a ha using fun i : Fin n ↦ Exact.isFinite_iff.mp (h i i.isLt)
    refine ⟨a, Vector.ext fun i hi ↦ ?_⟩
    rw [getElem_num]
    exact ha ⟨i, hi⟩
  · rintro ⟨a, rfl⟩ i hi
    rw [getElem_num]
    rfl

/-- The component of a vector that has only one. -/
abbrev only {α : Type} (v : Vec α 1) : α := getElem v 0 Nat.zero_lt_one

theorem mem_of_spreadTo {α : Type} {x : Array α} {v : Vec α n} (h : spreadTo n x = .ok v)
    (i : Fin n) : v[i] ∈ x := by
  unfold spreadTo at h
  split_ifs at h with hsize hone
  · cases h
    exact Array.getElem_mem _
  · cases h
    rw [Fin.getElem_fin, Vector.getElem_replicate]
    exact Array.getElem_mem _

/-- Two vectors of numbers that are orthogonal in the inner product of a matrix. -/
def Orthogonal (M : Matrix (Fin n) (Fin n) K) (v w : Vec (Exact G) n) : Prop :=
  ∃ a c, v = num a ∧ w = num c ∧ a ⬝ᵥ M *ᵥ c = 0

/-! ## Componentwise operations -/

omit [Field K] [LinearOrder K] in
theorem zipWith_num {α : Type} (f : Exact G → Exact G → α) (a b : Fin n → K) :
    Vector.zipWith f (num a) (num b) = Vector.ofFn fun i ↦ f (.num (a i)) (.num (b i)) := by
  refine Vector.ext fun i hi ↦ ?_
  rw [Vector.getElem_zipWith, getElem_num, getElem_num, Vector.getElem_ofFn]

omit [Field K] [LinearOrder K] in
theorem map_num {α : Type} (f : Exact G → α) (a : Fin n → K) :
    (num a).map f = Vector.ofFn fun i ↦ f (.num (a i)) := by
  refine Vector.ext fun i hi ↦ ?_
  rw [Vector.getElem_map, getElem_num, Vector.getElem_ofFn]

@[simp] theorem sub_num (a b : Fin n → K) : sub (num a) (num b) = num (G := G) (a - b) := by
  simp only [sub, zipWith_num, Exact.num_sub]
  rfl

@[simp] theorem neg_num (a : Fin n → K) : neg (num a) = num (G := G) (-a) := map_num _ a

@[simp] theorem moved_num (a s : Fin n → K) (t : K) :
    moved (num a) (num s) (.num t) = num (G := G) (a + t • s) := by
  simp only [moved, zipWith_num, Exact.num_mul, Exact.num_add, mul_comm _ t]
  rfl

@[simp] theorem along_num (a s : Fin n → K) (t : K) :
    along (num a) (num s) (.num t) = num (G := G) (a + t • s) := by
  simp only [along, zipWith_num, Exact.num_mul, Exact.num_add, mul_comm _ t, add_comm (t * _)]
  rfl

theorem moved_eq_along (x s : Vec (Exact G) n) (t : Exact G) : moved x s t = along x s t := by
  refine Vector.ext fun i hi ↦ ?_
  rw [moved, along, Vector.getElem_zipWith, Vector.getElem_zipWith, Exact.add_comm]

theorem along_zero (x : Vec (Exact G) n) (s : Fin n → K) : along x (num s) (.num 0) = x := by
  refine Vector.ext fun i hi ↦ ?_
  rw [along, Vector.getElem_zipWith, getElem_num, Exact.num_mul, mul_zero, Exact.zero_add]

/-! ## The largest component -/

theorem foldl_maximum_num (c : Fin n → K) (z : K) :
    ∃ m, z ≤ m ∧ (Vector.ofFn fun i ↦ (.num (c i) : Exact G)).foldl Scalar.maximum (.num z) =
      .num m := by
  rw [← Vector.foldl_toList, Vector.toList_ofFn]
  induction n generalizing z with
  | zero => exact ⟨z, le_rfl, by simp⟩
  | succ n ih =>
    obtain ⟨m, hm, hfold⟩ := ih (fun i ↦ c i.succ) (max z (c 0))
    refine ⟨m, (le_max_left _ _).trans hm, ?_⟩
    rw [List.ofFn_succ, List.foldl_cons, Exact.maximum_num]
    exact hfold

theorem exists_infNorm_num [IsStrictOrderedRing K] (a : Fin n → K) :
    ∃ m, 0 ≤ m ∧ infNorm (num a) = (.num m : Exact G) := by
  rw [infNorm, map_num, Exact.zero_eq]
  exact foldl_maximum_num (fun i ↦ |a i|) 0

theorem le_num_of_foldl_maximum {l : List (Exact G)} {z : Exact G} {m : K}
    (h : l.foldl Scalar.maximum z ≤ .num m) : z ≤ .num m ∧ ∀ y ∈ l, y ≤ .num m := by
  induction l generalizing z with
  | nil => exact ⟨h, fun y hy ↦ by cases hy⟩
  | cons y l ih =>
    obtain ⟨hmax, hrest⟩ := ih h
    obtain ⟨hz, hy⟩ := Exact.le_num_of_maximum hmax
    exact ⟨hz, List.forall_mem_cons.mpr ⟨hy, hrest⟩⟩

theorem eq_zero_of_infNorm [IsStrictOrderedRing K] {a : Vec (Exact G) n}
    (h : (infNorm a == 0.0) = true) : a = num 0 := by
  have hle : (a.map Scalar.abs).toList.foldl Scalar.maximum 0.0 ≤ (.num 0 : Exact G) := by
    rw [Vector.foldl_toList, ← Exact.zero_eq, ← infNorm, Exact.eq_of_beq h, Exact.zero_eq]
    exact le_rfl (α := K)
  refine Vector.ext fun i hi ↦ ?_
  have hterm : Scalar.abs a[i] ≤ (.num 0 : Exact G) := by
    refine (le_num_of_foldl_maximum hle).2 _ ?_
    rw [← Vector.getElem_map Scalar.abs hi]
    exact Vector.mem_toList_iff.mpr (Vector.getElem_mem hi)
  rw [getElem_num]
  exact Exact.eq_zero_of_abs hterm

theorem infNorm_zero [IsStrictOrderedRing K] :
    infNorm (num (0 : Fin n → K)) = (.num 0 : Exact G) := by
  rw [infNorm, map_num, Exact.zero_eq, ← Vector.foldl_toList, Vector.toList_ofFn]
  simp only [Pi.zero_apply, Exact.abs_num, abs_zero, List.ofFn_const]
  induction n with
  | zero => rfl
  | succ n ih => rw [List.replicate_succ, List.foldl_cons, Exact.maximum_num, max_self, ih]

/-! ## The inner product -/

theorem foldl_ofFn_num (c : Fin n → K) (z : K) :
    (Vector.ofFn fun i ↦ (.num (c i) : Exact G)).foldl (· + ·) (.num z) = .num (z + ∑ i, c i) := by
  rw [← Vector.foldl_toList, Vector.toList_ofFn]
  induction n generalizing z with
  | zero => simp
  | succ n ih =>
    rw [List.ofFn_succ, List.foldl_cons, Exact.num_add, ih, Fin.sum_univ_succ, add_assoc]

@[simp] theorem dot_num [IsStrictOrderedRing K] (a b : Fin n → K) :
    dot (num a) (num b) = (.num (a ⬝ᵥ b) : Exact G) := by
  rw [dot, zipWith_num, Exact.zero_eq]
  simp only [Exact.num_mul]
  rw [foldl_ofFn_num, zero_add]
  rfl

theorem isFinite_of_foldl {l : List (Exact G)} {z : Exact G}
    (h : Scalar.isFinite (l.foldl (· + ·) z) = true) :
    Scalar.isFinite z = true ∧ ∀ y ∈ l, Scalar.isFinite y = true := by
  induction l generalizing z with
  | nil => exact ⟨h, fun y hy ↦ by cases hy⟩
  | cons y l ih =>
    rw [List.foldl_cons] at h
    obtain ⟨hsum, hrest⟩ := ih h
    obtain ⟨hz, hy⟩ := Exact.isFinite_of_add hsum
    exact ⟨hz, List.forall_mem_cons.mpr ⟨hy, hrest⟩⟩

/-- An inner product is a number only if all components are. -/
theorem allFinite_of_dot {a b : Vec (Exact G) n} (h : Scalar.isFinite (dot a b) = true) :
    a.allFinite = true ∧ b.allFinite = true := by
  rw [dot, ← Vector.foldl_toList] at h
  have hterm : ∀ i (hi : i < n), Scalar.isFinite (a[i] * b[i]) = true := by
    intro i hi
    refine (isFinite_of_foldl h).2 _ ?_
    rw [← Vector.getElem_zipWith (f := (· * ·)) hi]
    exact Vector.mem_toList_iff.mpr (Vector.getElem_mem hi)
  simp only [allFinite, Vector.all_eq_true]
  exact ⟨fun i hi ↦ (Exact.isFinite_of_mul (hterm i hi)).1,
    fun i hi ↦ (Exact.isFinite_of_mul (hterm i hi)).2⟩

theorem zero_mul_eq (z : Exact G) : .num 0 * z = .num 0 ∨ .num 0 * z = (.nan : Exact G) := by
  cases z with
  | num x => exact Or.inl (congrArg Exact.num (zero_mul x))
  | top =>
    right
    change Exact.infinityOf (0 : K) = .nan
    rw [Exact.infinityOf, if_neg (lt_irrefl 0), if_neg (lt_irrefl 0)]
  | bot =>
    right
    change Exact.infinityOf (-0 : K) = .nan
    rw [Exact.infinityOf, neg_zero, if_neg (lt_irrefl 0), if_neg (lt_irrefl 0)]
  | nan => exact Or.inr rfl

theorem foldl_zero_or_nan {l : List (Exact G)} (hl : ∀ z ∈ l, z = .num 0 ∨ z = .nan)
    {z : Exact G} (hz : z = .num 0 ∨ z = .nan) :
    l.foldl (· + ·) z = .num 0 ∨ l.foldl (· + ·) z = .nan := by
  induction l generalizing z with
  | nil => exact hz
  | cons y l ih =>
    rw [List.foldl_cons]
    refine ih (fun w hw ↦ hl w (List.mem_cons_of_mem _ hw)) ?_
    rcases hz with rfl | rfl
    · rcases hl y List.mem_cons_self with rfl | rfl
      · exact Or.inl (congrArg Exact.num (add_zero 0))
      · exact Or.inr rfl
    · exact Or.inr rfl

theorem dotProduct_self_nonneg [IsStrictOrderedRing K] (a : Fin n → K) : 0 ≤ a ⬝ᵥ a :=
  Finset.sum_nonneg fun i _ ↦ mul_self_nonneg (a i)

theorem ne_zero_of_dotProduct_neg {a b : Fin n → K} (h : a ⬝ᵥ b < 0) : a ≠ 0 := by
  rintro rfl
  rw [zero_dotProduct] at h
  exact h.false

/-- Zeros and values that are no numbers do not add up to anything negative. -/
theorem not_dot_neg_of_terms [IsStrictOrderedRing K] {a b : Vec (Exact G) n}
    (h : ∀ i (hi : i < n), a[i] * b[i] = .num 0 ∨ a[i] * b[i] = .nan) :
    ¬dot a b < (0.0 : Exact G) := by
  have hterms : ∀ z ∈ (Vector.zipWith (· * ·) a b).toList, z = .num 0 ∨ z = .nan := by
    intro z hz
    obtain ⟨i, hi, rfl⟩ := List.getElem_of_mem hz
    rw [Vector.getElem_toList, Vector.getElem_zipWith]
    exact h i _
  rw [dot, ← Vector.foldl_toList, Exact.zero_eq]
  rcases foldl_zero_or_nan hterms (Or.inl rfl) with h | h
  · rw [h, Exact.num_lt]
    exact lt_irrefl 0
  · rw [h]
    exact id

/-- Multiples of zero do not add up to anything negative, whatever they are multiples of. -/
theorem not_dot_zero_neg [IsStrictOrderedRing K] (s : Vec (Exact G) n) :
    ¬dot (num 0) s < (0.0 : Exact G) := by
  refine not_dot_neg_of_terms fun i hi ↦ ?_
  rw [getElem_num]
  exact zero_mul_eq _

end Vec

end NonlinearCG
