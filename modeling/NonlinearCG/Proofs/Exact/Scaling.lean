import Mathlib
import NonlinearCG.Direction
import NonlinearCG.Proofs.Exact.Operator

/-!
# A change of the unit of values

Multiplying an objective by a positive number changes the unit in which values are measured. Every
other quantity of the optimizer then changes by a power of this number, its *degree*: gradients and
directions have degree `1`, slopes along a direction `2`, steps `-1`, points and weights `0`.

Scaling by a power of a positive number commutes with all operations of exact arithmetic, also where
they lead to infinities or to values that are no numbers. Products add degrees, quotients subtract
them, and sums, differences and comparisons need equal ones. That every formula of the optimizer
obeys these rules is then read off its definition.
-/

namespace NonlinearCG

variable {K : Type} [Field K] [LinearOrder K] [IsStrictOrderedRing K] {G : Grid K} {n : ℕ}

/-- The ratio of two units: a positive number. -/
abbrev Scale (K : Type) [Field K] [LinearOrder K] := {t : K // 0 < t}

/-! ## Scalars -/

namespace Exact

variable (t : Scale K) (j k : ℤ) (x : K) (z w : Exact G)

/-- A scalar of degree `k` in the new unit. -/
def scaled (t : Scale K) (k : ℤ) : Exact G → Exact G
  | num x => num (t.1 ^ k * x)
  | z => z

omit [IsStrictOrderedRing K] in
@[simp] theorem scaled_num : scaled t k (num x : Exact G) = num (t.1 ^ k * x) := rfl

omit [IsStrictOrderedRing K] in
@[simp] theorem scaled_infinity : scaled t k (Scalar.infinity : Exact G) = Scalar.infinity := rfl

omit [IsStrictOrderedRing K] in
theorem scaled_num_zero : scaled t k (num 0 : Exact G) = num 0 := congrArg num (mul_zero _)

@[simp] theorem scaled_zero : scaled t k (0.0 : Exact G) = 0.0 := by rw [zero_eq, scaled_num_zero]

omit [IsStrictOrderedRing K] in
@[simp] theorem scaled_degree_zero : scaled t 0 z = z := by
  cases z with
  | num x => rw [scaled_num, zpow_zero, one_mul]
  | top | bot | nan => rfl

theorem scale_pos : 0 < t.1 ^ k := zpow_pos t.2 k

theorem infinityOf_scale : (infinityOf (t.1 ^ k * x) : Exact G) = infinityOf x := by
  have hnonneg := mul_nonneg_iff_of_pos_left (b := x) (scale_pos t k)
  simp only [infinityOf, mul_pos_iff_of_pos_left (scale_pos t k), ← not_le, hnonneg]

omit [IsStrictOrderedRing K] in
theorem scaled_infinityOf : scaled t k (infinityOf x : Exact G) = infinityOf x := by
  rw [infinityOf]
  split_ifs <;> rfl

/-! ### Operations -/

omit [IsStrictOrderedRing K] in
theorem scaled_add : scaled t k z + scaled t k w = scaled t k (z + w) := by
  cases z <;> cases w <;> first | rfl | exact congrArg num (mul_add _ _ _).symm

omit [IsStrictOrderedRing K] in
theorem scaled_neg : -scaled t k z = scaled t k (-z) := by
  cases z <;> first | rfl | exact congrArg num (mul_neg _ _).symm

omit [IsStrictOrderedRing K] in
theorem scaled_sub : scaled t k z - scaled t k w = scaled t k (z - w) := by
  have hneg := scaled_neg t k w
  exact (congrArg (scaled t k z + ·) hneg).trans (scaled_add t k z (-w))

theorem infinityOf_neg_scale : (infinityOf (-(t.1 ^ k * x)) : Exact G) = infinityOf (-x) := by
  rw [← mul_neg, infinityOf_scale]

theorem scaled_mul_scaled : scaled t j z * scaled t k w = scaled t (j + k) (z * w) := by
  have hscaled (y : K) := (scaled_infinityOf (G := G) t (j + k) y).symm
  cases z with
  | num x =>
    cases w with
    | num y =>
      refine congrArg num ?_
      rw [zpow_add₀ t.2.ne', mul_mul_mul_comm]
    | top => exact (infinityOf_scale t j x).trans (hscaled x)
    | bot => exact (infinityOf_neg_scale t j x).trans (hscaled (-x))
    | nan => rfl
  | top =>
    cases w with
    | num y => exact (infinityOf_scale t k y).trans (hscaled y)
    | top | bot | nan => rfl
  | bot =>
    cases w with
    | num y => exact (infinityOf_neg_scale t k y).trans (hscaled (-y))
    | top | bot | nan => rfl
  | nan => cases w <;> rfl

theorem scaled_div_scaled : scaled t j z / scaled t k w = scaled t (j - k) (z / w) := by
  cases w with
  | num y =>
    have hneg : t.1 ^ k * y < 0 ↔ y < 0 := by
      rw [← not_le, mul_nonneg_iff_of_pos_left (scale_pos t k), not_le]
    cases z with
    | num x =>
      by_cases hy : y = 0
      · have hzero : (num x / num y : Exact G) = infinityOf x := if_pos hy
        rw [hzero, scaled_infinityOf, ← infinityOf_scale t j x, hy, scaled_num_zero]
        exact if_pos rfl
      · rw [scaled_num, scaled_num, num_div hy, num_div (mul_ne_zero (scale_pos t k).ne' hy),
          scaled_num, num_inj, zpow_sub₀ t.2.ne', mul_div_mul_comm]
    | top =>
      have hquotient : (top / num y : Exact G) = if y < 0 then bot else top := rfl
      rw [hquotient, apply_ite (scaled t (j - k))]
      exact if_congr hneg rfl rfl
    | bot =>
      have hquotient : (bot / num y : Exact G) = if y < 0 then top else bot := rfl
      rw [hquotient, apply_ite (scaled t (j - k))]
      exact if_congr hneg rfl rfl
    | nan => rfl
  | top | bot => cases z <;> first | rfl | exact congrArg num (mul_zero _).symm
  | nan => cases z <;> rfl

/-! ### Comparisons -/

@[simp] theorem scaled_lt_scaled : scaled t k z < scaled t k w ↔ z < w := by
  cases z <;> cases w <;> first | exact Iff.rfl | exact mul_lt_mul_iff_right₀ (scale_pos t k)

@[simp] theorem scaled_le_scaled : scaled t k z ≤ scaled t k w ↔ z ≤ w := by
  cases z <;> cases w <;> first | exact Iff.rfl | exact mul_le_mul_iff_right₀ (scale_pos t k)

@[simp] theorem scaled_lt_zero : scaled t k z < 0.0 ↔ z < 0.0 := by
  rw [← scaled_zero t k, scaled_lt_scaled, scaled_zero]

@[simp] theorem zero_lt_scaled : 0.0 < scaled t k z ↔ 0.0 < z := by
  rw [← scaled_zero t k, scaled_lt_scaled, scaled_zero]

@[simp] theorem scaled_beq_zero : (scaled t k z == 0.0) = (z == 0.0) := by
  rw [zero_eq]
  cases z with
  | num x => simp [(scale_pos t k).ne']
  | top | bot | nan => rfl

omit [IsStrictOrderedRing K] in
@[simp] theorem isFinite_scaled : Scalar.isFinite (scaled t k z) = Scalar.isFinite z := by
  cases z <;> rfl

omit [IsStrictOrderedRing K] in
@[simp] theorem isNaN_scaled : Scalar.isNaN (scaled t k z) = Scalar.isNaN z := by
  cases z <;> rfl

theorem abs_scaled : Scalar.abs (scaled t k z) = scaled t k (Scalar.abs z) := by
  cases z with
  | num x => exact congrArg num (by rw [abs_mul, abs_of_pos (scale_pos t k)])
  | top | bot | nan => rfl

theorem lesser_scaled :
    Scalar.lesser (scaled t k z) (scaled t k w) = scaled t k (Scalar.lesser z w) := by
  simp only [Scalar.lesser, scaled_lt_scaled, apply_ite (scaled t k)]

theorem greater_scaled :
    Scalar.greater (scaled t k z) (scaled t k w) = scaled t k (Scalar.greater z w) := by
  simp only [Scalar.greater, scaled_lt_scaled, apply_ite (scaled t k)]

theorem maximum_scaled :
    Scalar.maximum (scaled t k z) (scaled t k w) = scaled t k (Scalar.maximum z w) := by
  simp only [Scalar.maximum, scaled_le_scaled, isNaN_scaled, apply_ite (scaled t k)]

theorem divide_scaled : Scalar.divide (scaled t j z) (scaled t k w) =
    (Scalar.divide z w).map (scaled t (j - k)) := by
  rw [Scalar.divide, Scalar.divide, scaled_beq_zero, scaled_div_scaled]
  split_ifs <;> rfl

theorem square_scaled : Scalar.square (scaled t k z) =
    (Scalar.square z).map (scaled t (k + k)) := by
  simp only [Scalar.square, scaled_mul_scaled, isFinite_scaled]
  split_ifs <;> rfl

/-! ### Factors without a unit -/

theorem mul_scaled : z * scaled t k w = scaled t k (z * w) := by
  have h := scaled_mul_scaled t 0 k z w
  rwa [scaled_degree_zero, zero_add] at h

theorem scaled_mul : scaled t k z * w = scaled t k (z * w) := by
  have h := scaled_mul_scaled t k 0 z w
  rwa [scaled_degree_zero, add_zero] at h

theorem scaled_div : scaled t k z / w = scaled t k (z / w) := by
  have h := scaled_div_scaled t k 0 z w
  rwa [scaled_degree_zero, sub_zero] at h

/-! ### The unit itself -/

theorem scaled_one : scaled t 1 z = num t.1 * z := by
  cases z with
  | num x => exact congrArg (num <| · * x) (zpow_one t.1)
  | top => exact (infinityOf_of_pos t.2).symm
  | bot => exact (infinityOf_of_neg (neg_neg_of_pos t.2)).symm
  | nan => rfl

omit [IsStrictOrderedRing K] in
theorem scaled_neg_one : scaled t (-1) z = z / num t.1 := by
  cases z with
  | num x => rw [scaled_num, num_div t.2.ne', zpow_neg_one, mul_comm, div_eq_mul_inv]
  | top | bot => exact (if_neg t.2.not_gt).symm
  | nan => rfl

end Exact

/-! ## Vectors -/

namespace Vec

variable (t : Scale K) (j k : ℤ) (a b : Vec (Exact G) n)

/-- A vector of degree `k` in the new unit. -/
def scaled (t : Scale K) (k : ℤ) (a : Vec (Exact G) n) : Vec (Exact G) n := a.map (Exact.scaled t k)

omit [IsStrictOrderedRing K] in
@[simp] theorem getElem_scaled (i : ℕ) (hi : i < n) : (scaled t k a)[i] = a[i].scaled t k :=
  Vector.getElem_map ..

theorem foldl_scaled {f : Exact G → Exact G → Exact G}
    (hf : ∀ z w, f (z.scaled t k) (w.scaled t k) = (f z w).scaled t k) :
    (scaled t k a).foldl f 0.0 = (a.foldl f 0.0).scaled t k := by
  rw [← Vector.foldl_toList, ← Vector.foldl_toList, scaled, Vector.toList_map, List.foldl_map]
  generalize hz : (0.0 : Exact G) = z
  have hstart : z.scaled t k = z := by rw [← hz, Exact.scaled_zero]
  nth_rewrite 1 [← hstart]
  clear hz hstart
  induction a.toList generalizing z with
  | nil => rfl
  | cons y l ih => rw [List.foldl_cons, List.foldl_cons, hf, ih]

theorem dot_scaled : dot (a.scaled t j) (b.scaled t k) = (dot a b).scaled t (j + k) := by
  have hterms : Vector.zipWith (· * ·) (a.scaled t j) (b.scaled t k) =
      scaled t (j + k) (Vector.zipWith (· * ·) a b) := by
    refine Vector.ext fun i hi ↦ ?_
    simp only [Vector.getElem_zipWith, getElem_scaled, Exact.scaled_mul_scaled]
  rw [dot, hterms, foldl_scaled t (j + k) _ (Exact.scaled_add t (j + k))]
  rfl

theorem scaled_one : a.scaled t 1 = a.map (.num t.1 * ·) :=
  congrArg (Vector.map · a) (funext (Exact.scaled_one t))

omit [IsStrictOrderedRing K] in
@[simp] theorem scaled_degree_zero : a.scaled t 0 = a := by
  refine Vector.ext fun i hi ↦ ?_
  rw [getElem_scaled, Exact.scaled_degree_zero]

theorem dot_scaled_right : dot a (b.scaled t k) = (dot a b).scaled t k := by
  have h := dot_scaled t 0 k a b
  rwa [scaled_degree_zero, zero_add] at h

omit [IsStrictOrderedRing K] in
theorem neg_scaled : neg (a.scaled t k) = (neg a).scaled t k := by
  refine Vector.ext fun i hi ↦ ?_
  simp only [neg, Vector.getElem_map, getElem_scaled, Exact.scaled_neg]

omit [IsStrictOrderedRing K] in
theorem sub_scaled : sub (a.scaled t k) (b.scaled t k) = (sub a b).scaled t k := by
  refine Vector.ext fun i hi ↦ ?_
  simp only [sub, Vector.getElem_zipWith, getElem_scaled, Exact.scaled_sub]

theorem infNorm_scaled : infNorm (a.scaled t k) = (infNorm a).scaled t k := by
  have habs : (a.scaled t k).map Scalar.abs = scaled t k (a.map Scalar.abs) := by
    refine Vector.ext fun i hi ↦ ?_
    simp only [Vector.getElem_map, getElem_scaled, Exact.abs_scaled]
  rw [infNorm, habs, foldl_scaled t k _ (Exact.maximum_scaled t k)]
  rfl

omit [IsStrictOrderedRing K] in
@[simp] theorem allFinite_scaled : allFinite (a.scaled t k) = allFinite a := by
  rw [Bool.eq_iff_iff]
  simp only [allFinite, Vector.all_eq_true, getElem_scaled, Exact.isFinite_scaled]

theorem moved_scaled (x : Vec (Exact G) n) (u : Exact G) :
    moved x (a.scaled t 1) (u.scaled t (-1)) = moved x a u := by
  refine Vector.ext fun i hi ↦ ?_
  simp only [moved, Vector.getElem_zipWith, getElem_scaled, Exact.scaled_mul_scaled,
    add_neg_cancel, Exact.scaled_degree_zero]

theorem along_scaled (x : Vec (Exact G) n) (u : Exact G) :
    along x (a.scaled t 1) (u.scaled t (-1)) = along x a u := by
  rw [← moved_eq_along, moved_scaled, moved_eq_along]

end Vec

/-! ## Preconditioners -/

namespace Operator

variable (t : Scale K) (j k : ℤ) (P : Operator (Exact G) n) (a b : Vec (Exact G) n)

theorem mulVec_scaled (M : Mat (Exact G) n) :
    M.mulVec (a.scaled t k) = (M.mulVec a).scaled t k := by
  refine Vector.ext fun i hi ↦ ?_
  rw [Vec.getElem_scaled, Mat.mulVec, Mat.mulVec, Vector.getElem_map, Vector.getElem_map,
    Vec.dot_scaled_right]

theorem forward_scaled : P.forward (a.scaled t k) = (P.forward a).scaled t k := by
  cases P with
  | identity => rfl
  | diagonal p =>
    refine Vector.ext fun i hi ↦ ?_
    simp only [forward, Vector.getElem_zipWith, Vec.getElem_scaled, Exact.mul_scaled]
  | matrix M _ => exact mulVec_scaled t k a M

theorem backward_scaled : P.backward (a.scaled t k) = (P.backward a).scaled t k := by
  cases P with
  | identity => rfl
  | diagonal p =>
    refine Vector.ext fun i hi ↦ ?_
    simp only [backward, Vector.getElem_zipWith, Vec.getElem_scaled, Exact.scaled_div]
  | matrix _ inverse => exact mulVec_scaled t k a inverse

theorem forwardDot_scaled :
    P.forwardDot (a.scaled t j) (b.scaled t k) = (P.forwardDot a b).scaled t (j + k) := by
  rw [forwardDot, forward_scaled, Vec.dot_scaled, forwardDot]

theorem inverseDot_scaled :
    P.inverseDot (a.scaled t j) (b.scaled t k) = (P.inverseDot a b).scaled t (j + k) := by
  rw [inverseDot, backward_scaled, Vec.dot_scaled, inverseDot]

end Operator

/-! ## Directions -/

/-- A tested direction in the new unit. -/
def Descent.scaled (t : Scale K) (d : Descent (Exact G) n) : Descent (Exact G) n where
  direction := d.direction.scaled t 1
  slope := d.slope.scaled t 2
  replaced := d.replaced.map (Exact.scaled t 2)
  recovered := d.recovered

section Directions

variable (t : Scale K) (P : Operator (Exact G) n) (eta : Exact G) (s g g' : Vec (Exact G) n)

theorem descentRestart_scaled :
    descentRestart (g.scaled t 1) (s.scaled t 1) = (descentRestart g s).scaled t := by
  simp only [descentRestart, Vec.neg_scaled, Vec.dot_scaled, Int.reduceAdd, Exact.scaled_lt_zero]
  split_ifs <;> rfl

theorem beta_scaled :
    (updateDirection P eta (s.scaled t 1) (g.scaled t 1) (g'.scaled t 1)).beta =
      (updateDirection P eta s g g').beta := by
  have hbeta (s g g' : Vec (Exact G) n) : (updateDirection P eta s g g').beta =
      Scalar.maximum ((Vec.dot (Vec.sub g g') (P.forward g) -
        P.forwardDot (Vec.sub g g') (Vec.sub g g') * Vec.dot g s / Vec.dot (Vec.sub g g') s) /
          Vec.dot (Vec.sub g g') s) (eta * Vec.dot s g' / P.inverseDot s s) := rfl
  have hetak : eta * Vec.dot (s.scaled t 1) (g'.scaled t 1) /
      P.inverseDot (s.scaled t 1) (s.scaled t 1) = eta * Vec.dot s g' / P.inverseDot s s := by
    rw [Vec.dot_scaled, Operator.inverseDot_scaled, Exact.mul_scaled, Exact.scaled_div_scaled,
      sub_self, Exact.scaled_degree_zero]
  have hbetak (y : Vec (Exact G) n) :
      (Vec.dot (y.scaled t 1) (P.forward (g.scaled t 1)) -
        P.forwardDot (y.scaled t 1) (y.scaled t 1) * Vec.dot (g.scaled t 1) (s.scaled t 1) /
          Vec.dot (y.scaled t 1) (s.scaled t 1)) / Vec.dot (y.scaled t 1) (s.scaled t 1) =
      (Vec.dot y (P.forward g) - P.forwardDot y y * Vec.dot g s / Vec.dot y s) / Vec.dot y s := by
    rw [Operator.forward_scaled, Operator.forwardDot_scaled, Vec.dot_scaled, Vec.dot_scaled,
      Vec.dot_scaled, Exact.scaled_mul_scaled, Exact.scaled_div_scaled, add_sub_cancel_right,
      Exact.scaled_sub, Exact.scaled_div_scaled, sub_self, Exact.scaled_degree_zero]
  rw [hbeta, Vec.sub_scaled, hbetak, hetak, hbeta]

/-- The update of the direction does not depend on the unit. -/
theorem updateDirection_scaled :
    (updateDirection P eta (s.scaled t 1) (g.scaled t 1) (g'.scaled t 1)).direction =
      (updateDirection P eta s g g').direction.scaled t 1 := by
  have hdirection (s g g' : Vec (Exact G) n) : (updateDirection P eta s g g').direction =
      Vector.zipWith (fun si pi ↦ si * (updateDirection P eta s g g').beta - pi) s
        (P.forward g) := rfl
  refine Vector.ext fun i hi ↦ ?_
  rw [hdirection, hdirection s, beta_scaled, Operator.forward_scaled]
  simp only [Vector.getElem_zipWith, Vec.getElem_scaled, Exact.scaled_mul, Exact.scaled_sub]

end Directions

end NonlinearCG
