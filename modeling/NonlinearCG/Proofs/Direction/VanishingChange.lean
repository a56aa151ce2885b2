import Mathlib
import NonlinearCG.Proofs.Direction.Restart
import NonlinearCG.Proofs.Direction.SufficientDescent

/-!
# Steps along which the slope does not change

The update of the direction divides by the change of the slope along the last step. Where that is
zero, the quotients are infinite or no numbers, and what becomes of the direction is left to the
restart test.

If the gradient has not changed at all, no component of the direction is a number. Otherwise the
weight of the last direction is infinite, and the components of the new one are the infinities with
the signs of those of the last one. The test then adds up infinities with the signs of the products
`gᵢ sᵢ`. A zero among them, or two signs, makes the sum no number, and the direction is replaced.
But if every component leads downhill on its own, the sum is negative, and the test lets the
infinite direction pass.
-/

namespace NonlinearCG

open Matrix

variable {K : Type} [Field K] [LinearOrder K] {G : Grid K} {n : ℕ}

/-! ## Infinities -/

namespace Exact

variable {x y : K}

theorem infinityOf_zero : infinityOf (0 : K) = (nan : Exact G) := by
  rw [infinityOf, if_neg (lt_irrefl 0), if_neg (lt_irrefl 0)]

theorem infinityOf_eq_bot_iff : infinityOf x = (bot : Exact G) ↔ x < 0 := by
  rw [infinityOf]
  split_ifs with hpos hneg
  · exact iff_of_false (fun h ↦ by cases h) hpos.not_gt
  · exact iff_of_true rfl hneg
  · exact iff_of_false (fun h ↦ by cases h) hneg

theorem num_mul_infinityOf [IsStrictOrderedRing K] :
    (num x * infinityOf y : Exact G) = infinityOf (x * y) := by
  rcases lt_trichotomy y 0 with hneg | rfl | hpos
  · rw [infinityOf_of_neg hneg]
    change infinityOf (-x) = infinityOf (x * y)
    rcases lt_trichotomy x 0 with hx | rfl | hx
    · rw [infinityOf_of_pos (neg_pos.mpr hx), infinityOf_of_pos (mul_pos_of_neg_of_neg hx hneg)]
    · rw [neg_zero, zero_mul]
    · rw [infinityOf_of_neg (neg_lt_zero.mpr hx), infinityOf_of_neg (mul_neg_of_pos_of_neg hx hneg)]
  · rw [mul_zero, infinityOf_zero]
    rfl
  · rw [infinityOf_of_pos hpos]
    change infinityOf x = infinityOf (x * y)
    rcases lt_trichotomy x 0 with hx | rfl | hx
    · rw [infinityOf_of_neg hx, infinityOf_of_neg (mul_neg_of_neg_of_pos hx hpos)]
    · rw [zero_mul]
    · rw [infinityOf_of_pos hx, infinityOf_of_pos (mul_pos hx hpos)]

theorem num_add_of_not_finite {z : Exact G} (h : Scalar.isFinite z = false) : num x + z = z := by
  cases z with
  | num y => cases h
  | top | bot | nan => rfl

theorem sub_num_of_not_finite {z : Exact G} (h : Scalar.isFinite z = false) : z - num x = z := by
  cases z with
  | num y => cases h
  | top | bot | nan => rfl

theorem add_self_of_not_finite {z : Exact G} (h : Scalar.isFinite z = false) : z + z = z := by
  cases z with
  | num y => cases h
  | top | bot | nan => rfl

theorem add_eq_nan {z w : Exact G} (hz : Scalar.isFinite z = false)
    (hw : Scalar.isFinite w = false) (hne : w ≠ z) : z + w = nan := by
  cases z with
  | num y => cases hz
  | top =>
    cases w with
    | num y => cases hw
    | top => exact absurd rfl hne
    | bot | nan => rfl
  | bot =>
    cases w with
    | num y => cases hw
    | bot => exact absurd rfl hne
    | top | nan => rfl
  | nan => cases w <;> rfl

end Exact

namespace Vec

/-! ## Sums of infinities -/

variable {l : List (Exact G)} {e : Exact G}

theorem foldl_nan (l : List (Exact G)) : l.foldl (· + ·) .nan = (.nan : Exact G) := by
  induction l with
  | nil => rfl
  | cons y l ih =>
    rw [List.foldl_cons]
    exact ih

theorem foldl_of_forall_eq (he : Scalar.isFinite e = false) (h : ∀ y ∈ l, y = e) :
    l.foldl (· + ·) e = e := by
  induction l with
  | nil => rfl
  | cons y l ih =>
    rw [List.forall_mem_cons] at h
    rw [List.foldl_cons, h.1, Exact.add_self_of_not_finite he, ih h.2]

theorem foldl_of_ne (hl : ∀ y ∈ l, Scalar.isFinite y = false) (he : Scalar.isFinite e = false)
    {y : Exact G} (hy : y ∈ l) (hne : y ≠ e) : l.foldl (· + ·) e = .nan := by
  induction l with
  | nil => cases hy
  | cons w l ih =>
    rw [List.forall_mem_cons] at hl
    rw [List.foldl_cons]
    by_cases hw : w = e
    · rw [hw, Exact.add_self_of_not_finite he]
      refine ih hl.2 ?_
      rcases List.mem_cons.mp hy with rfl | hy
      · exact absurd hw hne
      · exact hy
    · rw [Exact.add_eq_nan he hl.1 hw, foldl_nan]

def infinities (b : Fin n → K) : Vec (Exact G) n := Vector.ofFn fun i ↦ Exact.infinityOf (b i)

@[simp] theorem getElem_infinities (b : Fin n → K) (i : ℕ) (hi : i < n) :
    (infinities (G := G) b)[i] = Exact.infinityOf (b ⟨i, hi⟩) := Vector.getElem_ofFn ..

variable [IsStrictOrderedRing K] {a b : Fin n → K}

theorem dot_infinities_eq (a b : Fin n → K) :
    dot (num a) (infinities b) =
      (List.ofFn fun i ↦ (Exact.infinityOf (a i * b i) : Exact G)).foldl (· + ·) (.num 0) := by
  rw [dot, ← Vector.foldl_toList, Exact.zero_eq]
  congr 1
  refine List.ext_getElem (by simp) fun i hi hi' ↦ ?_
  rw [Vector.getElem_toList, Vector.getElem_zipWith, getElem_num, getElem_infinities,
    List.getElem_ofFn, Exact.num_mul_infinityOf]

theorem dot_infinities_of_forall_eq (hn : n ≠ 0) {e : Exact G}
    (h : ∀ i, Exact.infinityOf (a i * b i) = e) : dot (num a) (infinities b) = e := by
  obtain ⟨n, rfl⟩ := Nat.exists_eq_succ_of_ne_zero hn
  have he : Scalar.isFinite e = false := h 0 ▸ Exact.not_isFinite_infinityOf _
  rw [dot_infinities_eq, List.ofFn_succ, List.foldl_cons, h 0, Exact.num_add_of_not_finite he]
  refine foldl_of_forall_eq he fun y hy ↦ ?_
  obtain ⟨i, rfl⟩ := (List.mem_ofFn' _ _).mp hy
  exact h i.succ

theorem dot_infinities_of_ne {i j : Fin n}
    (h : (Exact.infinityOf (a i * b i) : Exact G) ≠ Exact.infinityOf (a j * b j)) :
    dot (num a) (infinities b) = (.nan : Exact G) := by
  obtain ⟨n, rfl⟩ := Nat.exists_eq_succ_of_ne_zero i.pos.ne'
  have hfinite : ∀ k, Scalar.isFinite (Exact.infinityOf (a k * b k) : Exact G) = false :=
    fun k ↦ Exact.not_isFinite_infinityOf _
  -- one of the two differs from the first infinity, with which the sum begins
  have hdiffers : ∃ k, (Exact.infinityOf (a k * b k) : Exact G) ≠ Exact.infinityOf (a 0 * b 0) := by
    by_contra hall
    push Not at hall
    exact h ((hall i).trans (hall j).symm)
  obtain ⟨k, hk⟩ := hdiffers
  rw [dot_infinities_eq, List.ofFn_succ, List.foldl_cons, Exact.num_add_of_not_finite (hfinite 0)]
  refine foldl_of_ne (fun y hy ↦ ?_) (hfinite 0) (y := Exact.infinityOf (a k * b k)) ?_ hk
  · obtain ⟨i, rfl⟩ := (List.mem_ofFn' _ _).mp hy
    exact hfinite i.succ
  · have hzero : k ≠ 0 := fun hzero ↦ hk (by rw [hzero])
    obtain ⟨k, rfl⟩ := Fin.exists_succ_eq.mpr hzero
    exact (List.mem_ofFn' _ _).mpr ⟨k, rfl⟩

end Vec

/-! ## The update -/

section Update

variable [IsStrictOrderedRing K] {P : Operator (Exact G) n} {M : Matrix (Fin n) (Fin n) K}
  {s g g' : Fin n → K} {eta : Exact G}

omit [IsStrictOrderedRing K] in
theorem Exact.num_div_zero (x : K) : (num x / num 0 : Exact G) = infinityOf x := if_pos rfl

omit [IsStrictOrderedRing K] in
theorem slope_neg_of_unchanged (hs : s ⬝ᵥ g' < 0) (hy : (g - g') ⬝ᵥ s = 0) : g ⬝ᵥ s < 0 := by
  rw [sub_dotProduct, sub_eq_zero] at hy
  rw [hy, dotProduct_comm]
  exact hs

/-- Where the gradient has not changed, no component of the direction is a number. -/
theorem updateDirection_of_unchanged (hP : P.Acts M) (eta : Exact G) (s g : Fin n → K) :
    (updateDirection P eta (Vec.num s) (Vec.num g) (Vec.num g)).direction =
      Vec.infinities 0 := by
  have hbeta : (updateDirection P eta (Vec.num s) (Vec.num g) (Vec.num g)).beta = .nan := by
    simp only [updateDirection, Vec.sub_num, sub_self, Vec.dot_num, zero_dotProduct, hP.forward,
      hP.forwardDot, Exact.num_mul, zero_mul, Exact.num_div_zero, Exact.infinityOf_zero]
    exact if_pos (Bool.or_true _)
  rw [updateDirection_eq_ofFn hP, hbeta, Vec.infinities]
  refine congrArg Vector.ofFn (funext fun i ↦ ?_)
  exact Exact.infinityOf_zero.symm

/-- Where the gradient has changed and the slope has not, the weight of the last direction is
infinite, and the direction keeps nothing of it but its signs. -/
theorem updateDirection_of_orthogonal (hP : P.Acts M) (heta : 0.0 < eta) (hs : s ⬝ᵥ g' < 0)
    (hy : (g - g') ⬝ᵥ s = 0) (hne : g ≠ g') :
    (updateDirection P eta (Vec.num s) (Vec.num g) (Vec.num g')).direction =
      Vec.infinities s := by
  have hchange : 0 < (g - g') ⬝ᵥ M *ᵥ (g - g') := hP.spd.pos _ (sub_ne_zero.mpr hne)
  have hnorm : 0 < s ⬝ᵥ M⁻¹ *ᵥ s := hP.spd.inv.pos s (Vec.ne_zero_of_dotProduct_neg hs)
  have hslope := slope_neg_of_unchanged hs hy
  -- the lower bound on the weight does not exceed an infinite weight
  have hbound : (eta * .num (s ⬝ᵥ g') / .num (s ⬝ᵥ M⁻¹ *ᵥ s) : Exact G) ≤ .top := by
    cases eta with
    | num e =>
      rw [Exact.num_mul, Exact.num_div hnorm.ne']
      trivial
    | top =>
      change (Exact.infinityOf (s ⬝ᵥ g') / .num (s ⬝ᵥ M⁻¹ *ᵥ s) : Exact G) ≤ .top
      rw [Exact.infinityOf_of_neg hs]
      change (if s ⬝ᵥ M⁻¹ *ᵥ s < 0 then .top else .bot : Exact G) ≤ .top
      rw [if_neg hnorm.not_gt]
      trivial
    | bot | nan =>
      rw [Exact.zero_eq] at heta
      exact heta.elim
  have hbeta : (updateDirection P eta (Vec.num s) (Vec.num g) (Vec.num g')).beta = .top := by
    simp only [updateDirection, Vec.sub_num, Vec.dot_num, hP.forward, hP.forwardDot,
      hP.inverseDot, Exact.num_mul, hy, Exact.num_div_zero,
      Exact.infinityOf_of_neg (mul_neg_of_pos_of_neg hchange hslope)]
    -- the correction is infinite, and it is divided by the change of the slope, which is zero
    have hquotient : (Exact.num ((g - g') ⬝ᵥ M *ᵥ g) - .bot) / .num 0 = (.top : Exact G) :=
      if_neg (lt_irrefl 0)
    rw [hquotient, Scalar.maximum, decide_eq_true hbound, Bool.true_or, if_pos rfl]
  rw [updateDirection_eq_ofFn hP, hbeta, Vec.infinities]
  refine congrArg Vector.ofFn (funext fun i ↦ ?_)
  exact Exact.sub_num_of_not_finite (Exact.not_isFinite_infinityOf (s i))

/-- Unless the gradient has changed and every component of the last direction leads downhill, the
slope along the new direction is no number. -/
theorem dot_updateDirection_eq_nan (hP : P.Acts M) (heta : 0.0 < eta) (hs : s ⬝ᵥ g' < 0)
    (hy : (g - g') ⬝ᵥ s = 0) (h : ¬(g ≠ g' ∧ ∀ i, g i * s i < 0)) :
    Vec.dot (Vec.num g)
      (updateDirection P eta (Vec.num s) (Vec.num g) (Vec.num g')).direction = .nan := by
  have hslope := slope_neg_of_unchanged hs hy
  obtain ⟨j, -, hj⟩ : ∃ j ∈ Finset.univ, g j * s j < 0 := by
    refine Finset.exists_lt_of_sum_lt ?_
    rw [Finset.sum_const_zero]
    exact hslope
  by_cases hne : g = g'
  · rw [hne, updateDirection_of_unchanged hP]
    refine Vec.dot_infinities_of_forall_eq j.pos.ne' fun i ↦ ?_
    rw [Pi.zero_apply, mul_zero, Exact.infinityOf_zero]
  · -- one component does not lead downhill, but another one does
    have hup : ∃ i, ¬g i * s i < 0 := by
      by_contra hall
      push Not at hall
      exact h ⟨hne, hall⟩
    obtain ⟨i, hi⟩ := hup
    rw [updateDirection_of_orthogonal hP heta hs hy hne]
    refine Vec.dot_infinities_of_ne (i := i) (j := j) fun hsame ↦ hi ?_
    rw [Exact.infinityOf_of_neg hj] at hsame
    exact Exact.infinityOf_eq_bot_iff.mp hsame

theorem descentRestart_of_nan {d : Vec (Exact G) n} (hg : g ≠ 0)
    (h : Vec.dot (Vec.num g) d = .nan) :
    descentRestart (Vec.num g) d = ⟨Vec.num (-g), .num (-(g ⬝ᵥ g)), some .nan, true⟩ := by
  have hpos : 0 < g ⬝ᵥ g :=
    (Vec.dotProduct_self_nonneg g).lt_of_ne' fun hzero ↦ hg (dotProduct_self_eq_zero.mp hzero)
  have hself : Vec.dot (Vec.num g) (Vec.neg (Vec.num g)) = (.num (-(g ⬝ᵥ g)) : Exact G) := by
    rw [Vec.neg_num, Vec.dot_num, dotProduct_neg]
  have hnot : ¬Vec.dot (Vec.num g) d < 0.0 := by
    rw [h]
    exact Exact.not_nan_lt _
  rw [descentRestart_of_not_lt hnot, h, hself, Vec.neg_num, Exact.zero_eq,
    decide_eq_true (Exact.num_lt.mpr (neg_lt_zero.mpr hpos))]

/-- **What becomes of a vanishing change of the slope.** After an update from numbers along a
direction that led downhill, with a positive `eta` and any preconditioner, let the slope along this
direction not have changed. The restart test replaces the new direction by steepest descent, having
found that its slope is no number, in all cases but one: if the gradient has changed and every
component of the last direction leads downhill on its own, the test passes a direction without a
single finite component, at an infinite slope. -/
theorem restart_of_vanishing_change (hP : P.Acts M) (heta : 0.0 < eta) (hs : s ⬝ᵥ g' < 0)
    (hy : (g - g') ⬝ᵥ s = 0) :
    (¬(g ≠ g' ∧ ∀ i, g i * s i < 0) →
      descentRestart (Vec.num g)
          (updateDirection P eta (Vec.num s) (Vec.num g) (Vec.num g')).direction =
        ⟨Vec.num (-g), .num (-(g ⬝ᵥ g)), some .nan, true⟩) ∧
    (g ≠ g' → (∀ i, g i * s i < 0) →
      descentRestart (Vec.num g)
          (updateDirection P eta (Vec.num s) (Vec.num g) (Vec.num g')).direction =
        ⟨Vec.infinities s, .bot, none, true⟩ ∧
      ∀ i (hi : i < n), Scalar.isFinite (Vec.infinities (G := G) s)[i] = false) := by
  constructor
  · intro h
    have hgradient : g ≠ 0 := Vec.ne_zero_of_dotProduct_neg (slope_neg_of_unchanged hs hy)
    exact descentRestart_of_nan hgradient (dot_updateDirection_eq_nan hP heta hs hy h)
  · intro hne hall
    have hn : n ≠ 0 := by
      rintro rfl
      exact hne (funext fun i ↦ i.elim0)
    have hbot : Vec.dot (Vec.num g) (Vec.infinities s) = (.bot : Exact G) :=
      Vec.dot_infinities_of_forall_eq hn fun i ↦ Exact.infinityOf_of_neg (hall i)
    rw [updateDirection_of_orthogonal hP heta hs hy hne]
    constructor
    · rw [descentRestart_of_lt, hbot]
      rw [hbot, Exact.zero_eq]
      trivial
    · intro i hi
      rw [Vec.getElem_infinities]
      exact Exact.not_isFinite_infinityOf _

end Update

/-- After a step along `(1, 1)`, the gradients `(-2, -1)` and `(-1, -2)` leave an infinite direction
in place, and the gradients `(-3, 0)` and `(-4, 1)` do not. -/
theorem restart_of_vanishing_change_plane :
    let s : Fin 2 → ℚ := ![1, 1]
    descentRestart (Vec.num ![-1, -2]) (updateDirection (α := Exact Grid.rational) .identity
        (.num (2 / 5)) (Vec.num s) (Vec.num ![-1, -2]) (Vec.num ![-2, -1])).direction =
      ⟨#v[.top, .top], .bot, none, true⟩ ∧
    descentRestart (Vec.num ![-4, 1]) (updateDirection (α := Exact Grid.rational) .identity
        (.num (2 / 5)) (Vec.num s) (Vec.num ![-4, 1]) (Vec.num ![-3, 0])).direction =
      ⟨Vec.num ![4, -1], .num (-17), some .nan, true⟩ := by
  intro s
  have heta : (0.0 : Exact Grid.rational) < .num (2 / 5) := by
    rw [Exact.zero_eq, Exact.num_lt]
    norm_num
  constructor
  · have hdown : s ⬝ᵥ ![-2, -1] < 0 := by norm_num [s]
    have hflat : (![-1, -2] - ![-2, -1]) ⬝ᵥ s = 0 := by norm_num [s]
    obtain ⟨-, hkept⟩ := restart_of_vanishing_change Operator.identity_acts heta hdown hflat
    have hne : (![-1, -2] : Fin 2 → ℚ) ≠ ![-2, -1] := by decide +kernel
    have hsigns : Vec.infinities (G := Grid.rational) s = #v[.top, .top] := by decide +kernel
    rw [(hkept hne (by decide +kernel)).1, hsigns]
  · have hdown : s ⬝ᵥ ![-3, 0] < 0 := by norm_num [s]
    have hflat : (![-4, 1] - ![-3, 0]) ⬝ᵥ s = 0 := by norm_num [s]
    obtain ⟨hreplaced, -⟩ := restart_of_vanishing_change Operator.identity_acts heta hdown hflat
    have hdirection : -![-4, 1] = (![4, -1] : Fin 2 → ℚ) := by decide +kernel
    have hslope : -(![-4, 1] ⬝ᵥ ![-4, 1]) = (-17 : ℚ) := by decide +kernel
    rw [hreplaced (by decide +kernel), hdirection, hslope]

end NonlinearCG
