import Mathlib
import NonlinearCG.Proofs.Direction.SufficientDescent

/-!
# Conjugate directions

What the direction update makes of exact line minimizations of a quadratic function
`½ xᵀ A x - bᵀ x`. A step of length `t` along `s` changes the gradient by `t A s`, so that the
function enters only through `A` and the gradient at the start.

## The invariant

With `P` the preconditioner, `gᵢᵀ P gⱼ = 0` and `sᵢᵀ A sⱼ = 0` for all iterates `i ≠ j` so far. To
carry both over a step, the invariant also says which combinations the vectors are: a vector that is
orthogonal to all directions is orthogonal to all `P gⱼ`, and one that is orthogonal to all
gradients is orthogonal to `A sⱼ` for all steps that were taken. The new gradient is orthogonal to
all directions, hence to all `P gⱼ`; so `P` times the new gradient is orthogonal to all gradients,
hence to all `A sⱼ` but the last one, and the weight of the last direction settles that one.

Gradients that do not vanish and are orthogonal in this sense are independent, so that there are at
most as many of them as variables.
-/

namespace NonlinearCG

open Matrix

/-- The gradient at an iterate and the direction in which it goes on. -/
structure Stage (K : Type) (n : ℕ) where
  gradient : Fin n → K
  direction : Fin n → K

variable {K : Type} [Field K] [LinearOrder K] {n : ℕ} {A M : Matrix (Fin n) (Fin n) K}
  {e : Stage K n} {past : List (Stage K n)}

namespace Stage

/-- The step to the minimizer along the direction. -/
def exactStep (A : Matrix (Fin n) (Fin n) K) (e : Stage K n) : K :=
  -(e.gradient ⬝ᵥ e.direction) / (e.direction ⬝ᵥ A *ᵥ e.direction)

def nextGradient (A : Matrix (Fin n) (Fin n) K) (e : Stage K n) : Fin n → K :=
  e.gradient + e.exactStep A • A *ᵥ e.direction

/-- The untruncated weight of the direction after the step. -/
def nextWeight (A M : Matrix (Fin n) (Fin n) K) (e : Stage K n) : K :=
  betaOf M e.direction (e.nextGradient A) (e.nextGradient A - e.gradient)

def next (A M : Matrix (Fin n) (Fin n) K) (e : Stage K n) : Stage K n :=
  ⟨e.nextGradient A, e.nextWeight A M • e.direction - M *ᵥ e.nextGradient A⟩

omit [LinearOrder K] in
theorem nextGradient_sub (A : Matrix (Fin n) (Fin n) K) (e : Stage K n) :
    e.nextGradient A - e.gradient = e.exactStep A • A *ᵥ e.direction :=
  add_sub_cancel_left ..

end Stage

/-- The stages of a run on a quadratic function, the latest one first, all of whose steps went to
the minimizer along the direction. -/
structure Conjugate (A M : Matrix (Fin n) (Fin n) K) (e : Stage K n) (past : List (Stage K n)) :
    Prop where
  orthogonal : (e :: past).Pairwise fun i j ↦ i.gradient ⬝ᵥ M *ᵥ j.gradient = 0
  conjugate : (e :: past).Pairwise fun i j ↦ i.direction ⬝ᵥ A *ᵥ j.direction = 0
  /-- The latest gradient is orthogonal to all directions of the past. -/
  flat : ∀ j ∈ past, e.gradient ⬝ᵥ j.direction = 0
  descent : e.gradient ⬝ᵥ e.direction = -(e.gradient ⬝ᵥ M *ᵥ e.gradient)
  /-- Preconditioned gradients are combinations of directions. -/
  spanned : ∀ w, (∀ j ∈ e :: past, w ⬝ᵥ j.direction = 0) →
    ∀ j ∈ e :: past, w ⬝ᵥ M *ᵥ j.gradient = 0
  /-- The changes of the gradient are combinations of gradients. -/
  curved : ∀ w, (∀ j ∈ e :: past, w ⬝ᵥ j.gradient = 0) → ∀ j ∈ past, w ⬝ᵥ A *ᵥ j.direction = 0
  nonzero : ∀ j ∈ past, j.gradient ≠ 0
  stationary : e.gradient = 0 → e.direction = 0

namespace Conjugate

/-! ## The first stage -/

omit [LinearOrder K] in
theorem steepest (A M : Matrix (Fin n) (Fin n) K) (g : Fin n → K) :
    Conjugate A M ⟨g, -(M *ᵥ g)⟩ [] := by
  refine ⟨List.pairwise_singleton _ _, List.pairwise_singleton _ _, by simp, ?_, ?_, by simp,
    by simp, ?_⟩
  · exact dotProduct_neg g (M *ᵥ g)
  · intro w hw j hj
    obtain rfl := List.mem_singleton.mp hj
    have hdirection := hw _ hj
    rwa [dotProduct_neg, neg_eq_zero] at hdirection
  · rintro rfl
    rw [mulVec_zero, neg_zero]

/-! ## The step to the minimizer -/

section Step

variable [IsStrictOrderedRing K] (hA : SPD A) (hM : SPD M) (h : Conjugate A M e past)
  (hg : e.gradient ≠ 0)

include hM h hg in
theorem slope_neg : e.gradient ⬝ᵥ e.direction < 0 := by
  rw [h.descent]
  exact neg_neg_of_pos (hM.pos _ hg)

include hM h hg in
theorem direction_ne_zero : e.direction ≠ 0 := by
  have hslope := h.slope_neg hM hg
  rw [dotProduct_comm] at hslope
  exact Vec.ne_zero_of_dotProduct_neg hslope

include hA hM h hg

theorem curvature_pos : 0 < e.direction ⬝ᵥ A *ᵥ e.direction :=
  hA.pos _ (h.direction_ne_zero hM hg)

theorem exactStep_pos : 0 < e.exactStep A :=
  div_pos (neg_pos.mpr (h.slope_neg hM hg)) (h.curvature_pos hA hM hg)

theorem nextGradient_flat : ∀ j ∈ e :: past, e.nextGradient A ⬝ᵥ j.direction = 0 := by
  have hcurvature := (h.curvature_pos hA hM hg).ne'
  intro j hj
  rw [Stage.nextGradient, add_dotProduct, smul_dotProduct, smul_eq_mul, dotProduct_comm (A *ᵥ _),
    hA.dot_comm]
  rcases List.mem_cons.mp hj with rfl | hpast
  · rw [Stage.exactStep, div_mul_cancel₀ _ hcurvature, add_neg_cancel]
  · rw [h.flat j hpast, (List.pairwise_cons.mp h.conjugate).1 j hpast, mul_zero, add_zero]

theorem nextGradient_orthogonal :
    ∀ j ∈ e :: past, e.nextGradient A ⬝ᵥ M *ᵥ j.gradient = 0 :=
  h.spanned _ (h.nextGradient_flat hA hM hg)

theorem change_pos : 0 < (e.nextGradient A - e.gradient) ⬝ᵥ e.direction := by
  rw [sub_dotProduct, h.nextGradient_flat hA hM hg e List.mem_cons_self, zero_sub]
  exact neg_pos.mpr (h.slope_neg hM hg)

theorem change_dot : (e.nextGradient A - e.gradient) ⬝ᵥ M *ᵥ e.nextGradient A =
    e.nextGradient A ⬝ᵥ M *ᵥ e.nextGradient A := by
  have horthogonal := h.nextGradient_orthogonal hA hM hg e List.mem_cons_self
  calc (e.nextGradient A - e.gradient) ⬝ᵥ M *ᵥ e.nextGradient A
    _ = e.nextGradient A ⬝ᵥ M *ᵥ e.nextGradient A - e.nextGradient A ⬝ᵥ M *ᵥ e.gradient := by
      rw [sub_dotProduct, hM.dot_comm e.gradient]
    _ = e.nextGradient A ⬝ᵥ M *ᵥ e.nextGradient A := by rw [horthogonal, sub_zero]

theorem nextWeight_mul : e.nextWeight A M * ((e.nextGradient A - e.gradient) ⬝ᵥ e.direction) =
    e.nextGradient A ⬝ᵥ M *ᵥ e.nextGradient A := by
  rw [Stage.nextWeight, betaOf, div_mul_cancel₀ _ (h.change_pos hA hM hg).ne',
    h.nextGradient_flat hA hM hg e List.mem_cons_self, mul_zero, zero_div, sub_zero,
    h.change_dot hA hM hg]

theorem nextWeight_nonneg : 0 ≤ e.nextWeight A M := by
  refine nonneg_of_mul_nonneg_left ?_ (h.change_pos hA hM hg)
  rw [h.nextWeight_mul hA hM hg]
  exact hM.nonneg _

/-- The truncation of the weight never takes effect. -/
theorem max_nextWeight {eta : K} (heta : 0 < eta) :
    max (e.nextWeight A M) (etaOf M eta e.direction e.gradient) = e.nextWeight A M := by
  have hslope := h.slope_neg hM hg
  rw [dotProduct_comm] at hslope
  exact max_eq_left ((etaOf_neg hM heta hslope).le.trans (h.nextWeight_nonneg hA hM hg))

/-- The new direction is conjugate to all directions. -/
theorem next_conjugate :
    ∀ j ∈ e :: past, (e.next A M).direction ⬝ᵥ A *ᵥ j.direction = 0 := by
  intro j hj
  rw [Stage.next, sub_dotProduct, smul_dotProduct, smul_eq_mul]
  rcases List.mem_cons.mp hj with rfl | hpast
  · -- `A s` is a multiple of the change of the gradient, for which the weight was chosen
    have hstep := (h.exactStep_pos hA hM hg).ne'
    have hweight := h.nextWeight_mul hA hM hg
    have hchange := h.change_dot hA hM hg
    rw [Stage.nextGradient_sub, dotProduct_comm, dotProduct_smul, smul_eq_mul] at hweight hchange
    refine mul_left_cancel₀ hstep ?_
    rw [mul_zero, mul_sub, hchange, mul_left_comm, hweight, sub_self]
  · -- `P` times the new gradient is orthogonal to all gradients, hence to all earlier changes
    rw [(List.pairwise_cons.mp h.conjugate).1 j hpast, mul_zero, zero_sub, neg_eq_zero]
    refine h.curved _ (fun i hi ↦ ?_) j hpast
    rw [dotProduct_comm, hM.dot_comm]
    exact h.nextGradient_orthogonal hA hM hg i hi

/-- The step to the minimizer preserves the invariant. -/
theorem next : Conjugate A M (e.next A M) (e :: past) where
  orthogonal := List.pairwise_cons.mpr ⟨h.nextGradient_orthogonal hA hM hg, h.orthogonal⟩
  conjugate := List.pairwise_cons.mpr ⟨h.next_conjugate hA hM hg, h.conjugate⟩
  flat := h.nextGradient_flat hA hM hg
  descent := by
    rw [Stage.next, dotProduct_sub, dotProduct_smul,
      h.nextGradient_flat hA hM hg e List.mem_cons_self, smul_zero, zero_sub]
  spanned := by
    intro w hw j hj
    obtain ⟨hnew, hold⟩ := List.forall_mem_cons.mp hw
    rcases List.mem_cons.mp hj with rfl | hj
    · rw [Stage.next, dotProduct_sub, dotProduct_smul, hold e List.mem_cons_self, smul_zero,
        zero_sub, neg_eq_zero] at hnew
      exact hnew
    · exact h.spanned w hold j hj
  curved := by
    intro w hw j hj
    obtain ⟨hnew, hold⟩ := List.forall_mem_cons.mp hw
    rcases List.mem_cons.mp hj with rfl | hj
    · have hstep := (h.exactStep_pos hA hM hg).ne'
      have hchange : w ⬝ᵥ (j.nextGradient A - j.gradient) = 0 := by
        rw [dotProduct_sub, hold j List.mem_cons_self, sub_zero]
        exact hnew
      rw [Stage.nextGradient_sub, dotProduct_smul, smul_eq_mul] at hchange
      exact (mul_eq_zero.mp hchange).resolve_left hstep
    · exact h.curved w hold j hj
  nonzero := List.forall_mem_cons.mpr ⟨hg, h.nonzero⟩
  stationary := by
    intro (hzero : e.nextGradient A = 0)
    have hprod := h.nextWeight_mul hA hM hg
    have hpos := h.change_pos hA hM hg
    rw [hzero] at hpos
    rw [hzero, zero_dotProduct] at hprod
    -- the weight vanishes with the gradient
    have hweight := (mul_eq_zero.mp hprod).resolve_right hpos.ne'
    rw [Stage.next, hzero, hweight, zero_smul, mulVec_zero, sub_zero]

theorem updateDirection_eq {G : Grid K} {P : Operator (Exact G) n} (hP : P.Acts M) {eta : K}
    (heta : 0 < eta) :
    (updateDirection P (.num eta) (Vec.num e.direction) (Vec.num (e.nextGradient A))
      (Vec.num e.gradient)).direction = Vec.num (e.next A M).direction := by
  rw [updateDirection_num hP (h.direction_ne_zero hM hg) (h.change_pos hA hM hg).ne']
  exact congrArg Vec.num (congrArg (· • _ - _) (h.max_nextWeight hA hM hg heta))

end Step

/-! ## The number of stages -/

/-- There are at most as many stages as variables whose gradients do not vanish and are pairwise
orthogonal. -/
theorem length_le_of_orthogonal (hM : SPD M) {stages : List (Stage K n)}
    (horthogonal : stages.Pairwise fun i j ↦ i.gradient ⬝ᵥ M *ᵥ j.gradient = 0)
    (hnonzero : ∀ j ∈ stages, j.gradient ≠ 0) : stages.length ≤ n := by
  let v : Fin stages.length → Fin n → K := fun i ↦ stages[i].gradient
  have hpair := List.pairwise_iff_getElem.mp horthogonal
  have hv : LinearMap.IsOrthoᵢ (Matrix.toBilin' M) v := by
    intro i j hij
    change Matrix.toBilin' M (v i) (v j) = 0
    rw [Matrix.toBilin'_apply']
    rcases lt_or_gt_of_ne hij with hlt | hgt
    · exact hpair i j i.isLt j.isLt hlt
    · rw [hM.dot_comm]
      exact hpair j i j.isLt i.isLt hgt
  have hindependent : LinearIndependent K v := by
    refine LinearMap.linearIndependent_of_isOrthoᵢ hv fun i hzero ↦ ?_
    rw [Matrix.toBilin'_apply'] at hzero
    exact (hM.pos _ (hnonzero _ (List.getElem_mem i.isLt))).ne' hzero
  have hcard := hindependent.fintype_card_le_finrank
  rwa [Fintype.card_fin, Module.finrank_fin_fun] at hcard

theorem length_past_le (hM : SPD M) (h : Conjugate A M e past) : past.length ≤ n :=
  length_le_of_orthogonal hM (List.pairwise_cons.mp h.orthogonal).2 h.nonzero

theorem length_past_lt (hM : SPD M) (h : Conjugate A M e past) (hg : e.gradient ≠ 0) :
    past.length < n :=
  length_le_of_orthogonal hM h.orthogonal (List.forall_mem_cons.mpr ⟨hg, h.nonzero⟩)

end Conjugate

end NonlinearCG
