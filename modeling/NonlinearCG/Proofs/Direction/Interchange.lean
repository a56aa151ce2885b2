import Mathlib
import NonlinearCG.Direction
import NonlinearCG.Proofs.Exact.Operator

/-!
# Operators that lead to the same directions

The directions of a run show of its preconditioner no more than what it does to vectors of numbers.
The first direction comes from a gradient that was found to be finite. Later on a component that is
not finite may get in, of the last direction or of a gradient. One of the two weights is then a
quotient of two inner products with such a component, and that is no number. It spoils every
component of the direction, whatever the operator is (`updateDirection_of_not_finite`).

In exact arithmetic two operators that act as the same matrix therefore lead to the same directions
(`Operator.Acts.sameDirections`), no matter how they are stored and applied.
-/

namespace NonlinearCG

open Matrix

/-- Two operators lead to the same directions: to the same first one where the gradient is finite,
and to the same next one after any other. -/
structure Operator.SameDirections {α : Type} [Scalar α] {n : ℕ} (P P' : Operator α n) : Prop where
  forward {g : Vec α n} : Vec.allFinite g = true → P.forward g = P'.forward g
  update (eta : α) (s g g' : Vec α n) :
    (updateDirection P eta s g g').direction = (updateDirection P' eta s g g').direction

theorem Operator.SameDirections.refl {α : Type} [Scalar α] {n : ℕ} (P : Operator α n) :
    P.SameDirections P :=
  ⟨fun _ ↦ rfl, fun _ _ _ _ ↦ rfl⟩

theorem Operator.SameDirections.symm {α : Type} [Scalar α] {n : ℕ} {P P' : Operator α n}
    (h : P.SameDirections P') : P'.SameDirections P :=
  ⟨fun hg ↦ (h.forward hg).symm, fun eta s g g' ↦ (h.update eta s g g').symm⟩

variable {K : Type} [Field K] [LinearOrder K] {G : Grid K} {n : ℕ}

/-! ## Values that are not finite -/

namespace Exact

variable {z w : Exact G}

theorem div_eq_nan (hz : Scalar.isFinite z = false) (hw : Scalar.isFinite w = false) :
    z / w = nan := by
  cases w with
  | num y => cases hw
  | top | bot | nan =>
    cases z with
    | num x => cases hz
    | top | bot | nan => rfl

theorem maximum_nan (z : Exact G) : Scalar.maximum z nan = nan := by
  cases z <;> rfl

theorem nan_maximum (z : Exact G) : Scalar.maximum nan z = nan := if_pos (Bool.or_true _)

theorem not_finite_sub_of_left (w : Exact G) (hz : Scalar.isFinite z = false) :
    Scalar.isFinite (z - w) = false :=
  Bool.eq_false_iff.mpr fun h ↦ Bool.eq_false_iff.mp hz (isFinite_of_add h).1

theorem isFinite_of_sub (h : Scalar.isFinite (z - w) = true) :
    Scalar.isFinite z = true ∧ Scalar.isFinite w = true := by
  obtain ⟨hz, hw⟩ := isFinite_of_add h
  refine ⟨hz, ?_⟩
  cases w with
  | num y => rfl
  | top | bot | nan => cases hw

end Exact

namespace Vec

variable {a b : Vec (Exact G) n}

theorem allFinite_of_sub (h : (sub a b).allFinite = true) :
    a.allFinite = true ∧ b.allFinite = true := by
  simp only [allFinite, Vector.all_eq_true] at h ⊢
  have hterm : ∀ i (hi : i < n), Scalar.isFinite (a[i] - b[i]) = true := by
    intro i hi
    rw [← Vector.getElem_zipWith (f := (· - ·)) hi]
    exact h i hi
  exact ⟨fun i hi ↦ (Exact.isFinite_of_sub (hterm i hi)).1,
    fun i hi ↦ (Exact.isFinite_of_sub (hterm i hi)).2⟩

theorem not_finite_dot_left (b : Vec (Exact G) n) (h : a.allFinite = false) :
    Scalar.isFinite (dot a b) = false :=
  Bool.eq_false_iff.mpr fun hdot ↦ Bool.eq_false_iff.mp h (allFinite_of_dot hdot).1

end Vec

/-! ## The update -/

theorem updateDirection_of_beta_eq_nan {P : Operator (Exact G) n} {eta : Exact G}
    {s g g' : Vec (Exact G) n} (h : (updateDirection P eta s g g').beta = .nan) :
    (updateDirection P eta s g g').direction = Vector.replicate n .nan := by
  have hdirection : (updateDirection P eta s g g').direction =
      Vector.zipWith (fun si pi ↦ si * (updateDirection P eta s g g').beta - pi) s
        (P.forward g) := rfl
  refine Vector.ext fun i hi ↦ ?_
  rw [hdirection, h, Vector.getElem_zipWith, Vector.getElem_replicate]
  cases s[i] <;> rfl

/-- A component that is not finite spoils the next direction. -/
theorem updateDirection_of_not_finite (P : Operator (Exact G) n) (eta : Exact G)
    {s g g' : Vec (Exact G) n}
    (h : ¬(s.allFinite = true ∧ g.allFinite = true ∧ g'.allFinite = true)) :
    (updateDirection P eta s g g').direction = Vector.replicate n .nan := by
  refine updateDirection_of_beta_eq_nan ?_
  rcases hs : s.allFinite with _ | _
  · -- the lower bound on the weight is no number
    have hetak : eta * Vec.dot s g' / P.inverseDot s s = .nan := by
      refine Exact.div_eq_nan ?_ (Vec.not_finite_dot_left _ hs)
      have hdot := Vec.not_finite_dot_left g' hs
      exact Bool.eq_false_iff.mpr fun h ↦ Bool.eq_false_iff.mp hdot (Exact.isFinite_of_mul h).2
    simp only [updateDirection, hetak, Exact.maximum_nan]
  · -- the change of the gradient is not finite, and the weight itself is no number
    have hy : (Vec.sub g g').allFinite = false :=
      Bool.eq_false_iff.mpr fun hy ↦ h ⟨hs, Vec.allFinite_of_sub hy⟩
    have hbetak : (Vec.dot (Vec.sub g g') (P.forward g) - P.forwardDot (Vec.sub g g')
        (Vec.sub g g') * Vec.dot g s / Vec.dot (Vec.sub g g') s) / Vec.dot (Vec.sub g g') s =
        .nan := by
      refine Exact.div_eq_nan (Exact.not_finite_sub_of_left _ ?_) ?_
      · exact Vec.not_finite_dot_left _ hy
      · exact Vec.not_finite_dot_left _ hy
    simp only [updateDirection, hbetak, Exact.nan_maximum]

/-- **Operators that act as the same matrix lead to the same directions**, also where directions or
gradients are not finite. -/
theorem Operator.Acts.sameDirections [IsStrictOrderedRing K] {P P' : Operator (Exact G) n}
    {M : Matrix (Fin n) (Fin n) K}
    (hP : P.Acts M) (hP' : P'.Acts M) : P.SameDirections P' where
  forward hg := by
    obtain ⟨a, rfl⟩ := Vec.allFinite_iff.mp hg
    rw [hP.forward, hP'.forward]
  update eta s g g' := by
    by_cases h : s.allFinite = true ∧ g.allFinite = true ∧ g'.allFinite = true
    · obtain ⟨hs, hg, hg'⟩ := h
      obtain ⟨s, rfl⟩ := Vec.allFinite_iff.mp hs
      obtain ⟨g, rfl⟩ := Vec.allFinite_iff.mp hg
      obtain ⟨g', rfl⟩ := Vec.allFinite_iff.mp hg'
      simp only [updateDirection, Vec.sub_num, hP.forward, hP'.forward, hP.forwardDot,
        hP'.forwardDot, hP.inverseDot, hP'.inverseDot]
    · rw [updateDirection_of_not_finite P eta h, updateDirection_of_not_finite P' eta h]

end NonlinearCG
