import Mathlib
import NonlinearCG.Direction
import NonlinearCG.Proofs.Exact.Vector

/-!
# The restart test

A direction that passes the restart test leads downhill, as it was or replaced by steepest descent.
In exact arithmetic only a vanishing gradient fails the test, even along a direction with components
that are no numbers.
-/

namespace NonlinearCG

open Matrix

/-! ## Both branches -/

section Branches

variable {α : Type} [Scalar α] {n : ℕ} {g s : Vec α n}

theorem descentRestart_of_lt (h : Vec.dot g s < 0.0) :
    descentRestart g s = ⟨s, Vec.dot g s, none, true⟩ := if_pos h

theorem descentRestart_of_not_lt (h : ¬Vec.dot g s < 0.0) :
    descentRestart g s = ⟨Vec.neg g, Vec.dot g (Vec.neg g), some (Vec.dot g s),
      Vec.dot g (Vec.neg g) < 0.0⟩ := if_neg h

theorem descentRestart_slope (g s : Vec α n) :
    (descentRestart g s).slope = Vec.dot g (descentRestart g s).direction := by
  by_cases h : Vec.dot g s < 0.0
  · rw [descentRestart_of_lt h]
  · rw [descentRestart_of_not_lt h]

/-- The direction that has passed the test leads downhill. -/
theorem descentRestart_slope_neg (h : (descentRestart g s).recovered = true) :
    (descentRestart g s).slope < 0.0 := by
  by_cases hslope : Vec.dot g s < 0.0
  · rw [descentRestart_of_lt hslope]
    exact hslope
  · rw [descentRestart_of_not_lt hslope] at h ⊢
    exact of_decide_eq_true h

end Branches

/-! ## Exact arithmetic -/

section Exact

variable {K : Type} [Field K] [LinearOrder K] [IsStrictOrderedRing K] {G : Grid K} {n : ℕ}
  {a s : Fin n → K}

theorem descentRestart_num_of_neg (h : a ⬝ᵥ s < 0) :
    descentRestart (Vec.num (G := G) a) (Vec.num s) = ⟨Vec.num s, .num (a ⬝ᵥ s), none, true⟩ := by
  rw [descentRestart_of_lt, Vec.dot_num]
  rw [Vec.dot_num, Exact.zero_eq]
  exact Exact.num_lt.mpr h

omit [IsStrictOrderedRing K] in
theorem exists_restart_num (a s : Fin n → K) :
    ∃ s' : Fin n → K, (descentRestart (Vec.num (G := G) a) (Vec.num s)).direction =
      Vec.num s' := by
  by_cases h : Vec.dot (Vec.num (G := G) a) (Vec.num s) < 0.0
  · rw [descentRestart_of_lt h]
    exact ⟨s, rfl⟩
  · rw [descentRestart_of_not_lt h, Vec.neg_num]
    exact ⟨-a, rfl⟩

theorem recovered_eq_false_iff {s : Vec (Exact G) n} :
    (descentRestart (Vec.num a) s).recovered = false ↔ a = 0 := by
  have hself : Vec.dot (Vec.num a) (Vec.neg (Vec.num a)) = (.num (-(a ⬝ᵥ a)) : Exact G) := by
    rw [Vec.neg_num, Vec.dot_num, dotProduct_neg]
  constructor
  · intro h
    by_cases hslope : Vec.dot (Vec.num a) s < 0.0
    · rw [descentRestart_of_lt hslope] at h
      cases h
    · -- steepest descent has failed, whose slope is the negative square of the gradient
      rw [descentRestart_of_not_lt hslope] at h
      have hnonneg := of_decide_eq_false h
      rw [hself, Exact.zero_eq, Exact.num_lt, Left.neg_neg_iff, not_lt] at hnonneg
      exact dotProduct_self_eq_zero.mp (hnonneg.antisymm (Vec.dotProduct_self_nonneg a))
  · rintro rfl
    rw [descentRestart_of_not_lt (Vec.not_dot_zero_neg s)]
    refine decide_eq_false ?_
    rw [Vec.neg_num, neg_zero]
    exact Vec.not_dot_zero_neg _

end Exact

end NonlinearCG
