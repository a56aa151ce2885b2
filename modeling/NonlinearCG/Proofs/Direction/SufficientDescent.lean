import Mathlib
import NonlinearCG.LineSearch.Wolfe
import NonlinearCG.Proofs.Direction.Restart
import NonlinearCG.Proofs.Exact.Operator

/-!
# Sufficient descent

In exact arithmetic the updated direction leads downhill at a rate that the gradient alone
determines, however the line search went: with `P` the preconditioner,

```text
g · s ≤ - 3/4 gᵀ P g
```

The untruncated weight `β_k` attains it by completing a square, the norm of `τ y - g / 2` with
`τ = (g · s) / (y · s)`. The truncation at `η_k < 0` takes effect only if `β_k < η_k`. Then the last
direction enters with a weight that is negative but closer to zero, which is harmless if it leads
uphill from the new point, and better than `β_k` if it leads downhill.
-/

namespace NonlinearCG

open Matrix

variable {K : Type} [Field K] [LinearOrder K] [IsStrictOrderedRing K] {G : Grid K} {n : ℕ}
  {P : Operator (Exact G) n} {M : Matrix (Fin n) (Fin n) K} {s g g' : Fin n → K} {eta : K}

/-! ## The weight of the last direction -/

/-- The untruncated weight of the last direction. -/
def betaOf (M : Matrix (Fin n) (Fin n) K) (s g y : Fin n → K) : K :=
  (y ⬝ᵥ M *ᵥ g - y ⬝ᵥ M *ᵥ y * (g ⬝ᵥ s) / (y ⬝ᵥ s)) / (y ⬝ᵥ s)

/-- The bound at which the weight of the last direction is truncated. -/
noncomputable def etaOf (M : Matrix (Fin n) (Fin n) K) (eta : K) (s g' : Fin n → K) : K :=
  eta * (s ⬝ᵥ g') / (s ⬝ᵥ M⁻¹ *ᵥ s)

theorem updateDirection_beta (hP : P.Acts M) (hs : s ≠ 0) (hy : (g - g') ⬝ᵥ s ≠ 0) :
    (updateDirection P (.num eta) (Vec.num s) (Vec.num g) (Vec.num g')).beta =
      .num (max (betaOf M s g (g - g')) (etaOf M eta s g')) := by
  have hinv : s ⬝ᵥ M⁻¹ *ᵥ s ≠ 0 := (hP.spd.inv.pos s hs).ne'
  simp only [updateDirection, Vec.sub_num, Vec.dot_num, hP.forward, hP.forwardDot, hP.inverseDot,
    Exact.num_mul, Exact.num_sub, Exact.num_div hinv, Exact.num_div hy, Exact.maximum_num]
  rfl

omit [IsStrictOrderedRing K] in
theorem updateDirection_of_forward {u : Fin n → K} (hforward : P.forward (Vec.num g) = Vec.num u)
    (eta : Exact G) (s g' : Fin n → K) :
    (updateDirection P eta (Vec.num s) (Vec.num g) (Vec.num g')).direction =
      Vector.ofFn fun i ↦ .num (s i) *
        (updateDirection P eta (Vec.num s) (Vec.num g) (Vec.num g')).beta - .num (u i) := by
  rw [← Vec.zipWith_num fun si pi ↦ si *
    (updateDirection P eta (Vec.num s) (Vec.num g) (Vec.num g')).beta - pi, ← hforward]
  rfl

theorem updateDirection_num (hP : P.Acts M) (hs : s ≠ 0) (hy : (g - g') ⬝ᵥ s ≠ 0) :
    (updateDirection P (.num eta) (Vec.num s) (Vec.num g) (Vec.num g')).direction =
      Vec.num (max (betaOf M s g (g - g')) (etaOf M eta s g') • s - M *ᵥ g) := by
  rw [updateDirection_of_forward (hP.forward g), updateDirection_beta hP hs hy]
  simp only [Exact.num_mul, Exact.num_sub, mul_comm (s _)]
  rfl

/-- The weight of the last direction is a number for every positive `eta` that is one, and for an
infinite one, which does not truncate. It is no number if `eta` is none. -/
theorem beta_num_or_nan (hP : P.Acts M) {eta : Exact G} (heta : ¬eta ≤ 0.0) (hs : s ⬝ᵥ g' < 0)
    (hy : (g - g') ⬝ᵥ s ≠ 0) :
    (∃ b, (updateDirection P eta (Vec.num s) (Vec.num g) (Vec.num g')).beta = .num b) ∨
      (updateDirection P eta (Vec.num s) (Vec.num g) (Vec.num g')).beta = .nan := by
  have hinv : 0 < s ⬝ᵥ M⁻¹ *ᵥ s := hP.spd.inv.pos s (Vec.ne_zero_of_dotProduct_neg hs)
  simp only [updateDirection, Vec.sub_num, Vec.dot_num, hP.forward, hP.forwardDot, hP.inverseDot,
    Exact.num_mul, Exact.num_sub, Exact.num_div hy]
  cases eta with
  | num e =>
    rw [Exact.num_mul, Exact.num_div hinv.ne', Exact.maximum_num]
    exact Or.inl ⟨_, rfl⟩
  | top =>
    have hbound : (.top * .num (s ⬝ᵥ g') / .num (s ⬝ᵥ M⁻¹ *ᵥ s) : Exact G) = .bot := by
      change (Exact.infinityOf (s ⬝ᵥ g') / .num (s ⬝ᵥ M⁻¹ *ᵥ s) : Exact G) = .bot
      rw [Exact.infinityOf_of_neg hs]
      exact if_neg hinv.not_gt
    rw [hbound]
    exact Or.inl ⟨_, rfl⟩
  | bot => exact absurd (by rw [Exact.zero_eq]; trivial) heta
  | nan => exact Or.inr rfl

omit [IsStrictOrderedRing K] in
theorem updateDirection_eq_ofFn (hP : P.Acts M) (eta : Exact G) (s g g' : Fin n → K) :
    (updateDirection P eta (Vec.num s) (Vec.num g) (Vec.num g')).direction =
      Vector.ofFn fun i ↦ .num (s i) *
        (updateDirection P eta (Vec.num s) (Vec.num g) (Vec.num g')).beta - .num ((M *ᵥ g) i) :=
  updateDirection_of_forward (hP.forward g) eta s g'

/-- The restart test leaves a direction of numbers, if the weight of the last direction was a number
or none at all. -/
theorem exists_direction_of_beta {u : Fin n → K} (hforward : P.forward (Vec.num g) = Vec.num u)
    {eta : Exact G}
    (hbeta : (∃ b, (updateDirection P eta (Vec.num s) (Vec.num g) (Vec.num g')).beta = .num b) ∨
      (updateDirection P eta (Vec.num s) (Vec.num g) (Vec.num g')).beta = .nan) :
    ∃ s' : Fin n → K, (descentRestart (Vec.num g) (updateDirection P eta (Vec.num s) (Vec.num g)
      (Vec.num g')).direction).direction = Vec.num s' := by
  rw [updateDirection_of_forward hforward]
  rcases hbeta with ⟨b, hb⟩ | hnan
  · simp only [hb, Exact.num_mul, Exact.num_sub]
    exact exists_restart_num g _
  · -- no component is a number, and such a direction is replaced
    rw [hnan, descentRestart_of_not_lt, Vec.neg_num]
    · exact ⟨-g, rfl⟩
    · refine Vec.not_dot_neg_of_terms fun i hi ↦ Or.inr ?_
      rw [Vector.getElem_ofFn, Vec.getElem_num]
      rfl

theorem exists_direction_of_update (hP : P.Acts M) {eta : Exact G} (heta : ¬eta ≤ 0.0)
    (hs : s ⬝ᵥ g' < 0) (hy : (g - g') ⬝ᵥ s ≠ 0) :
    ∃ s' : Fin n → K, (descentRestart (Vec.num g) (updateDirection P eta (Vec.num s) (Vec.num g)
      (Vec.num g')).direction).direction = Vec.num s' :=
  exists_direction_of_beta (hP.forward g) (beta_num_or_nan hP heta hs hy)

/-! ## The rate of descent -/

/-- With the untruncated weight the rate is attained, by completing a square. -/
theorem descent_betaOf (hM : SPD M) {y : Fin n → K} (hy : y ⬝ᵥ s ≠ 0) :
    betaOf M s g y * (g ⬝ᵥ s) - g ⬝ᵥ M *ᵥ g ≤ -(3 / 4) * (g ⬝ᵥ M *ᵥ g) := by
  -- the vector whose square is completed
  set v := (g ⬝ᵥ s / y ⬝ᵥ s) • y - (1 / 2 : K) • g with hv
  have hsquare : v ⬝ᵥ M *ᵥ v = (g ⬝ᵥ s / y ⬝ᵥ s) ^ 2 * (y ⬝ᵥ M *ᵥ y) -
      (g ⬝ᵥ s / y ⬝ᵥ s) * (y ⬝ᵥ M *ᵥ g) + 1 / 4 * (g ⬝ᵥ M *ᵥ g) := by
    rw [hv, mulVec_sub, mulVec_smul, mulVec_smul]
    simp only [sub_dotProduct, dotProduct_sub, smul_dotProduct, dotProduct_smul, smul_eq_mul,
      hM.dot_comm g y]
    ring
  have hbeta : betaOf M s g y * (g ⬝ᵥ s) =
      (g ⬝ᵥ s / y ⬝ᵥ s) * (y ⬝ᵥ M *ᵥ g) - (g ⬝ᵥ s / y ⬝ᵥ s) ^ 2 * (y ⬝ᵥ M *ᵥ y) := by
    rw [betaOf]
    field_simp
  calc betaOf M s g y * (g ⬝ᵥ s) - g ⬝ᵥ M *ᵥ g
    _ = -(3 / 4) * (g ⬝ᵥ M *ᵥ g) - v ⬝ᵥ M *ᵥ v := by
      rw [hbeta, hsquare]
      ring
    _ ≤ -(3 / 4) * (g ⬝ᵥ M *ᵥ g) := sub_le_self _ (hM.nonneg v)

theorem etaOf_neg (hM : SPD M) (heta : 0 < eta) (hs : s ⬝ᵥ g' < 0) : etaOf M eta s g' < 0 := by
  have hnorm := hM.inv.pos s (Vec.ne_zero_of_dotProduct_neg hs)
  exact div_neg_of_neg_of_pos (mul_neg_of_pos_of_neg heta hs) hnorm

/-- The truncation does no harm: with the truncated weight the rate is attained as well. -/
theorem descent_max (hM : SPD M) (heta : 0 < eta) (hs : s ⬝ᵥ g' < 0) {y : Fin n → K}
    (hy : y ⬝ᵥ s ≠ 0) :
    max (betaOf M s g y) (etaOf M eta s g') * (g ⬝ᵥ s) - g ⬝ᵥ M *ᵥ g ≤
      -(3 / 4) * (g ⬝ᵥ M *ᵥ g) := by
  have hbeta := descent_betaOf (g := g) hM hy
  have hneg := etaOf_neg hM heta hs
  rcases le_total (etaOf M eta s g') (betaOf M s g y) with hle | hle
  · rwa [max_eq_left hle]
  · rw [max_eq_right hle]
    rcases le_total 0 (g ⬝ᵥ s) with hup | hdown
    · -- uphill a negative weight can only lower the slope
      calc etaOf M eta s g' * (g ⬝ᵥ s) - g ⬝ᵥ M *ᵥ g
        _ ≤ 0 - g ⬝ᵥ M *ᵥ g :=
          sub_le_sub_right (mul_nonpos_of_nonpos_of_nonneg hneg.le hup) _
        _ ≤ -(3 / 4) * (g ⬝ᵥ M *ᵥ g) := by linarith [hM.nonneg g]
    · -- downhill the truncated weight is better than the untruncated one
      calc etaOf M eta s g' * (g ⬝ᵥ s) - g ⬝ᵥ M *ᵥ g
        _ ≤ betaOf M s g y * (g ⬝ᵥ s) - g ⬝ᵥ M *ᵥ g :=
          sub_le_sub_right (mul_le_mul_of_nonpos_right hle hdown) _
        _ ≤ -(3 / 4) * (g ⬝ᵥ M *ᵥ g) := hbeta

/-! ## After an accepted step -/

/-- The curvature condition is part of both acceptance tests. -/
theorem WolfeTest.flattened_of_accepts {α : Type} [Scalar α] {w : WolfeTest α} {t : Sample α}
    (h : w.accepts t = .ok true) : w.flattened t = true := by
  rw [accepts] at h
  rcases hrise : Scalar.divide (t.value - w.value) t.step with e | rise
  · rw [hrise] at h
    cases h
  · rw [hrise] at h
    have hor := Except.ok.inj h
    rw [approximate, Bool.or_eq_true, Bool.and_eq_true, Bool.and_eq_true, Bool.and_eq_true] at hor
    rcases hor with hwolfe | happroximate
    · exact hwolfe.2
    · exact happroximate.1.2

/-- **Sufficient descent.** From a direction that led downhill at the last point, the update leads
downhill at the new point, at a rate of three quarters of the squared norm of the gradient, so that
the restart test leaves it alone. The update needs the slope along the last direction to have
changed, and an accepted step changes it by a positive amount. -/
theorem updateDirection_descends (hP : P.Acts M) (heta : 0 < eta) (hs : s ⬝ᵥ g' < 0) :
    ((g - g') ⬝ᵥ s ≠ 0 →
      ∃ s' : Fin n → K,
        (updateDirection P (.num eta) (Vec.num s) (Vec.num g) (Vec.num g')).direction =
          Vec.num s' ∧
        g ⬝ᵥ s' ≤ -(3 / 4) * (g ⬝ᵥ M *ᵥ g) ∧
        (g ≠ 0 → descentRestart (Vec.num (G := G) g) (Vec.num s') =
          ⟨Vec.num s', .num (g ⬝ᵥ s'), none, true⟩)) ∧
    ∀ (w : WolfeTest (Exact G)) (t : Sample (Exact G)) (sigma : K), w.sigma = .num sigma →
      sigma < 1 → w.slope = .num (g' ⬝ᵥ s) → t.slope = .num (g ⬝ᵥ s) → w.accepts t = .ok true →
      (1 - sigma) * -(g' ⬝ᵥ s) ≤ (g - g') ⬝ᵥ s ∧ 0 < (1 - sigma) * -(g' ⬝ᵥ s) := by
  refine ⟨fun hy ↦ ?_, fun w t sigma hsigma hlt hslope ht haccepts ↦ ?_⟩
  · have hne := Vec.ne_zero_of_dotProduct_neg hs
    have hrate := descent_max (g := g) hP.spd heta hs hy
    refine ⟨_, updateDirection_num hP hne hy, ?_, fun hg ↦ descentRestart_num_of_neg ?_⟩
    · rwa [dotProduct_sub, dotProduct_smul, smul_eq_mul]
    · rw [dotProduct_sub, dotProduct_smul, smul_eq_mul]
      linarith [hP.spd.pos g hg]
  · have hcurvature := WolfeTest.flattened_of_accepts haccepts
    rw [WolfeTest.flattened, hsigma, hslope, ht, Exact.num_mul, decide_eq_true_eq,
      Exact.num_le] at hcurvature
    rw [dotProduct_comm] at hs
    rw [sub_dotProduct]
    constructor
    · linarith
    · exact mul_pos (by linarith) (by linarith)

/-- An accepted step along `-(1, 0)` that went beyond the minimizer on the ray. -/
theorem updateDirection_descends_after_overshoot :
    let s : Fin 2 → ℚ := ![-1, 0]
    let g : Fin 2 → ℚ := ![-1 / 4, 2]
    let g' : Fin 2 → ℚ := ![1, 0]
    (∃ s' : Fin 2 → ℚ,
      (updateDirection (α := Exact Grid.rational) .identity (.num (2 / 5)) (Vec.num s) (Vec.num g)
        (Vec.num g')).direction = Vec.num s' ∧
      g ⬝ᵥ s' ≤ -(3 / 4) * (g ⬝ᵥ (1 : Matrix (Fin 2) (Fin 2) ℚ) *ᵥ g) ∧
      descentRestart (α := Exact Grid.rational) (Vec.num g) (Vec.num s') =
        ⟨Vec.num s', .num (g ⬝ᵥ s'), none, true⟩) ∧
    (1 - 9 / 10) * -(g' ⬝ᵥ s) ≤ (g - g') ⬝ᵥ s := by
  intro s g g'
  have hs : s ⬝ᵥ g' < 0 := by norm_num [s, g']
  have hchange : (g - g') ⬝ᵥ s = 5 / 4 := by norm_num [s, g, g']
  have hg : g ≠ 0 := fun h ↦ by simpa [g] using congrFun h 1
  obtain ⟨hupdate, haccepted⟩ := updateDirection_descends (g := g)
    (Operator.identity_acts (G := Grid.rational)) (by norm_num : (0 : ℚ) < 2 / 5) hs
  constructor
  · obtain ⟨s', hdirection, hrate, hrestart⟩ := hupdate (by norm_num [hchange])
    exact ⟨s', hdirection, hrate, hrestart hg⟩
  · refine (haccepted ⟨.num 0, .num (-1), .num 0, .num (1 / 10), .num (9 / 10)⟩
      ⟨.num 1, .num (-1 / 2), .num (1 / 4)⟩ (9 / 10) rfl (by norm_num) ?_ ?_ ?_).1
    · norm_num [s, g']
    · norm_num [s, g]
    · rw [WolfeTest.accepts, Exact.num_sub, Exact.divide_num one_ne_zero]
      refine congrArg Except.ok ?_
      simp only [WolfeTest.flattened, Exact.num_mul, Exact.num_le]
      norm_num

end NonlinearCG
