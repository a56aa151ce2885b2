import Mathlib
import NonlinearCG.LineSearch.HagerZhang
import NonlinearCG.Proofs.Exact.Number

/-!
# Parameters that pass their checks

What the checks of the Hager–Zhang parameters say once they are passed. In exact arithmetic the
parameters are numbers, apart from the largest admissible step, which may be infinite. The checks
bound all other parameters but two from both sides; `Proper` says of these two that they are finite.
`Unbounded` is for results in which neither of the two, nor a largest step, plays a part.
-/

namespace NonlinearCG.HagerZhang

theorem defect?_eq_none_iff {α : Type} [Scalar α] {p : HagerZhang α} :
    p.defect? = none ↔ (0.0 < p.delta ∧ p.delta < 0.5) ∧ (p.delta ≤ p.sigma ∧ p.sigma < 1.0) ∧
      ¬p.alphamax ≤ 0.0 ∧ ¬p.rho ≤ 1.0 ∧ ¬p.epsilon < 0.0 ∧ (0.0 < p.gamma ∧ p.gamma < 1.0) ∧
      ¬p.linesearchmax ≤ 0 ∧ (0.0 < p.psi3 ∧ p.psi3 < 1.0) := by
  unfold defect?
  split_ifs <;> simp_all

variable {K : Type} [Field K] [LinearOrder K] {G : Grid K}

/-- Parameters in exact arithmetic that pass their checks. -/
structure Proper (p : HagerZhang (Exact G)) : Prop where
  accepted : p.defect? = none
  rho_finite : Scalar.isFinite p.rho = true
  epsilon_finite : Scalar.isFinite p.epsilon = true

namespace Proper

variable [IsStrictOrderedRing K] {p : HagerZhang (Exact G)} (hp : p.Proper)

include hp

theorem rho : ∃ r, 1 < r ∧ p.rho = .num r := by
  obtain ⟨r, hr⟩ := Exact.isFinite_iff.mp hp.rho_finite
  obtain ⟨-, -, -, hlt, -⟩ := defect?_eq_none_iff.mp hp.accepted
  rw [hr, Exact.one_eq, Exact.num_le, not_le] at hlt
  exact ⟨r, hlt, hr⟩

theorem epsilon : ∃ e, 0 ≤ e ∧ p.epsilon = .num e := by
  obtain ⟨e, he⟩ := Exact.isFinite_iff.mp hp.epsilon_finite
  obtain ⟨-, -, -, -, hle, -⟩ := defect?_eq_none_iff.mp hp.accepted
  rw [he, Exact.zero_eq, Exact.num_lt, not_lt] at hle
  exact ⟨e, hle, he⟩

theorem delta : ∃ x, 0 < x ∧ p.delta = .num x := by
  obtain ⟨⟨hpos, hlt⟩, -⟩ := defect?_eq_none_iff.mp hp.accepted
  rw [Exact.half_eq] at hlt
  obtain ⟨x, hx, -, hdelta⟩ := Exact.exists_num_of_pos_of_lt hpos hlt
  exact ⟨x, hx, hdelta⟩

theorem gamma : ∃ x, 0 < x ∧ x < 1 ∧ p.gamma = .num x := by
  obtain ⟨-, -, -, -, -, ⟨hpos, hlt⟩, -⟩ := defect?_eq_none_iff.mp hp.accepted
  rw [Exact.one_eq] at hlt
  exact Exact.exists_num_of_pos_of_lt hpos hlt

theorem psi3 : ∃ x, 0 < x ∧ x < 1 ∧ p.psi3 = .num x := by
  obtain ⟨-, -, -, -, -, -, -, hpos, hlt⟩ := defect?_eq_none_iff.mp hp.accepted
  rw [Exact.one_eq] at hlt
  exact Exact.exists_num_of_pos_of_lt hpos hlt

end Proper

/-- Parameters that pass their checks, without a largest step and with rounds to find a bracket and
to narrow it. -/
structure Unbounded (p : HagerZhang (Exact G)) : Prop where
  accepted : p.defect? = none
  alphamax : p.alphamax = Scalar.infinity
  rounds : 3 ≤ p.linesearchmax

theorem Unbounded.exists_delta_sigma [IsStrictOrderedRing K] {p : HagerZhang (Exact G)}
    (hp : p.Unbounded) : ∃ delta sigma, p.delta = .num delta ∧ p.sigma = .num sigma ∧
      delta < 1 / 2 ∧ 0 < sigma := by
  obtain ⟨⟨hpos, hhalf⟩, ⟨hle, hlt⟩, -⟩ := defect?_eq_none_iff.mp hp.accepted
  rw [Exact.half_eq] at hhalf
  obtain ⟨delta, hpos, hhalf, hdelta⟩ := Exact.exists_num_of_pos_of_lt hpos hhalf
  rw [hdelta] at hle
  cases hsigma : p.sigma with
  | num sigma =>
    rw [hsigma, Exact.num_le] at hle
    exact ⟨delta, sigma, hdelta, rfl, hhalf, hpos.trans_le hle⟩
  | top =>
    rw [hsigma] at hlt
    exact hlt.elim
  | bot | nan =>
    rw [hsigma] at hle
    exact hle.elim

theorem default_proper [IsStrictOrderedRing K] : (default : HagerZhang (Exact G)).Proper := by
  refine ⟨defect?_eq_none_iff.mpr ?_, rfl, rfl⟩
  simp only [default, Exact.ofScientific_eq, Exact.num_lt, Exact.num_le]
  norm_num

theorem default_unbounded [IsStrictOrderedRing K] : (default : HagerZhang (Exact G)).Unbounded :=
  ⟨default_proper.accepted, rfl, (by norm_num : (3 : ℤ) ≤ 50)⟩

end NonlinearCG.HagerZhang
