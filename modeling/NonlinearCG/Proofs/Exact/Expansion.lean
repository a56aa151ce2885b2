import Mathlib

/-!
# Expansions to first order

A function of a number that is a polynomial has a constant term and a linear coefficient. `Expands`
names the two, and its rules compute them through sums and products as derivatives are computed.
-/

namespace NonlinearCG

open Polynomial Matrix

variable {K : Type} [Field K]

/-- The function is a polynomial with constant term `a` and linear coefficient `d`. -/
def Expands (F : K → K) (a d : K) : Prop :=
  ∃ q : K[X], (∀ t, F t = q.eval t) ∧ q.coeff 0 = a ∧ q.coeff 1 = d

namespace Expands

variable {F F' : K → K} {a a' d d' : K}

theorem of_eq (hF : Expands F a d) (h : ∀ t, F' t = F t) (ha : a' = a) (hd : d' = d) :
    Expands F' a' d' := by
  obtain ⟨q, hq, rfl, rfl⟩ := hF
  exact ⟨q, fun t ↦ (h t).trans (hq t), ha.symm, hd.symm⟩

theorem const (a : K) : Expands (fun _ ↦ a) a 0 :=
  ⟨C a, fun _ ↦ eval_C.symm, coeff_C_zero, coeff_C_succ⟩

theorem line (x h : K) : Expands (fun t ↦ x + t * h) x h := by
  refine ⟨C x + X * C h, fun t ↦ ?_, ?_, ?_⟩
  · rw [eval_add, eval_mul, eval_C, eval_X, eval_C]
  · simp
  · rw [coeff_add, coeff_C_succ, zero_add, coeff_X_mul, coeff_C_zero]

theorem add (hF : Expands F a d) (hF' : Expands F' a' d') :
    Expands (fun t ↦ F t + F' t) (a + a') (d + d') := by
  obtain ⟨q, hq, rfl, rfl⟩ := hF
  obtain ⟨q', hq', rfl, rfl⟩ := hF'
  exact ⟨q + q', fun t ↦ by simp only [hq, hq', eval_add], coeff_add .., coeff_add ..⟩

theorem sub (hF : Expands F a d) (hF' : Expands F' a' d') :
    Expands (fun t ↦ F t - F' t) (a - a') (d - d') := by
  obtain ⟨q, hq, rfl, rfl⟩ := hF
  obtain ⟨q', hq', rfl, rfl⟩ := hF'
  exact ⟨q - q', fun t ↦ by simp only [hq, hq', eval_sub], coeff_sub .., coeff_sub ..⟩

theorem mul (hF : Expands F a d) (hF' : Expands F' a' d') :
    Expands (fun t ↦ F t * F' t) (a * a') (a * d' + d * a') := by
  obtain ⟨q, hq, rfl, rfl⟩ := hF
  obtain ⟨q', hq', rfl, rfl⟩ := hF'
  exact ⟨q * q', fun t ↦ by simp only [hq, hq', eval_mul], mul_coeff_zero .., mul_coeff_one ..⟩

theorem const_mul (c : K) (hF : Expands F a d) : Expands (fun t ↦ c * F t) (c * a) (c * d) := by
  have h := (const c).mul hF
  rwa [zero_mul, add_zero] at h

theorem sum {ι : Type} {s : Finset ι} {F : ι → K → K} {a d : ι → K}
    (h : ∀ i ∈ s, Expands (F i) (a i) (d i)) :
    Expands (fun t ↦ ∑ i ∈ s, F i t) (∑ i ∈ s, a i) (∑ i ∈ s, d i) := by
  classical
  induction s using Finset.induction_on with
  | empty => exact const 0
  | insert i s hi ih =>
    simp only [Finset.sum_insert hi]
    exact (h i (Finset.mem_insert_self i s)).add (ih fun j hj ↦ h j (Finset.mem_insert_of_mem hj))

theorem dotProduct {n : ℕ} (u u' v v' : Fin n → K) :
    Expands (fun t ↦ (u + t • u') ⬝ᵥ (v + t • v')) (u ⬝ᵥ v) (u ⬝ᵥ v' + u' ⬝ᵥ v) := by
  have h := sum (s := Finset.univ) fun i _ ↦ (line (u i) (u' i)).mul (line (v i) (v' i))
  rwa [Finset.sum_add_distrib] at h

end Expands

end NonlinearCG
