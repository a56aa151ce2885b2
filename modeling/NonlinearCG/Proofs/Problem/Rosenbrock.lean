import Mathlib
import NonlinearCG.Problem.Rosenbrock
import NonlinearCG.Proofs.Exact.Expansion
import NonlinearCG.Proofs.Exact.Vector

/-!
# The extended Rosenbrock function of numbers

On numbers the value is a sum over the pairs of neighbours. The gradient is computed in one pass
that hands the second derivative of each pair on to the next one. It is the sum of two shifted
vectors, because every variable but the last is the first of a pair and every variable but the first
is the second of one (`gradientFrom_num`); against a direction, the two shifts are sums over the
pairs again.
-/

namespace NonlinearCG.Rosenbrock

open Matrix

variable {K : Type} [Field K] {n : ℕ}

/-! ## Heights and slopes -/

def deviation (x : Fin (n + 1) → K) (i : Fin n) : K := x i.succ - x i.castSucc * x i.castSucc

def height (x : Fin (n + 1) → K) : K :=
  ∑ i : Fin n, (100 * deviation x i ^ 2 + (1 - x i.castSucc) ^ 2)

/-- The slope of a pair's term in its first variable. -/
def leftSlope (x : Fin (n + 1) → K) (i : Fin n) : K :=
  -400 * x i.castSucc * deviation x i - 2 * (1 - x i.castSucc)

/-- The slope of a pair's term in its second variable. -/
def rightSlope (x : Fin (n + 1) → K) (i : Fin n) : K := 200 * deviation x i

/-- The slopes from one variable on, where `c` comes from the pair before it. -/
def slopesFrom (c : K) (x : Fin (n + 1) → K) : Fin (n + 1) → K :=
  Fin.snoc (leftSlope x) 0 + vecCons c (rightSlope x)

theorem slopesFrom_dotProduct (c : K) (x h : Fin (n + 1) → K) :
    slopesFrom c x ⬝ᵥ h =
      c * h 0 + ∑ i, (leftSlope x i * h i.castSucc + rightSlope x i * h i.succ) := by
  have hleft : (Fin.snoc (leftSlope x) 0 : Fin (n + 1) → K) ⬝ᵥ h =
      ∑ i, leftSlope x i * h i.castSucc := by
    rw [dotProduct, Fin.sum_univ_castSucc]
    simp only [Fin.snoc_castSucc, Fin.snoc_last, zero_mul, add_zero]
  have hright : vecCons c (rightSlope x) ⬝ᵥ h = c * h 0 + ∑ i, rightSlope x i * h i.succ := by
    rw [dotProduct, Fin.sum_univ_succ]
    simp only [cons_val_zero, cons_val_succ]
  calc slopesFrom c x ⬝ᵥ h
      = (Fin.snoc (leftSlope x) 0 : Fin (n + 1) → K) ⬝ᵥ h + vecCons c (rightSlope x) ⬝ᵥ h :=
        add_dotProduct _ _ _
    _ = ∑ i, leftSlope x i * h i.castSucc + (c * h 0 + ∑ i, rightSlope x i * h i.succ) := by
        rw [hleft, hright]
    _ = c * h 0 + ∑ i, (leftSlope x i * h i.castSucc + rightSlope x i * h i.succ) := by
        rw [Finset.sum_add_distrib, add_left_comm]

theorem slopesFrom_succ (c : K) (x : Fin (n + 2) → K) (i : Fin (n + 1)) :
    slopesFrom c x i.succ = slopesFrom (rightSlope x 0) (fun j ↦ x j.succ) i := by
  have hleft : (Fin.snoc (leftSlope x) 0 : Fin (n + 2) → K) i.succ =
      (Fin.snoc (leftSlope fun j ↦ x j.succ) 0 : Fin (n + 1) → K) i := by
    cases i using Fin.lastCases with
    | last => rw [Fin.succ_last, Fin.snoc_last, Fin.snoc_last]
    | cast i =>
      rw [Fin.succ_castSucc, Fin.snoc_castSucc, Fin.snoc_castSucc]
      rfl
  rw [slopesFrom, slopesFrom, Pi.add_apply, Pi.add_apply, hleft]
  cases i using Fin.cases <;> rfl

theorem height_expands (x h : Fin (n + 1) → K) :
    Expands (fun t ↦ height (x + t • h)) (height x) (slopesFrom 0 x ⬝ᵥ h) := by
  have hterm : ∀ i, Expands
      (fun t ↦ 100 * deviation (x + t • h) i ^ 2 + (1 - (x + t • h) i.castSucc) ^ 2)
      (100 * deviation x i ^ 2 + (1 - x i.castSucc) ^ 2)
      (leftSlope x i * h i.castSucc + rightSlope x i * h i.succ) := by
    intro i
    have hfirst := Expands.line (x i.castSucc) (h i.castSucc)
    have hdeviation := (Expands.line (x i.succ) (h i.succ)).sub (hfirst.mul hfirst)
    have hlevel := (Expands.const 1).sub hfirst
    refine (((hdeviation.mul hdeviation).const_mul 100).add (hlevel.mul hlevel)).of_eq
      (fun t ↦ ?_) ?_ ?_
    · simp only [deviation, Pi.add_apply, Pi.smul_apply, smul_eq_mul, sq]
    · rw [deviation, sq, sq]
    · rw [leftSlope, rightSlope, deviation]
      ring
  rw [slopesFrom_dotProduct, zero_mul, zero_add]
  exact Expands.sum fun i _ ↦ hterm i

/-! ## The functions of this library on numbers -/

section Numbers

variable [LinearOrder K] [IsStrictOrderedRing K] {G : Grid K}

theorem term_num (x y : K) :
    term (.num x) (.num y) = (.num (100 * (y - x * x) ^ 2 + (1 - x) ^ 2) : Exact G) := by
  simp only [term, offset, Exact.ofScientific_eq, Exact.num_mul, Exact.num_sub, Exact.num_add]
  norm_num [sq]

theorem slopeLeft_num (x y : K) :
    slopeLeft (.num x) (.num y) =
      (.num (-400 * x * (y - x * x) - 2 * (1 - x)) : Exact G) := by
  simp only [slopeLeft, offset, Exact.ofScientific_eq, Exact.num_mul, Exact.num_sub, Exact.num_neg]
  norm_num

theorem slopeRight_num (x y : K) :
    slopeRight (.num x) (.num y) = (.num (200 * (y - x * x)) : Exact G) := by
  simp only [slopeRight, offset, Exact.ofScientific_eq, Exact.num_mul, Exact.num_sub]
  norm_num

theorem foldl_term (x : Fin (n + 1) → K) (z : K) :
    (List.zipWith term (List.ofFn fun i ↦ .num (x i))
      (List.ofFn fun i ↦ .num (x i)).tail).foldl (· + ·) (.num z) =
      (.num (z + height x) : Exact G) := by
  induction n generalizing z with
  | zero => simp [height]
  | succ n ih =>
    have hrest := ih (fun i ↦ x i.succ) (z + (100 * deviation x 0 ^ 2 + (1 - x 0) ^ 2))
    rw [List.ofFn_succ, List.tail_cons, List.ofFn_succ, List.zipWith_cons_cons, List.foldl_cons,
      term_num, Exact.num_add]
    rw [List.ofFn_succ, List.tail_cons] at hrest
    refine hrest.trans ?_
    rw [height, height, Fin.sum_univ_succ, add_assoc]
    rfl

theorem value_num (x : Fin (n + 1) → K) :
    value (Vec.num x).toList = (.num (height x) : Exact G) := by
  rw [value, Vec.num, Vector.toList_ofFn, Exact.zero_eq, foldl_term, zero_add]

theorem gradientFrom_num (c : K) (x : Fin (n + 1) → K) :
    gradientFrom (.num c) (List.ofFn fun i ↦ .num (x i)) =
      List.ofFn fun i ↦ (.num (slopesFrom c x i) : Exact G) := by
  induction n generalizing c with
  | zero => simp [gradientFrom, slopesFrom, Fin.snoc]
  | succ n ih =>
    have hrest := ih (rightSlope x 0) fun i ↦ x i.succ
    have hhead : slopesFrom c x 0 = leftSlope x 0 + c := rfl
    rw [List.ofFn_succ] at hrest
    rw [List.ofFn_succ, List.ofFn_succ, gradientFrom, slopeLeft_num, slopeRight_num,
      List.ofFn_succ, hhead]
    simp only [slopesFrom_succ, Exact.zero_eq, Exact.num_add, zero_add]
    exact congrArg _ hrest

theorem gradient_num (x : Fin (n + 1) → K) :
    gradient (Vec.num x).toList = (Vec.num (G := G) (slopesFrom 0 x)).toList := by
  rw [gradient, Vec.num, Vec.num, Vector.toList_ofFn, Vector.toList_ofFn, Exact.zero_eq,
    gradientFrom_num]

end Numbers

/-! ## The minimizer -/

section Minimizer

variable [LinearOrder K] [IsStrictOrderedRing K]

theorem term_nonneg (x : Fin (n + 1) → K) (i : Fin n) :
    0 ≤ 100 * deviation x i ^ 2 + (1 - x i.castSucc) ^ 2 := by
  positivity

theorem height_nonneg (x : Fin (n + 1) → K) : 0 ≤ height x :=
  Finset.sum_nonneg fun i _ ↦ term_nonneg x i

/-- In two or more variables only the point with all entries one lies at the bottom. -/
theorem height_eq_zero_iff (x : Fin (n + 2) → K) : height x = 0 ↔ x = 1 := by
  constructor
  · intro h
    have hterm : ∀ i, 100 * deviation x i ^ 2 + (1 - x i.castSucc) ^ 2 = 0 := by
      intro i
      exact (Finset.sum_eq_zero_iff_of_nonneg fun i _ ↦ term_nonneg x i).mp h i
        (Finset.mem_univ i)
    have hfirst : ∀ i : Fin (n + 1), x i.castSucc = 1 := by
      intro i
      have hsq : (1 - x i.castSucc) ^ 2 = 0 := by
        nlinarith only [hterm i, sq_nonneg (deviation x i), sq_nonneg (1 - x i.castSucc)]
      exact (sub_eq_zero.mp (pow_eq_zero_iff two_ne_zero |>.mp hsq)).symm
    funext i
    cases i using Fin.lastCases with
    | cast i => exact hfirst i
    | last =>
      -- the last variable is only ever the second of a pair
      have hlast := hterm (Fin.last n)
      rw [deviation, hfirst, Fin.succ_last] at hlast
      have hsq : (x (Fin.last (n + 1)) - 1) ^ 2 = 0 := by linarith only [hlast]
      exact sub_eq_zero.mp (pow_eq_zero_iff two_ne_zero |>.mp hsq)
  · rintro rfl
    simp [height, deviation]

end Minimizer

end NonlinearCG.Rosenbrock
