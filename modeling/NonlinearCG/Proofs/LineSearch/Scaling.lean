import Mathlib
import NonlinearCG.LineSearch.Backtracking
import NonlinearCG.LineSearch.TrialStep
import NonlinearCG.Proofs.Coupling
import NonlinearCG.Proofs.Exact.Scaling
import NonlinearCG.Proofs.LineSearch.Ray

/-!
# Line searches in another unit of values

The first step of a run, the prediction of a trial step and the backtracking search, under a change
of the unit. Steps have degree `-1`, so that the values along a scaled direction are taken at the
same points. Each formula is homogeneous: the curvature of a fitted parabola has degree `3` and its
minimizer degree `2 - 3`; the interpolated step is a quotient of degrees `0` and `1`. All tests
compare quantities of one degree.

The two searches are coupled over the relation that the cache of the second one is that of the first
one in the new unit, with the same number of evaluations.
-/

namespace NonlinearCG

variable {ω ω' K A B : Type} [Field K] [LinearOrder K] {G : Grid K} {n : ℕ} {t : Scale K}

/-! ## The formulas -/

def Sample.scaled (t : Scale K) (s : Sample (Exact G)) : Sample (Exact G) where
  step := s.step.scaled t (-1)
  value := s.value.scaled t 1
  slope := s.slope.scaled t 2

namespace TrialStep

variable [IsStrictOrderedRing K]

/-- The first step of a run has degree `-1`, unless nothing but zeros is known about the start. -/
theorem initial_scaled (t : Scale K) {m : ℕ} {x : Vec (Exact G) m} {g : Vec (Exact G) n}
    {value : Exact G} (psi0 : Exact G) (hg : (Vec.infNorm g == 0.0) = false)
    (hx : (Vec.infNorm x == 0.0) = false ∨ (value == 0.0) = false) :
    initial Scalar.nan x (g.scaled t 1) (value.scaled t 1) psi0 =
      (initial Scalar.nan x g value psi0).map (Exact.scaled t (-1)) := by
  have hsize : Scalar.divide (psi0 * Vec.infNorm x) ((Vec.infNorm g).scaled t 1) =
      (Scalar.divide (psi0 * Vec.infNorm x) (Vec.infNorm g)).map (Exact.scaled t (-1)) := by
    have h := Exact.divide_scaled t 0 1 (psi0 * Vec.infNorm x) (Vec.infNorm g)
    rwa [Exact.scaled_degree_zero, zero_sub] at h
  have hvalue : Scalar.divide (psi0 * Scalar.abs (value.scaled t 1))
      (Vec.dot (g.scaled t 1) (g.scaled t 1)) =
      (Scalar.divide (psi0 * Scalar.abs value) (Vec.dot g g)).map (Exact.scaled t (-1)) := by
    rw [Exact.abs_scaled, Exact.mul_scaled, Vec.dot_scaled, Exact.divide_scaled]
    rfl
  simp only [initial, Vec.infNorm_scaled, Exact.scaled_beq_zero, hg, hsize, hvalue, bne]
  rcases hx with hx | hvalue
  · simp only [hx]
    rfl
  · simp only [hvalue]
    rcases Vec.infNorm x == 0.0 with _ | _ <;> rfl

variable (t : Scale K) (start : Sample (Exact G)) (alpha u v : Exact G)

theorem curvature_scaled :
    curvature (start.scaled t) (u.scaled t (-1)) (v.scaled t 1) =
      (curvature start u v).map (Exact.scaled t 3) := by
  have hchord : Scalar.divide (v.scaled t 1 - start.value.scaled t 1) (u.scaled t (-1)) =
      (Scalar.divide (v - start.value) u).map (Exact.scaled t 2) := by
    rw [Exact.scaled_sub, Exact.divide_scaled]
    rfl
  rw [curvature, curvature, Sample.scaled, hchord]
  cases Scalar.divide (v - start.value) u with
  | error cause => rfl
  | ok chord =>
    change Scalar.divide (chord.scaled t 2 - start.slope.scaled t 2) _ = _
    rw [Exact.scaled_sub, Exact.divide_scaled]
    rfl

theorem fitted_scaled {rule : Rule (Exact G)} (hmax : rule.alphamax = Scalar.infinity) :
    fitted rule (start.scaled t) (alpha.scaled t (-1)) (u.scaled t (-1)) (v.scaled t 1) =
      (fitted rule start alpha u v).map (Prod.map (Exact.scaled t (-1)) id) := by
  have hbound (w : Exact G) : Scalar.lesser Scalar.infinity (w.scaled t (-1)) =
      (Scalar.lesser Scalar.infinity w).scaled t (-1) := by
    rw [← Exact.lesser_scaled, Exact.scaled_infinity]
  rw [fitted, fitted, curvature_scaled, hmax]
  cases curvature start u v with
  | error cause => rfl
  | ok a =>
    have hminimizer : -start.slope.scaled t 2 / 2.0 / a.scaled t 3 =
        (-start.slope / 2.0 / a).scaled t (-1) := by
      rw [Exact.scaled_neg, Exact.scaled_div, Exact.scaled_div_scaled]
      rfl
    have hle (w : Exact G) : w.scaled t (-1) ≤ Scalar.infinity ↔ w ≤ Scalar.infinity := by
      rw [← Exact.scaled_infinity t (-1), Exact.scaled_le_scaled, Exact.scaled_infinity]
    change (if _ then _ else _) = Except.map _ (if _ then _ else _)
    simp only [Sample.scaled, Exact.isFinite_scaled, Exact.zero_lt_scaled, Exact.scaled_le_scaled,
      Exact.scaled_lt_scaled, hminimizer, hle, Exact.scaled_mul, hbound]
    split_ifs <;> rfl

end TrialStep

namespace Backtracking

variable [IsStrictOrderedRing K] (t : Scale K) (p : Backtracking (Exact G))
  (start : Sample (Exact G)) (u v : Exact G)

theorem rejects_scaled :
    p.rejects (start.scaled t) (u.scaled t (-1)) (v.scaled t 1) = p.rejects start u v := by
  have hbound : start.value.scaled t 1 + p.c1 * u.scaled t (-1) * start.slope.scaled t 2 =
      (start.value + p.c1 * u * start.slope).scaled t 1 := by
    have hdegree : (-1 : ℤ) + 2 = 1 := rfl
    rw [Exact.mul_scaled t (-1), Exact.scaled_mul_scaled, hdegree, Exact.scaled_add]
  simp only [rejects, Sample.scaled, hbound, Exact.isFinite_scaled, Exact.scaled_lt_scaled]

theorem interpolated_scaled :
    interpolated (start.scaled t) (u.scaled t (-1)) (v.scaled t 1) =
      (interpolated start u v).map (Exact.scaled t (-1)) := by
  have hdenominator :
      2.0 * (v.scaled t 1 - start.value.scaled t 1 - start.slope.scaled t 2 * u.scaled t (-1)) =
        (2.0 * (v - start.value - start.slope * u)).scaled t 1 := by
    have hdegree : (2 : ℤ) + -1 = 1 := rfl
    rw [Exact.scaled_mul_scaled, hdegree, Exact.scaled_sub, Exact.scaled_sub, Exact.mul_scaled]
  rw [interpolated, interpolated, Exact.square_scaled, Sample.scaled, hdenominator]
  cases Scalar.square u with
  | error cause => rfl
  | ok u2 =>
    change Scalar.divide (-(start.slope.scaled t 2 * u2.scaled t (-1 + -1))) _ = _
    have hnumerator := Exact.divide_scaled t 0 1 (-(start.slope * u2))
      (2.0 * (v - start.value - start.slope * u))
    have hdegree : (2 : ℤ) + (-1 + -1) = 0 := rfl
    rw [Exact.scaled_mul_scaled, hdegree, Exact.scaled_degree_zero]
    rwa [Exact.scaled_degree_zero, zero_sub] at hnumerator

theorem reduced_scaled :
    p.reduced (start.scaled t) (u.scaled t (-1)) (v.scaled t 1) =
      (p.reduced start u v).map (Exact.scaled t (-1)) := by
  rw [reduced, reduced, interpolated_scaled]
  cases interpolated start u v with
  | error cause => rfl
  | ok w =>
    refine congrArg Except.ok ?_
    rw [Exact.scaled_mul, Exact.scaled_mul, Exact.lesser_scaled, Exact.greater_scaled]

end Backtracking

/-! ## Searches side by side -/

def Cache.scaled (t : Scale K) (c : Cache (Exact G)) : Cache (Exact G) where
  samples := c.samples.map (Sample.scaled t)
  failures := c.failures

/-- The second bench is the first one in the new unit. Nothing is said about the worlds. -/
structure Bench.ScaledBy (t : Scale K) (b : Bench ω (Exact G)) (b' : Bench ω' (Exact G)) :
    Prop where
  cache : b'.cache = b.cache.scaled t
  made : b'.made = b.made

/-- Two searches give up for the same reason. -/
inductive Fault.ScaledBy (t : Scale K) : Fault (Exact G) → Fault (Exact G) → Prop
  | breakdown (cause : Breakdown) : ScaledBy t (.breakdown cause) (.breakdown cause)
  | stepNotPositive (u : Exact G) :
      ScaledBy t (.search (.stepNotPositive u)) (.search (.stepNotPositive (u.scaled t (-1))))
  | tooManyReductions : ScaledBy t (.search .tooManyReductions) (.search .tooManyReductions)

/-- Wherever it is asked, the second function has the value of the first one in the new unit. -/
def LineFunction.ScaledBy (t : Scale K) (φ : LineFunction ω (Exact G))
    (φ' : LineFunction ω' (Exact G)) : Prop :=
  ∀ u, ∃ v, Returns (φ.value u) v ∧ Returns (φ'.value (u.scaled t (-1))) (v.scaled t 1)

namespace Search

variable {φ : LineFunction ω (Exact G)} {φ' : LineFunction ω' (Exact G)}

theorem evaluate_scaled {act : Eval ω A} {act' : Eval ω' B} {a : A} {b : B} (h : Returns act a)
    (h' : Returns act' b) (cost : Calls) :
    Coupled (Bench.ScaledBy t) (fun x y ↦ x = a ∧ y = b) (Fault.ScaledBy t)
      (evaluate cost act : Search ω (Exact G) A) (evaluate cost act' : Search ω' (Exact G) B) := by
  unfold evaluate
  refine Coupled.get.bind fun s s' hs ↦ ?_
  obtain ⟨w, hw⟩ := h s.world
  obtain ⟨w', hw'⟩ := h' s'.world
  simp only [hw, hw']
  refine (Coupled.set ⟨hs.cache, ?_⟩).bind fun _ _ _ ↦ .pure ⟨rfl, rfl⟩
  rw [hs.made]

theorem valueAt_scaled (hφ : φ.ScaledBy t φ') (u : Exact G) :
    Coupled (Bench.ScaledBy t) (fun v v' ↦ v' = v.scaled t 1) (Fault.ScaledBy t) (valueAt φ u)
      (valueAt φ' (u.scaled t (-1))) := by
  obtain ⟨v, h, h'⟩ := hφ u
  refine (evaluate_scaled h h' .ofValue).imp ?_ fun _ _ ↦ id
  rintro _ _ ⟨rfl, rfl⟩
  rfl

theorem lift_scaled (r : Except Breakdown A) (c : A → B) :
    Coupled (Bench.ScaledBy t) (fun x y ↦ y = c x) (Fault.ScaledBy t)
      (lift r : Search ω (Exact G) A) (lift (r.map c) : Search ω' (Exact G) B) := by
  cases r with
  | ok a => exact .pure rfl
  | error cause => exact .throw (.breakdown cause)

theorem countFailure_scaled :
    Coupled (Bench.ScaledBy t) Eq (Fault.ScaledBy t) (countFailure : Search ω (Exact G) Unit)
      (countFailure : Search ω' (Exact G) Unit) := by
  refine Coupled.modify fun s s' hs ↦ ⟨?_, hs.made⟩
  rw [hs.cache]
  rfl

theorem cached_scaled (i : ℕ) :
    Coupled (Bench.ScaledBy t) (fun p p' ↦ p'.toSample = p.toSample.scaled t) (Fault.ScaledBy t)
      (cached i : Search ω (Exact G) (Point (Exact G)))
      (cached i : Search ω' (Exact G) (Point (Exact G))) := by
  unfold cached
  refine Coupled.get.bind fun s s' hs ↦ ?_
  have hget : s'.cache.get? i = (s.cache.get? i).map (Sample.scaled t) := by
    rw [hs.cache]
    exact Array.getElem?_map ..
  rw [hget]
  cases s.cache.get? i with
  | some a => exact .pure rfl
  | none => exact .throw (.breakdown _)

theorem keep_scaled (a : Sample (Exact G)) :
    Coupled (Bench.ScaledBy t) (fun _ _ ↦ True) (Fault.ScaledBy t)
      (keep a : Search ω (Exact G) (Point (Exact G)))
      (keep (a.scaled t) : Search ω' (Exact G) (Point (Exact G))) := by
  unfold keep
  refine Coupled.get.bind fun s s' hs ↦ ?_
  refine (Coupled.set ⟨?_, hs.made⟩).bind fun _ _ _ ↦ .pure trivial
  rw [hs.cache]
  simp [Cache.push, Cache.scaled]

end Search

namespace TrialStep

variable [IsStrictOrderedRing K] {φ : LineFunction ω (Exact G)} {φ' : LineFunction ω' (Exact G)}
  {rule : Rule (Exact G)}

theorem reduce_scaled (hφ : φ.ScaledBy t φ') (rule : Rule (Exact G)) (reductions : ℕ)
    (calls : Calls) (u v : Exact G) :
    Coupled (Bench.ScaledBy t)
      (fun r r' ↦ r' = (r.1.map (Prod.map (Exact.scaled t (-1)) (Exact.scaled t 1)), r.2))
      (Fault.ScaledBy t) (reduce rule φ reductions calls u v)
      (reduce rule φ' reductions calls (u.scaled t (-1)) (v.scaled t 1)) := by
  induction reductions generalizing calls u v with
  | zero => exact .pure rfl
  | succ reductions ih =>
    unfold reduce
    rw [Exact.isFinite_scaled, Exact.mul_scaled]
    refine Coupled.ite Iff.rfl (fun _ ↦ .pure rfl) fun _ ↦ ?_
    refine (Search.valueAt_scaled hφ _).bind ?_
    rintro v _ rfl
    exact Search.countFailure_scaled.bind fun _ _ _ ↦ ih _ _ v

theorem propose_scaled (hφ : φ.ScaledBy t φ') (hmax : rule.alphamax = Scalar.infinity)
    (alpha : Exact G) :
    Coupled (Bench.ScaledBy t)
      (fun r r' ↦ r' = (Prod.map (Exact.scaled t (-1)) id r.1, r.2)) (Fault.ScaledBy t)
      (propose rule φ alpha) (propose rule φ' (alpha.scaled t (-1))) := by
  have hfirst : Scalar.lesser (rule.psi1 * alpha.scaled t (-1)) rule.alphamax =
      (Scalar.lesser (rule.psi1 * alpha) rule.alphamax).scaled t (-1) := by
    rw [hmax, Exact.mul_scaled, ← Exact.lesser_scaled, Exact.scaled_infinity]
  unfold propose
  rw [hfirst]
  refine (Search.cached_scaled 0).bind fun start start' hstart ↦ ?_
  rw [hstart]
  refine (Search.valueAt_scaled hφ _).bind ?_
  rintro v _ rfl
  refine (reduce_scaled hφ rule _ _ _ v).bind ?_
  rintro ⟨_ | ⟨u, v⟩, calls⟩ _ rfl
  · refine .pure (Prod.ext (Prod.ext ?_ rfl) rfl)
    exact (Exact.scaled_zero t (-1)).symm
  · dsimp only [Option.map_some, Prod.map_apply]
    rw [fitted_scaled t _ _ _ _ hmax]
    refine (Search.lift_scaled _ _).bind ?_
    rintro r _ rfl
    exact .pure rfl

end TrialStep

namespace Backtracking

variable [IsStrictOrderedRing K] {φ : LineFunction ω (Exact G)} {φ' : LineFunction ω' (Exact G)}
  (p : Backtracking (Exact G))

theorem descend_scaled (hφ : φ.ScaledBy t φ') (start : Sample (Exact G)) (reductions : ℕ)
    (calls : Calls) (u v : Exact G) :
    Coupled (Bench.ScaledBy t)
      (fun r r' ↦ r' = (Prod.map (Exact.scaled t (-1)) (Exact.scaled t 1) r.1, r.2))
      (Fault.ScaledBy t) (descend p φ start reductions calls u v)
      (descend p φ' (start.scaled t) reductions calls (u.scaled t (-1)) (v.scaled t 1)) := by
  induction reductions generalizing calls u v with
  | zero =>
    unfold descend
    rw [rejects_scaled]
    exact Coupled.ite Iff.rfl (fun _ ↦ .throw .tooManyReductions) fun _ ↦ .pure rfl
  | succ reductions ih =>
    unfold descend
    rw [rejects_scaled, Exact.isFinite_scaled, reduced_scaled, Exact.scaled_mul]
    refine Coupled.ite Iff.rfl (fun _ ↦ ?_) fun _ ↦ .pure rfl
    refine Coupled.ite Iff.rfl (fun _ ↦ ?_) fun _ ↦ ?_
    · refine (Search.lift_scaled _ _).bind ?_
      rintro u _ rfl
      refine (Search.valueAt_scaled hφ u).bind ?_
      rintro v _ rfl
      exact ih _ u v
    · refine Search.countFailure_scaled.bind fun _ _ _ ↦ ?_
      refine (Search.valueAt_scaled hφ _).bind ?_
      rintro v _ rfl
      exact ih _ _ v

theorem step_scaled (hφ : φ.ScaledBy t φ') (trial : Exact G) :
    Coupled (Bench.ScaledBy t)
      (fun r r' : Step (Exact G) ↦ r' = ⟨r.alpha.scaled t (-1), r.calls⟩) (Fault.ScaledBy t)
      (step p φ trial) (step p φ' (trial.scaled t (-1))) := by
  have hadmissible : (0.0 < trial ∧ Scalar.isFinite trial = true) ↔
      0.0 < trial.scaled t (-1) ∧ Scalar.isFinite (trial.scaled t (-1)) = true := by
    rw [Exact.isFinite_scaled, Exact.zero_lt_scaled]
  unfold step
  refine (Search.cached_scaled 0).bind fun start start' hstart ↦ ?_
  rw [hstart]
  refine Coupled.ite hadmissible (fun _ ↦ ?_) fun _ ↦ .throw (.stepNotPositive trial)
  refine (Search.valueAt_scaled hφ trial).bind ?_
  rintro v _ rfl
  refine (descend_scaled p hφ _ _ _ trial v).bind ?_
  rintro ⟨⟨u, v⟩, calls⟩ _ rfl
  exact (Search.keep_scaled ⟨u, v, Scalar.nan⟩).bind fun _ _ _ ↦ .pure rfl

end Backtracking

end NonlinearCG
