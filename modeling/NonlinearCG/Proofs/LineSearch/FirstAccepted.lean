import Mathlib
import NonlinearCG.Proofs.LineSearch.Attempts
import NonlinearCG.Proofs.LineSearch.SufficientDecrease

/-!
# Backtracking returns the first accepted attempt

From a number as a trial step, under a finite slope that leads downhill, the attempts of
backtracking are determined by what the objective answers. The search returns the first one at which
the value has decreased enough, if that comes before the reductions are used up, and otherwise gives
up after one attempt more than it has reductions. All of this holds for any values, whether they are
numbers or not: as long as nothing is accepted, the attempts are positive numbers, since a value
that was not accepted lies above the tangent, where the quadratic fit is convex.
-/

namespace NonlinearCG.Backtracking

variable {ω α : Type} {n : ℕ}

section Attempts

variable [Scalar α]

/-- The step after one that was not accepted: the minimizer of the quadratic fit, kept between the
two ratios, or the smaller ratio where the value is not finite. -/
def next (p : Backtracking α) (start : Sample α) (t v : α) : α :=
  if Scalar.isFinite v then
    Scalar.greater
      (Scalar.lesser (-(start.slope * (t * t)) / (2.0 * (v - start.value - start.slope * t)))
        (t * p.rhohi))
      (t * p.rholo)
  else t * p.rholo

/-- The value at an attempt is finite and has decreased by the share that the slope promises. -/
def Accepts (p : Backtracking α) (start : Sample α) (a : Attempt ω α) : Prop :=
  Scalar.isFinite a.value = true ∧ a.value ≤ start.value + p.c1 * a.step * start.slope

instance (p : Backtracking α) (start : Sample α) (a : Attempt ω α) :
    Decidable (p.Accepts start a) :=
  inferInstanceAs (Decidable (_ ∧ _))

/-- The attempts of a search, from a first one. -/
def attempts (p : Backtracking α) (answer : α → ω → α × ω) (start : Sample α) (a : Attempt ω α) :
    ℕ → Attempt ω α :=
  Attempt.sequence answer (p.next start) a

/-- How one attempt follows another that was not accepted. After a value that is finite, the
quadratic fit divides by a positive number, and the step stays between the two ratios. -/
structure Reduces (p : Backtracking α) (start : Sample α) (a a' : Attempt ω α) : Prop where
  convex : Scalar.isFinite a.value = true →
    0.0 < 2.0 * (a.value - start.value - start.slope * a.step)
  between : Scalar.isFinite a.value = true →
    p.rholo * a.step ≤ a'.step ∧ a'.step ≤ p.rhohi * a.step
  shrunk : Scalar.isFinite a.value = false → a'.step = p.rholo * a.step

end Attempts

section Exact

variable {K : Type} [Field K] [LinearOrder K] [IsStrictOrderedRing K] {G : Grid K}
  {p : Backtracking (Exact G)} {start : Sample (Exact G)} {z : Exact G} {v d : K}

/-! ## One reduction -/

section Reduction

variable {a : Attempt ω (Exact G)} {t : K}

theorem rejects_iff (hp : p.defect? = none) (hstart : start = ⟨z, .num v, .num d⟩)
    (hstep : a.step = .num t) : p.rejects start a.step a.value = true ↔ ¬p.Accepts start a := by
  obtain ⟨c, -, -, hc⟩ := exists_c1 hp
  by_cases hfinite : Scalar.isFinite a.value = true
  · obtain ⟨w, hw⟩ := Exact.isFinite_iff.mp hfinite
    rw [Accepts, hstart, hstep, hw, rejects_num hc, hc]
    simp
  · rw [Accepts, rejects]
    simp [hfinite]

variable (hp : p.defect? = none) (hd : d < 0) (hstart : start = ⟨z, .num v, .num d⟩) (ht : 0 < t)
  (hstep : a.step = .num t) (hrejected : ¬p.Accepts start a)

include hp hd hstart ht hstep hrejected

theorem tangent_lt {w : K} (hw : a.value = .num w) : 0 < w - v - d * t := by
  obtain ⟨c, -, hc1, hc⟩ := exists_c1 hp
  have hrejects := (rejects_iff hp hstart hstep).mpr hrejected
  rw [hstart, hstep, hw, rejects_num hc, decide_eq_true_eq] at hrejects
  linarith [tangent_lt_of_rejected hc1 hd ht hrejects]

/-- After a finite value, the search and the sequence of attempts come to the same step. -/
theorem reduced_eq_next (hfinite : Scalar.isFinite a.value = true) :
    p.reduced start a.step a.value = .ok (p.next start a.step a.value) := by
  obtain ⟨lo, hi, -, -, -, hlo, hhi⟩ := exists_ratios hp
  obtain ⟨w, hw⟩ := Exact.isFinite_iff.mp hfinite
  have hconvex := tangent_lt hp hd hstart ht hstep hrejected hw
  rw [next, if_pos hfinite, hstart, hstep, hw, reduced_num hlo hhi hconvex.ne', hlo, hhi,
    Exact.two_eq]
  simp only [Exact.num_mul, Exact.num_sub, Exact.num_neg]
  rw [Exact.num_div (mul_ne_zero two_ne_zero hconvex.ne'), Exact.lesser_num, Exact.greater_num]

theorem exists_next {a' : Attempt ω (Exact G)} (hnext : a'.step = p.next start a.step a.value) :
    (∃ u, 0 < u ∧ a'.step = .num u) ∧ p.Reduces start a a' := by
  obtain ⟨lo, hi, hlo, hle, -, hrholo, hrhohi⟩ := exists_ratios hp
  by_cases hfinite : Scalar.isFinite a.value = true
  · obtain ⟨w, hw⟩ := Exact.isFinite_iff.mp hfinite
    -- a rejected finite value lies above the tangent, and its parabola has a minimum
    have hconvex := tangent_lt hp hd hstart ht hstep hrejected hw
    have hreduced := reduced_eq_next hp hd hstart ht hstep hrejected hfinite
    rw [← hnext, hstart, hstep, hw, reduced_num hrholo hrhohi hconvex.ne', Except.ok.injEq]
      at hreduced
    refine ⟨⟨_, lt_max_of_lt_right (mul_pos ht hlo), hreduced.symm⟩, ⟨fun _ ↦ ?_, fun _ ↦ ?_, ?_⟩⟩
    · rw [hstart, hw, hstep, Exact.zero_eq, Exact.two_eq, Exact.num_mul, Exact.num_sub,
        Exact.num_sub, Exact.num_mul, Exact.num_lt]
      positivity
    · rw [← hreduced, hstep, hrholo, hrhohi, Exact.num_mul, Exact.num_mul, Exact.num_le,
        Exact.num_le, mul_comm lo, mul_comm hi]
      exact ⟨le_max_right _ _, max_le (min_le_right _ _) (mul_le_mul_of_nonneg_left hle ht.le)⟩
    · intro hinfinite
      cases hfinite.symm.trans hinfinite
  · -- a value that is not finite fits no parabola: the step is cut by the lower ratio
    have hshrunk : a'.step = .num (lo * t) := by
      rw [hnext, next, if_neg hfinite, hstep, hrholo, Exact.num_mul, mul_comm]
    refine ⟨⟨lo * t, mul_pos hlo ht, hshrunk⟩, ⟨fun h ↦ ?_, fun h ↦ ?_, fun _ ↦ ?_⟩⟩
    · exact absurd h hfinite
    · exact absurd h hfinite
    · rw [hshrunk, hstep, hrholo, Exact.num_mul]

end Reduction

/-! ## The descent -/

section Descent

variable {φ : LineFunction ω (Exact G)} {answer : Exact G → ω → Exact G × ω}
  {a : Attempt ω (Exact G)} (hp : p.defect? = none) (hd : d < 0)
  (hstart : start = ⟨z, .num v, .num d⟩)

include hp hd hstart

theorem exists_step (ha : ∃ t, 0 < t ∧ a.step = .num t) (j : ℕ)
    (hrejected : ∀ i < j, ¬p.Accepts start (p.attempts answer start a i)) :
    ∃ t, 0 < t ∧ (p.attempts answer start a j).step = .num t := by
  induction j with
  | zero => exact ha
  | succ j ih =>
    obtain ⟨t, ht, hstep⟩ := ih fun i hi ↦ hrejected i (by omega)
    exact (exists_next hp hd hstart ht hstep (hrejected j (by omega))
      (Attempt.step_sequence_succ a j)).1

theorem reduces_succ (ha : ∃ t, 0 < t ∧ a.step = .num t) (j : ℕ)
    (hrejected : ∀ i ≤ j, ¬p.Accepts start (p.attempts answer start a i)) :
    p.Reduces start (p.attempts answer start a j) (p.attempts answer start a (j + 1)) := by
  obtain ⟨t, ht, hstep⟩ := exists_step hp hd hstart ha j fun i hi ↦ hrejected i hi.le
  exact (exists_next hp hd hstart ht hstep (hrejected j le_rfl) (Attempt.step_sequence_succ a j)).2

variable (hφ : φ.Answers answer)

include hφ

/-- The descent from an attempt that is not accepted is the descent from the one after it. -/
theorem run_descend_of_rejected {t : K} (ht : 0 < t) (hstep : a.step = .num t)
    (hrejected : ¬p.Accepts start a) (reductions : ℕ) (calls : Calls) {b : Bench ω (Exact G)}
    (hworld : b.world = a.world) :
    (p.descend φ start (reductions + 1) calls a.step a.value).run b =
      (p.descend φ start reductions (calls + .ofValue)
        (Attempt.after answer (p.next start) a).step
        (Attempt.after answer (p.next start) a).value).run
        { b with
          world := (Attempt.after answer (p.next start) a).world
          cache := b.cache.fail (if Scalar.isFinite a.value = false then 1 else 0)
          made := b.made + .ofValue } := by
  have hrejects := (rejects_iff hp hstart hstep).mpr hrejected
  conv_lhs => unfold descend
  simp only [if_pos hrejects]
  by_cases hfinite : Scalar.isFinite a.value = true
  · have hvalue := hφ.run_valueAt (p.next start a.step a.value) b
    rw [if_pos hfinite, reduced_eq_next hp hd hstart ht hstep hrejected hfinite, hfinite]
    simp only [Search.lift, pure_bind]
    rw [run_bind_ok hvalue, hworld]
    rfl
  · have hinfinite := Bool.eq_false_iff.mpr hfinite
    have hfail : (Search.countFailure : Search ω (Exact G) Unit).run b =
        (.ok (), { b with cache := b.cache.fail 1 }) := rfl
    have hvalue := hφ.run_valueAt (a.step * p.rholo) { b with cache := b.cache.fail 1 }
    have hnext : p.next start a.step a.value = a.step * p.rholo := if_neg hfinite
    rw [if_neg hfinite, run_bind_ok hfail, run_bind_ok hvalue, if_pos hinfinite, Attempt.after,
      hnext, ← hworld]
    rfl

theorem run_descend_of_forall_rejected (ha : ∃ t, 0 < t ∧ a.step = .num t) (reductions j : ℕ)
    (calls : Calls) (hrejected : ∀ i < j, ¬p.Accepts start (p.attempts answer start a i))
    {b : Bench ω (Exact G)} (hworld : b.world = a.world) :
    (p.descend φ start (reductions + j) calls a.step a.value).run b =
      (p.descend φ start reductions (calls + ⟨j, 0⟩) (p.attempts answer start a j).step
        (p.attempts answer start a j).value).run
        { b with
          world := (p.attempts answer start a j).world
          cache := b.cache.fail (Attempt.failures (p.attempts answer start a) j)
          made := b.made + ⟨j, 0⟩ } := by
  induction j generalizing reductions with
  | zero =>
    have hfirst : p.attempts answer start a 0 = a := rfl
    rw [hfirst, ← hworld]
    rfl
  | succ j ih =>
    have hbefore : ∀ i < j, ¬p.Accepts start (p.attempts answer start a i) :=
      fun i hi ↦ hrejected i (by omega)
    obtain ⟨t, ht, hstep⟩ := exists_step hp hd hstart ha j hbefore
    have hbudget : reductions + (j + 1) = reductions + 1 + j := by omega
    have hnext : Attempt.after answer (p.next start) (p.attempts answer start a j) =
        p.attempts answer start a (j + 1) := (Attempt.sequence_succ a j).symm
    rw [hbudget, ih (reductions + 1) hbefore, run_descend_of_rejected hp hd hstart hφ ht hstep
      (hrejected j (by omega)) reductions _ rfl, Attempt.failures_succ, hnext,
      Calls.add_ofValue, Calls.add_ofValue, Cache.fail_fail]

/-- The descent returns the first accepted attempt, if it comes in time. -/
theorem run_descend_of_accepts (ha : ∃ t, 0 < t ∧ a.step = .num t) {reductions j : ℕ}
    (calls : Calls) (hj : j ≤ reductions)
    (hrejected : ∀ i < j, ¬p.Accepts start (p.attempts answer start a i))
    (haccepted : p.Accepts start (p.attempts answer start a j)) {b : Bench ω (Exact G)}
    (hworld : b.world = a.world) :
    (p.descend φ start reductions calls a.step a.value).run b =
      (.ok (((p.attempts answer start a j).step, (p.attempts answer start a j).value),
          calls + ⟨j, 0⟩),
        { b with
          world := (p.attempts answer start a j).world
          cache := b.cache.fail (Attempt.failures (p.attempts answer start a) j)
          made := b.made + ⟨j, 0⟩ }) := by
  obtain ⟨t, -, hstep⟩ := exists_step hp hd hstart ha j hrejected
  have hrejects := (rejects_iff hp hstart hstep).not.mpr (not_not_intro haccepted)
  have hbudget : reductions = reductions - j + j := by omega
  rw [hbudget, run_descend_of_forall_rejected hp hd hstart hφ ha _ j calls hrejected
    hworld]
  unfold descend
  rw [if_neg hrejects]
  rfl

theorem run_descend_of_exhausted (ha : ∃ t, 0 < t ∧ a.step = .num t) {reductions : ℕ}
    (calls : Calls) (hrejected : ∀ i ≤ reductions, ¬p.Accepts start (p.attempts answer start a i))
    {b : Bench ω (Exact G)} (hworld : b.world = a.world) :
    (p.descend φ start reductions calls a.step a.value).run b =
      (.error (.search .tooManyReductions),
        { b with
          world := (p.attempts answer start a reductions).world
          cache := b.cache.fail (Attempt.failures (p.attempts answer start a) reductions)
          made := b.made + ⟨reductions, 0⟩ }) := by
  have hbefore : ∀ i < reductions, ¬p.Accepts start (p.attempts answer start a i) :=
    fun i hi ↦ hrejected i hi.le
  obtain ⟨t, -, hstep⟩ := exists_step hp hd hstart ha reductions hbefore
  have hrejects := (rejects_iff hp hstart hstep).mpr (hrejected reductions le_rfl)
  have hdescend :=
    run_descend_of_forall_rejected hp hd hstart hφ ha 0 reductions calls hbefore hworld
  rw [Nat.zero_add] at hdescend
  rw [hdescend]
  unfold descend
  rw [if_pos hrejects]
  rfl

end Descent

/-! ## The search -/

section Step

variable {φ : LineFunction ω (Exact G)} {answer : Exact G → ω → Exact G × ω} {c : K}
  {b : Bench ω (Exact G)} (hφ : φ.Answers answer) (hc : 0 < c)
  (hcached : b.cache.get? 0 = some start)

include hφ hc hcached

/-- The search at a positive trial step is the descent from its first attempt. -/
theorem run_step_eq :
    (p.step φ (.num c)).run b =
      (do
        let ((t, v), calls) ← p.descend φ start p.iterations.toNat .ofValue
          (Attempt.start answer (.num c) b.world).step (Attempt.start answer (.num c) b.world).value
        let _ ← Search.keep ⟨t, v, Scalar.nan⟩
        return ⟨t, calls⟩ : Search ω (Exact G) (Step (Exact G))).run
        { b with
          world := (Attempt.start answer (.num c) b.world).world
          made := b.made + Calls.ofValue } := by
  have htrial : 0.0 < (.num c : Exact G) ∧ Scalar.isFinite (.num c : Exact G) = true := by
    rw [Exact.zero_eq]
    exact ⟨hc, rfl⟩
  rw [step, run_bind_ok (Search.run_cached hcached), if_pos htrial]
  exact run_bind_ok (hφ.run_valueAt _ b)

variable (hp : p.defect? = none) (hd : d < 0) (hstart : start = ⟨z, .num v, .num d⟩)

include hp hd hstart

theorem run_step_of_accepts {attempt : ℕ → Attempt ω (Exact G)}
    (hattempt : attempt = p.attempts answer start (Attempt.start answer (.num c) b.world)) {j : ℕ}
    (hj : j ≤ p.iterations.toNat) (hrejected : ∀ i < j, ¬p.Accepts start (attempt i))
    (haccepted : p.Accepts start (attempt j)) :
    (p.step φ (.num c)).run b =
      (.ok ⟨(attempt j).step, ⟨j + 1, 0⟩⟩,
        { b with
          world := (attempt j).world
          cache := (b.cache.fail (Attempt.failures attempt j)).push
            ⟨(attempt j).step, (attempt j).value, Scalar.nan⟩
          made := b.made + ⟨j + 1, 0⟩ }) := by
  subst hattempt
  have hdescend := run_descend_of_accepts hp hd hstart hφ ⟨c, hc, rfl⟩ .ofValue hj hrejected
    haccepted
    (b := { b with
      world := (Attempt.start answer (.num c) b.world).world
      made := b.made + .ofValue }) rfl
  rw [run_step_eq hφ hc hcached, run_bind_ok hdescend, Calls.ofValue_add, Calls.ofValue_eq_add]
  rfl

theorem run_step_of_exhausted {attempt : ℕ → Attempt ω (Exact G)}
    (hattempt : attempt = p.attempts answer start (Attempt.start answer (.num c) b.world))
    (hrejected : ∀ i ≤ p.iterations.toNat, ¬p.Accepts start (attempt i)) :
    (p.step φ (.num c)).run b =
      (.error (.search .tooManyReductions),
        { b with
          world := (attempt p.iterations.toNat).world
          cache := b.cache.fail (Attempt.failures attempt p.iterations.toNat)
          made := b.made + ⟨p.iterations.toNat + 1, 0⟩ }) := by
  subst hattempt
  have hdescend := run_descend_of_exhausted hp hd hstart hφ ⟨c, hc, rfl⟩ .ofValue hrejected
    (b := { b with
      world := (Attempt.start answer (.num c) b.world).world
      made := b.made + .ofValue }) rfl
  rw [run_step_eq hφ hc hcached, run_bind_error hdescend, Calls.ofValue_add]

end Step

section Search

variable {f : Objective ω (Exact G) n} {answer : Vec (Exact G) n → ω → Exact G × ω}

/-- **Backtracking returns the first accepted attempt.** From a positive number as a trial step,
under a finite slope that leads downhill, whatever the objective answers:

* as long as no attempt is accepted, the steps are positive numbers, and an attempt is followed by
  one within the two ratios after a value that is finite, where the quadratic fit divides by a
  positive number, and by the smaller ratio after one that is not;
* the first accepted attempt, if there are enough reductions to come to it, is returned with the
  number of evaluations, and the only new sample; the failures are the attempts before it whose
  values were not finite;
* without such an attempt the search gives up, after one evaluation more than it has reductions, and
  with the samples as they were.

In both cases the world is the one that the evaluations of the value have left; the gradient is not
evaluated. -/
theorem first_accepted (hp : p.defect? = none) (hf : f.Answers answer) (x s : Vec (Exact G) n)
    {c : K} (hc : 0 < c) (mayAccept : Bool) {b : Bench (Trial ω (Exact G) n) (Exact G)}
    (hd : d < 0) (hstart : b.cache.get? 0 = some ⟨z, .num v, .num d⟩) :
    let start : Sample (Exact G) := ⟨z, .num v, .num d⟩
    let attempt := p.attempts (answerAlong answer x s) start
      (Attempt.start (answerAlong answer x s) (.num c) b.world)
    let budget := p.iterations.toNat
    (∀ j, (∀ i < j, ¬p.Accepts start (attempt i)) →
      0.0 < (attempt j).step ∧ Scalar.isFinite (attempt j).step = true) ∧
    (∀ j, (∀ i ≤ j, ¬p.Accepts start (attempt i)) →
      p.Reduces start (attempt j) (attempt (j + 1))) ∧
    (∀ j ≤ budget, (∀ i < j, ¬p.Accepts start (attempt i)) → p.Accepts start (attempt j) →
      (p.lineSearch.search f x s (.num c) mayAccept).run b =
        (.ok ⟨(attempt j).step, ⟨j + 1, 0⟩⟩,
          { b with
            world := (attempt j).world
            cache := (b.cache.fail (Attempt.failures attempt j)).push
              ⟨(attempt j).step, (attempt j).value, Scalar.nan⟩
            made := b.made + ⟨j + 1, 0⟩ })) ∧
    ((∀ j ≤ budget, ¬p.Accepts start (attempt j)) →
      (p.lineSearch.search f x s (.num c) mayAccept).run b =
        (.error (.search .tooManyReductions),
          { b with
            world := (attempt budget).world
            cache := b.cache.fail (Attempt.failures attempt budget)
            made := b.made + ⟨budget + 1, 0⟩ })) := by
  intro start attempt budget
  have hφ := hf.along x s
  have ha : ∃ t, 0 < t ∧ (Attempt.start (answerAlong answer x s) (.num c) b.world).step =
      .num t := ⟨c, hc, rfl⟩
  refine ⟨?_, ?_, ?_, ?_⟩
  · intro j hrejected
    obtain ⟨t, ht, hstep⟩ := exists_step hp hd rfl ha j hrejected
    rw [hstep, Exact.zero_eq]
    exact ⟨ht, rfl⟩
  · exact reduces_succ hp hd rfl ha
  · intro j hj hrejected haccepted
    exact run_step_of_accepts hφ hc hstart hp hd rfl rfl hj hrejected haccepted
  · intro hrejected
    exact run_step_of_exhausted hφ hc hstart hp hd rfl rfl hrejected

end Search

/-- From the trial step `19`, behind the wall, the search goes to `1.9`, where the value is too
large, and returns the minimizer of the quadratic through that. -/
theorem first_accepted_parabola :
    ∃ step b, ((default : Backtracking (Exact Grid.rational)).lineSearch.search walledParabola
        #v[.num 0] #v[.num 1] (.num 19) false).run parabolaBench = (.ok step, b) ∧
      step.alpha = .num (1 / 2) ∧ step.calls = ⟨3, 0⟩ ∧ b.cache.failures = 1 ∧
      b.cache.samples.map Sample.value = #[.num 0, .num (-1 / 4)] := by
  obtain ⟨-, -, hruns, -⟩ := first_accepted (p := default) (by decide +kernel)
    walledParabola_answers #v[.num 0] #v[.num 1] (by norm_num : (0 : ℚ) < 19) false
    (by norm_num : (-1 : ℚ) < 0)
    (rfl : parabolaBench.cache.get? 0 = some ⟨.num 0, .num 0, .num (-1)⟩)
  have hrun := hruns 2 (by decide +kernel) (by decide +kernel) (by decide +kernel)
  exact ⟨_, _, hrun, by decide +kernel, rfl, by decide +kernel, by decide +kernel⟩

end Exact

end NonlinearCG.Backtracking
