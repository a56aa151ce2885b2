import Mathlib
import NonlinearCG.Proofs.Exact.Vector
import NonlinearCG.Proofs.LineSearch.Tally

/-!
# Attempts

A search that looks at values alone is determined by what the objective answers. Its attempts are
the steps that it comes to, each with the value there and with the world after the evaluation, and
the step and the value of one attempt lead to the next. The objective may keep a state, so that one
step has several values, and a value need not be a number.

What such a search does is said of its first attempt with a property: `Attempt.sequence` goes on
beyond it, and a search comes to as many attempts as it needs.
-/

namespace NonlinearCG

variable {ω α : Type} {n : ℕ}

theorem Cache.fail_fail (c : Cache α) (k l : ℕ) : (c.fail k).fail l = c.fail (k + l) :=
  congrArg (Cache.mk c.samples) (Nat.add_assoc ..)

theorem Calls.add_ofValue (c : Calls) (k : ℕ) : c + ⟨k, 0⟩ + .ofValue = c + ⟨k + 1, 0⟩ := rfl

theorem Calls.ofValue_add (c : Calls) (k : ℕ) : c + .ofValue + ⟨k, 0⟩ = c + ⟨k + 1, 0⟩ :=
  add_right_comm ..

theorem Calls.ofValue_eq_add (k : ℕ) : Calls.ofValue + ⟨k, 0⟩ = ⟨k + 1, 0⟩ :=
  add_comm ..

/-! ## Objectives whose values are always answered -/

/-- Evaluations of the value return: from a world, at a point, with the answer. -/
def Objective.Answers (f : Objective ω α n) (answer : Vec α n → ω → α × ω) : Prop :=
  ∀ x w, (f.value x).run w = (.ok (answer x w).1, (answer x w).2)

/-- Evaluations of the value along a ray return. -/
def LineFunction.Answers (φ : LineFunction ω α) (answer : α → ω → α × ω) : Prop :=
  ∀ t w, (φ.value t).run w = (.ok (answer t w).1, (answer t w).2)

theorem Objective.answers_ofFunctions (F : Vec α n → α) (g : Vec α n → Vec α n) :
    (Objective.ofFunctions F g : Objective ω α n).Answers fun x w ↦ (F x, w) :=
  fun _ _ ↦ rfl

theorem LineFunction.Answers.run_valueAt {φ : LineFunction ω α} {answer : α → ω → α × ω}
    (hφ : φ.Answers answer) (t : α) (b : Bench ω α) :
    (Search.valueAt φ t).run b =
      (.ok (answer t b.world).1,
        { b with world := (answer t b.world).2, made := b.made + .ofValue }) :=
  Search.run_evaluate (hφ t b.world) .ofValue

section Along

variable [Scalar α] {f : Objective ω α n} {answer : Vec α n → ω → α × ω}

/-- What an objective answers along a ray. The buffers of the search show the point, and still the
gradient that they showed before. -/
def answerAlong (answer : Vec α n → ω → α × ω) (x s : Vec α n) (t : α) (trial : Trial ω α n) :
    α × Trial ω α n :=
  ((answer (Vec.along x s t) trial.world).1,
    { trial with
      world := (answer (Vec.along x s t) trial.world).2
      point := Vec.along x s t })

theorem Objective.Answers.along (hf : f.Answers answer) (x s : Vec α n) :
    (LineFunction.ofObjective f x s).Answers (answerAlong answer x s) := by
  intro t trial
  have hworld (w : Trial ω α n) : (LineFunction.onWorld (f.value (Vec.along x s t))).run w =
      (.ok (answer (Vec.along x s t) w.world).1,
        { w with world := (answer (Vec.along x s t) w.world).2 }) := by
    rw [LineFunction.onWorld, run_bind_ok (run_get _), hf]
    rfl
  exact hworld { trial with point := Vec.along x s t }

end Along

/-! ## Attempts -/

/-- A step that was evaluated, with its value and the world after the evaluation. -/
structure Attempt (ω α : Type) where
  step : α
  value : α
  world : ω

namespace Attempt

variable (answer : α → ω → α × ω) (next : α → α → α)

/-- The attempt at a step, from a world. -/
def start (t : α) (w : ω) : Attempt ω α := ⟨t, (answer t w).1, (answer t w).2⟩

/-- The attempt after another one. -/
def after (a : Attempt ω α) : Attempt ω α := start answer (next a.step a.value) a.world

/-- The attempts from a first one. -/
def sequence (a : Attempt ω α) (j : ℕ) : Attempt ω α := (after answer next)^[j] a

variable {answer next} {a : Attempt ω α} {j : ℕ}

@[simp] theorem sequence_zero (a : Attempt ω α) : sequence answer next a 0 = a := rfl

theorem sequence_succ (a : Attempt ω α) (j : ℕ) :
    sequence answer next a (j + 1) = after answer next (sequence answer next a j) :=
  Function.iterate_succ_apply' ..

theorem step_sequence_succ (a : Attempt ω α) (j : ℕ) :
    (sequence answer next a (j + 1)).step =
      next (sequence answer next a j).step (sequence answer next a j).value := by
  rw [sequence_succ]
  rfl

section Failures

variable [Scalar α]

/-- The number of the first attempts whose value is not finite. -/
def failures (attempt : ℕ → Attempt ω α) (j : ℕ) : ℕ :=
  Nat.count (fun i ↦ Scalar.isFinite (attempt i).value = false) j

theorem failures_succ (attempt : ℕ → Attempt ω α) (j : ℕ) :
    failures attempt (j + 1) =
      failures attempt j + if Scalar.isFinite (attempt j).value = false then 1 else 0 :=
  Nat.count_succ ..

end Failures

end Attempt

/-! ## A function with a wall -/

/-- The parabola `t² - t` up to a wall at `2`, behind which the value is infinite. -/
def walledValue (x : Vec (Exact Grid.rational) 1) : Exact Grid.rational :=
  if x.only ≤ .num 2 then x.only * x.only - x.only else .top

def walledParabola : Objective Unit (Exact Grid.rational) 1 :=
  .ofFunctions walledValue fun x ↦ #v[x.only + x.only - .num 1]

theorem walledParabola_answers : walledParabola.Answers fun x w ↦ (walledValue x, w) :=
  Objective.answers_ofFunctions _ _

/-- The bench of a search from zero, with the sample there. -/
def parabolaBench : Bench (Trial Unit (Exact Grid.rational) 1) (Exact Grid.rational) where
  world := ⟨(), #v[.num 0], #v[.num (-1)]⟩
  cache := .seeded ⟨.num 0, .num 0, .num (-1)⟩

end NonlinearCG
