import Mathlib
import NonlinearCG.Proofs.LineSearch.Course

/-!
# Objectives along a ray

What an evaluation along a ray says about the objective. An objective *computes* a function and its
gradient if these are what its evaluations return, whatever else they do. Along a ray it then
computes the function and its slope there, and what a search has cached agrees with them.
-/

namespace NonlinearCG

variable {ω α A : Type} {n : ℕ}

/-! ## Evaluations on a ray -/

/-- Value and gradient come from the combined evaluation, or from the gradient and then the
value. -/
theorem Objective.run_both_eq_ok {f : Objective ω α n} {x : Vec α n} {r : α × Vec α n} {w w' : ω}
    (h : (f.both x).run w = (.ok r, w')) :
    (∃ c, f.combined = some c ∧ (c x).run w = (.ok r, w')) ∨
      ∃ w₁, (f.gradient x).run w = (.ok r.2, w₁) ∧ (f.value x).run w₁ = (.ok r.1, w') := by
  rw [Objective.both] at h
  cases hcombined : f.combined with
  | some c =>
    rw [hcombined] at h
    exact .inl ⟨c, rfl, h⟩
  | none =>
    rw [hcombined] at h
    obtain ⟨_, w₁, hgradient, hrest⟩ := run_bind_eq_ok h
    obtain ⟨_, _, hvalue, hrest⟩ := run_bind_eq_ok hrest
    cases hrest
    exact .inr ⟨w₁, hgradient, hvalue⟩

namespace LineFunction

theorem run_onWorld_eq_ok {act : Eval ω A} {a : A} {w w' : Trial ω α n}
    (h : (onWorld act).run w = (.ok a, w')) : act.run w.world = (.ok a, w'.world) := by
  rw [onWorld, run_bind_ok (run_get _)] at h
  rcases hact : act.run w.world with ⟨cause | a', world⟩
  · simp only [hact] at h
    cases h
  · simp only [hact] at h
    cases h
    rfl

variable [Scalar α] {f : Objective ω α n} {x s : Vec α n} {t : α} {w w' : Trial ω α n}

theorem run_value_ofObjective {v : α} (h : ((ofObjective f x s).value t).run w = (.ok v, w')) :
    (f.value (Vec.along x s t)).run w.world = (.ok v, w'.world) := by
  obtain ⟨_, w₁, hmodify, hrest⟩ := run_bind_eq_ok h
  cases hmodify
  have hvalue := run_onWorld_eq_ok hrest
  exact hvalue

theorem run_both_ofObjective {r : α × α} (h : ((ofObjective f x s).both t).run w = (.ok r, w')) :
    ∃ g, (f.both (Vec.along x s t)).run w.world = (.ok (r.1, g), w'.world) ∧
      r.2 = if Scalar.isFinite r.1 then Vec.dot g s else Scalar.nan := by
  obtain ⟨_, w₁, hmodify, hrest⟩ := run_bind_eq_ok h
  cases hmodify
  obtain ⟨⟨v, g⟩, w₂, hboth, hrest⟩ := run_bind_eq_ok hrest
  cases hrest
  have hboth := run_onWorld_eq_ok hboth
  exact ⟨g, hboth, rfl⟩

end LineFunction

/-! ## Evaluations that return -/

section Returns

theorem LineFunction.onWorld_returns {act : Eval ω A} {a : A} (h : Returns act a) :
    Returns (onWorld (α := α) (n := n) act) a := by
  intro trial
  obtain ⟨w', hw'⟩ := h trial.world
  rw [onWorld, run_bind_ok (run_get _)]
  simp only [hw']
  exact ⟨_, rfl⟩

variable [Scalar α] {f : Objective ω α n} {x s : Vec α n} {t v : α}

theorem LineFunction.both_returns {g : Vec α n} (h : Returns (f.both (Vec.along x s t)) (v, g))
    (hv : Scalar.isFinite v = true) :
    Returns ((ofObjective f x s).both t) (v, Vec.dot g s) := by
  refine Returns.bind (a := ()) (fun trial ↦ ⟨_, rfl⟩) ?_
  refine (onWorld_returns h).bind ?_
  refine Returns.bind (a := ()) (fun trial ↦ ⟨_, rfl⟩) ?_
  simp only [hv, if_true]
  exact Returns.pure _

theorem LineFunction.value_returns (h : Returns (f.value (Vec.along x s t)) v) :
    Returns ((ofObjective f x s).value t) v := by
  refine Returns.bind (a := ()) (fun trial ↦ ⟨_, rfl⟩) ?_
  exact onWorld_returns h

/-- At every step that is a number, the function returns a value that is a number. -/
def LineFunction.Valued {K : Type} {G : Grid K} (φ : LineFunction ω (Exact G)) : Prop :=
  ∀ t, ∃ v, Returns (φ.value (.num t)) (.num v)

end Returns

/-! ## Functions with their gradients -/

/-- What the evaluations of an objective return is the value and the gradient of a function. -/
structure Objective.Computes (f : Objective ω α n) (F : Vec α n → α) (g : Vec α n → Vec α n) :
    Prop where
  value {x : Vec α n} {v : α} {w w' : ω} : (f.value x).run w = (.ok v, w') → v = F x
  both {x d : Vec α n} {v : α} {w w' : ω} : (f.both x).run w = (.ok (v, d), w') → v = F x ∧ d = g x

theorem Objective.computes_ofFunctions (F : Vec α n → α) (g : Vec α n → Vec α n) :
    (Objective.ofFunctions F g : Objective ω α n).Computes F g where
  value h := by
    cases h
    rfl
  both h := by
    cases h
    exact ⟨rfl, rfl⟩

section Computes

variable [Scalar α]

/-- What the evaluations along a ray return is a function with its slope. -/
structure LineFunction.Computes (φ : LineFunction ω α) (V D : α → α) : Prop where
  value {t v : α} {w w' : ω} : (φ.value t).run w = (.ok v, w') → v = V t
  both {t v d : α} {w w' : ω} : (φ.both t).run w = (.ok (v, d), w') → v = V t ∧ d = D t

/-- The slope of a function along a ray, where its value is finite. -/
def slopeAlong (F : Vec α n → α) (g : Vec α n → Vec α n) (x s : Vec α n) (t : α) : α :=
  if Scalar.isFinite (F (Vec.along x s t)) then Vec.dot (g (Vec.along x s t)) s else Scalar.nan

theorem Objective.Computes.along {f : Objective ω α n} {F : Vec α n → α} {g : Vec α n → Vec α n}
    (hf : f.Computes F g) (x s : Vec α n) :
    (LineFunction.ofObjective f x s).Computes (fun t ↦ F (Vec.along x s t))
      (slopeAlong F g x s) where
  value h := hf.value (LineFunction.run_value_ofObjective h)
  both h := by
    obtain ⟨d, hrun, hslope⟩ := LineFunction.run_both_ofObjective h
    obtain ⟨rfl, rfl⟩ := hf.both hrun
    exact ⟨rfl, hslope⟩

omit [Scalar α] in
theorem LineFunction.Computes.eq_of_samples {φ : LineFunction ω α} {V D : α → α}
    (hφ : φ.Computes V D) {s : Sample α} (hs : φ.Samples s) :
    s.value = V s.step ∧ s.slope = D s.step := by
  obtain ⟨_, _, hrun⟩ := hs
  exact hφ.both hrun

theorem LineFunction.Computes.value_of_gives {φ : LineFunction ω α} {V D : α → α}
    (hφ : φ.Computes V D) {s : Sample α} (hs : φ.Gives s) : s.value = V s.step := by
  cases hs with
  | both h => exact (hφ.eq_of_samples h).1
  | value hrun => exact hφ.value hrun

end Computes

end NonlinearCG
