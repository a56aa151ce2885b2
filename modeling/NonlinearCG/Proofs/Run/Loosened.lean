import Mathlib
import NonlinearCG.Proofs.Exact.Number
import NonlinearCG.Proofs.Exact.Quadratic
import NonlinearCG.Proofs.Run.Aborts
import NonlinearCG.Proofs.Run.Endings

/-!
# Looser stopping options

Two runs that differ in their tolerances and in their limits go through the same iterates, and one
of them through fewer. The tolerances are read at one place only, where the verdict on a new iterate
is formed, so that it is enough to compare two single iterations (`Minimizer.advance_alike`): they
have the same outcome and leave the same session, and the criteria that are met under the tighter
tolerances are met under the looser ones. The two loops are then compared by induction on the
iterates that the shorter run visits (`Minimizer.Visits.of_loosened`).

A larger tolerance on the value makes the relative change smaller, too, because it is part of its
divisor. The divisor has to be positive, and the tolerance with it: without a tolerance the test
breaks down at an iterate with the value zero.
-/

namespace NonlinearCG

/-! ## Verdicts under two tolerances -/

/-- The criteria that are met in one verdict are met in the other. -/
structure Verdict.Implies (v v' : Verdict) : Prop where
  x : v.x = true → v'.x = true
  f : v.f = true → v'.f = true
  gradient : v.gradient = true → v'.gradient = true

theorem Verdict.Implies.converged {v v' : Verdict} (h : v.Implies v')
    (hv : v.converged = true) : v'.converged = true := by
  rw [Verdict.converged, Bool.or_eq_true, Bool.or_eq_true] at hv ⊢
  exact hv.imp (Or.imp h.x h.f) h.gradient

theorem Verdict.Implies.not_converged {v v' : Verdict} (h : v.Implies v')
    (hv' : v'.converged = false) : v.converged = false := by
  by_contra hv
  cases hv'.symm.trans (h.converged (Bool.eq_true_of_not_eq_false hv))

section Assess

variable {K : Type} [Field K] [LinearOrder K] {G : Grid K}

/-- Tolerances are at least as loose as others, of which the one on the value is positive. -/
structure Tolerances.Loosens (tol tol' : Tolerances (Exact G)) : Prop where
  xtol : tol.xtol ≤ tol'.xtol
  ftol_pos : 0.0 < tol.ftol
  ftol : tol.ftol ≤ tol'.ftol
  grtol : tol.grtol ≤ tol'.grtol

variable [IsStrictOrderedRing K]

/-- A relative change is a number, and it does not grow with the positive number, or infinity, that
is added to its divisor. -/
theorem Exact.exists_relative {t t' : Exact G} (ht : 0.0 < t) (htt' : t ≤ t') (c v : K) :
    ∃ a a' : K, Scalar.divide (.num |c|) (.num |v| + t) = .ok (.num a) ∧
      Scalar.divide (.num |c|) (.num |v| + t') = .ok (.num a') ∧ a' ≤ a := by
  have hzero : Scalar.divide (.num |c| : Exact G) .top = .ok (.num 0) := rfl
  rw [zero_eq] at ht
  cases t with
  | num s =>
    have hs : 0 < |v| + s := add_pos_of_nonneg_of_pos (abs_nonneg v) ht
    have hquotient : Scalar.divide (.num |c| : Exact G) (.num (|v| + s)) =
        .ok (.num (|c| / (|v| + s))) := divide_num hs.ne'
    cases t' with
    | num s' =>
      have hle : |v| + s ≤ |v| + s' := add_le_add le_rfl (num_le.mp htt')
      refine ⟨_, _, hquotient, divide_num (hs.trans_le hle).ne', ?_⟩
      exact div_le_div_of_nonneg_left (abs_nonneg c) hs hle
    | top => exact ⟨_, 0, hquotient, hzero, div_nonneg (abs_nonneg c) hs.le⟩
    | bot | nan => exact htt'.elim
  | top =>
    cases t' with
    | top => exact ⟨0, 0, hzero, hzero, le_rfl⟩
    | num | bot | nan => exact htt'.elim
  | bot | nan => exact ht.elim

theorem Tolerances.Loosens.assess {tol tol' : Tolerances (Exact G)} (h : tol.Loosens tol')
    (move norm : Exact G) (v v' : K) :
    ∃ verdict verdict', tol.assess move (.num v) (.num v') norm = .ok verdict ∧
      tol'.assess move (.num v) (.num v') norm = .ok verdict' ∧ verdict.Implies verdict' := by
  obtain ⟨a, a', ha, ha', hle⟩ := Exact.exists_relative h.ftol_pos h.ftol (v - v') v
  rw [Tolerances.assess, Tolerances.assess, Exact.num_sub, Exact.abs_num, Exact.abs_num, ha, ha']
  refine ⟨_, _, rfl, rfl, ?_, ?_, ?_⟩
  · intro hx
    exact decide_eq_true (Exact.lt_of_lt_of_le (of_decide_eq_true hx) h.xtol)
  · intro hf
    rw [Bool.or_eq_true] at hf ⊢
    refine hf.imp_left fun hlt ↦ ?_
    have hsmaller : (.num a' : Exact G) < tol.ftol :=
      Exact.lt_of_le_of_lt (Exact.num_le.mpr hle) (of_decide_eq_true hlt)
    exact decide_eq_true (Exact.lt_of_lt_of_le hsmaller h.ftol)
  · intro hgradient
    exact decide_eq_true (Exact.lt_of_lt_of_le (of_decide_eq_true hgradient) h.grtol)

end Assess

namespace Minimizer

section Alike

variable {ω α : Type} {n : ℕ} {σ : Session ω α} {it : Iterate α n} {verdict' : Verdict}

/-- The minimizer with other tolerances and another limit. -/
def loosened (m : Minimizer ω α) (tol : Tolerances α) (l : Limit) : Minimizer ω α :=
  { m with options := { m.options with
      xtol := tol.xtol
      ftol := tol.ftol
      grtol := tol.grtol
      iterations := l } }

/-- Two iterations have the same outcome and leave the same session, apart from the verdict on the
new iterate, which may meet more criteria in the second case. -/
inductive Alike : Except (Interrupt α n) (Advance α n) × Session ω α →
    Except (Interrupt α n) (Advance α n) × Session ω α → Prop
  | same (r : Except (Interrupt α n) (Advance α n) × Session ω α) : Alike r r
  | moved {it : Iterate α n} {verdict verdict' : Verdict} {σ : Session ω α} :
      verdict.Implies verdict' → Alike (.ok (.moved it verdict), σ) (.ok (.moved it verdict'), σ)

variable {r : Except (Interrupt α n) (Advance α n) × Session ω α}

theorem Alike.of_moved (h : Alike r (.ok (.moved it verdict'), σ)) :
    ∃ verdict, r = (.ok (.moved it verdict), σ) ∧ verdict.Implies verdict' := by
  cases h with
  | same => exact ⟨verdict', rfl, id, id, id⟩
  | moved himplies => exact ⟨_, rfl, himplies⟩

theorem Alike.of_error {i : Interrupt α n} (h : Alike r (.error i, σ)) : r = (.error i, σ) := by
  cases h with
  | same => rfl

theorem alike_bind {A : Type} {act : Run ω α n A} {k k' : A → Run ω α n (Advance α n)}
    (h : ∀ a σ', act.run σ = (.ok a, σ') → Alike ((k a).run σ') ((k' a).run σ')) :
    Alike ((act >>= k).run σ) ((act >>= k').run σ) := by
  rcases hact : act.run σ with ⟨i | a, σ'⟩
  · rw [run_bind_error hact, run_bind_error hact]
    exact .same _
  · rw [run_bind_ok hact, run_bind_ok hact]
    exact h a σ' hact

end Alike

variable {ω K : Type} [Field K] [LinearOrder K] [IsStrictOrderedRing K] {G : Grid K} {n : ℕ}
  {m : Minimizer ω (Exact G)} {tol : Tolerances (Exact G)} {l : Limit}
  {f : Objective ω (Exact G) n} {view : Vec (Exact G) n → Tensor (Exact G)} {x : Vec (Exact G) n}
  {σ₀ σ σ' : Session ω (Exact G)} {it it' : Iterate (Exact G) n}
  {past path : List (Iterate (Exact G) n)} {verdict verdict' : Verdict}

/-! ## One iteration -/

/-- The tolerances have an influence on nothing but the verdict. -/
theorem advance_alike (htol : m.options.tolerances.Loosens tol) (l : Limit)
    (view : Vec (Exact G) n → Tensor (Exact G)) (σ : Session ω (Exact G))
    (hit : Scalar.isFinite it.value = true) :
    Alike ((m.advance f view it).run σ) (((m.loosened tol l).advance f view it).run σ) := by
  obtain ⟨v', hv'⟩ := Exact.isFinite_iff.mp hit
  rw [advance, advance]
  refine alike_bind fun _ σ₁ _ ↦ ?_
  by_cases hrecovered : (descentRestart it.gradient it.direction).recovered = true
  · simp only [hrecovered, if_true]
    refine alike_bind fun r σ₂ _ ↦ ?_
    refine alike_bind fun v σ₃ _ ↦ ?_
    by_cases hfinite : Scalar.isFinite v.1 = true
    · obtain ⟨a, ha⟩ := Exact.isFinite_iff.mp hfinite
      obtain ⟨verdict, verdict', hverdict, hverdict', himplies⟩ := htol.assess
        (Vec.maxDiff (Vec.moved it.x (descentRestart it.gradient it.direction).direction r.1) it.x)
        (Vec.infNorm v.2) a v'
      have htolerances : (m.loosened tol l).options.tolerances = tol := rfl
      simp only [ha, hv', htolerances, hverdict, hverdict', Run.lift, pure_bind]
      refine alike_bind fun P σ₄ _ ↦ ?_
      refine alike_bind fun _ σ₅ _ ↦ ?_
      exact .moved himplies
    · simp only [hfinite, Bool.false_eq_true, if_false]
      exact .same _
  · simp only [hrecovered, Bool.false_eq_true, if_false]
    exact .same _

/-! ## The iterates -/

omit [IsStrictOrderedRing K] in
theorem Visits.finite (h : Visits m f view x σ₀ (it :: past) verdict σ) :
    Scalar.isFinite it.value = true := by
  cases h with
  | start hstart => exact (starts_of_run hstart).finite
  | move _ _ _ hrun => exact (moves_of_run hrun).finite

/-- A run under looser tolerances and with a smaller limit comes to the same iterates, as far as it
goes, in the same sessions. -/
theorem Visits.of_loosened (htol : m.options.tolerances.Loosens tol)
    (hl : l.steps ≤ m.options.iterations.steps)
    (h : Visits (m.loosened tol l) f view x σ₀ path verdict' σ) :
    ∃ verdict, Visits m f view x σ₀ path verdict σ ∧ verdict.Implies verdict' := by
  induction h with
  | start hstart => exact ⟨{}, .start hstart, id, id, id⟩
  | @move it it' past _ _ σ _ _ hverdict' hbudget hrun ih =>
    obtain ⟨verdict, hvisits, himplies⟩ := ih
    have halike := advance_alike (f := f) htol l view σ hvisits.finite
    rw [hrun] at halike
    obtain ⟨verdict₁, hadvance, himplies₁⟩ := halike.of_moved
    have hverdict := himplies.not_converged hverdict'
    exact ⟨verdict₁, hvisits.move hverdict (hbudget.trans_le hl) hadvance, himplies₁⟩

theorem GoesOn.of_loosened (htol : m.options.tolerances.Loosens tol)
    (hl : l.steps ≤ m.options.iterations.steps)
    (h : (m.loosened tol l).GoesOn f view x σ₀ it past σ) : m.GoesOn f view x σ₀ it past σ := by
  obtain ⟨verdict', hvisits', hverdict', hbudget⟩ := h
  obtain ⟨verdict, hvisits, himplies⟩ := hvisits'.of_loosened htol hl
  exact ⟨verdict, hvisits, himplies.not_converged hverdict', hbudget.trans_le hl⟩

theorem run_eq_of_loosened_error (htol : m.options.tolerances.Loosens tol)
    (hl : l.steps ≤ m.options.iterations.steps) {i : Interrupt (Exact G) n}
    (h : ((m.loosened tol l).run f view x).run ((m.loosened tol l).opened σ₀) = (.error i, σ')) :
    (m.run f view x).run (m.opened σ₀) = (.error i, σ') := by
  rcases hstart : (m.start f view x).run (m.opened σ₀) with ⟨i' | it, σ⟩
  · have hrun : (m.run f view x).run (m.opened σ₀) = (.error i', σ) := run_bind_error hstart
    have hrun' : ((m.loosened tol l).run f view x).run ((m.loosened tol l).opened σ₀) =
        (.error i', σ) := run_bind_error hstart
    cases h.symm.trans hrun'
    exact hrun
  · have hstart' : ((m.loosened tol l).start f view x).run ((m.loosened tol l).opened σ₀) =
        (.ok it, σ) := hstart
    obtain ⟨it, past, σ, σ₁, hgoes, hadvance, rfl⟩ := exists_interrupted_session hstart' h
    obtain ⟨_, hvisits, -⟩ := id hgoes
    have halike := advance_alike (f := f) htol l view σ (Visits.finite hvisits)
    rw [hadvance] at halike
    exact (hgoes.of_loosened htol hl).run_eq_of_interrupted halike.of_error

/-! ## The whole run -/

/-- At the `k`-th iterate of a run, some tolerances are met. -/
def MeetsAt (m : Minimizer ω (Exact G)) (f : Objective ω (Exact G) n)
    (view : Vec (Exact G) n → Tensor (Exact G)) (x : Vec (Exact G) n)
    (σ₀ : Session ω (Exact G)) (tol : Tolerances (Exact G)) (k : ℕ) : Prop :=
  ∃ it' it past verdict σ v, Visits m f view x σ₀ (it' :: it :: past) verdict σ ∧
    it'.iteration = k ∧ tol.assess (Vec.maxDiff it'.x it.x) it'.value it.value
      (Vec.infNorm it'.gradient) = .ok v ∧ v.converged = true

/-- A run under looser tolerances that converges has stopped at the first of the iterates of the
original run at which these tolerances are met. -/
theorem Visits.isLeast_of_loosened (htol : m.options.tolerances.Loosens tol)
    (hl : l.steps ≤ m.options.iterations.steps)
    (h : Visits (m.loosened tol l) f view x σ₀ (it :: past) verdict σ)
    (hconverged : verdict.converged = true) :
    IsLeast {k | m.MeetsAt f view x σ₀ tol k} it.iteration := by
  obtain ⟨_, hvisits, -⟩ := h.of_loosened htol hl
  constructor
  · cases past with
    | nil =>
      have hpos := h.one_le_iteration hconverged
      rw [h.iteration_eq_length, List.length_nil] at hpos
      exact absurd hpos (Nat.not_succ_le_zero 0)
    | cons it₀ past =>
      exact ⟨it, it₀, past, _, σ, verdict, hvisits, rfl, h.moves.assessed, hconverged⟩
  · rintro k ⟨it₁, it₀, past₀, _, _, v, hvisits₁, rfl, hassess, hv⟩
    by_contra hlt
    have hlength : (it₁ :: it₀ :: past₀).length < (it :: past).length := by
      have hiteration := hvisits.iteration_eq_length
      have hiteration₁ := hvisits₁.iteration_eq_length
      rw [List.length_cons] at hiteration₁ ⊢
      rw [List.length_cons, List.length_cons]
      omega
    -- the iterate was visited under the looser tolerances, too, and the run has moved on from it
    have hsuffix := hvisits₁.isSuffix hvisits hlength.le
    obtain ⟨v', σ', hvisits'⟩ := h.exists_of_isSuffix hsuffix (List.cons_ne_nil _ _)
    have hmoved := (hvisits'.moved_of_lt h hlength).1
    cases hassess.symm.trans hvisits'.moves.assessed
    cases hmoved.symm.trans hv

theorem exists_history_of_loosened (htol : m.options.tolerances.Loosens tol)
    (hl : l.steps ≤ m.options.iterations.steps)
    (hstart : (m.start f view x).run (m.opened σ₀) = (.ok it, σ)) :
    ∃ history history', m.IsHistory f view x σ₀ history ∧
      (m.loosened tol l).IsHistory f view x σ₀ history' ∧ history' <+: history := by
  obtain ⟨history, hhistory⟩ := exists_history hstart
  obtain ⟨history', hhistory'⟩ := exists_history (m := m.loosened tol l) hstart
  refine ⟨history, history', hhistory, hhistory', ?_⟩
  obtain ⟨_, _, hvisits⟩ := hhistory.visited
  obtain ⟨_, _, hvisits'⟩ := hhistory'.visited
  obtain ⟨_, hvisits', -⟩ := hvisits'.of_loosened htol hl
  refine List.reverse_suffix.mp (hvisits'.isSuffix hvisits ?_)
  exact (hhistory.complete hvisits').trans_eq List.length_reverse.symm

theorem minimizeFrom_eq_of_loosened_error (htol : m.options.tolerances.Loosens tol)
    (hl : l.steps ≤ m.options.iterations.steps) {e : RunError (Exact G)}
    (h : ((m.loosened tol l).minimizeFrom f view x σ₀).1.outcome = .error e) :
    (m.loosened tol l).minimizeFrom f view x σ₀ = m.minimizeFrom f view x σ₀ := by
  rcases hrun : ((m.loosened tol l).run f view x).run ((m.loosened tol l).opened σ₀) with
    ⟨i | ending, σ'⟩
  · have hrun' := run_eq_of_loosened_error htol hl hrun
    simp only [minimizeFrom, hrun, hrun']
    rfl
  · simp only [minimizeFrom, hrun] at h
    cases h

theorem exists_last_of_loosened_ok (htol : m.options.tolerances.Loosens tol)
    (hl : l.steps ≤ m.options.iterations.steps) {r : Results (Exact G)}
    (h : ((m.loosened tol l).minimizeFrom f view x σ₀).1.outcome = .ok r) :
    ∃ it past verdict verdict' σ, Visits m f view x σ₀ (it :: past) verdict σ ∧
      Visits (m.loosened tol l) f view x σ₀ (it :: past) verdict' σ ∧
      r.iterations = it.iteration ∧ r.verdict = verdict' := by
  obtain ⟨e, σ', trace, hrun, rfl⟩ := exists_ending_of_ok h
  obtain ⟨it, past, verdict', σ, hvisits', hends⟩ := exists_last hrun
  obtain rfl := hends.last_eq
  obtain ⟨verdict, hvisits, -⟩ := hvisits'.of_loosened htol hl
  exact ⟨_, past, verdict, verdict', σ, hvisits, hvisits', rfl, hends.verdict_eq⟩

/-- **Looser stopping options cut a run short.** In exact arithmetic, for all objectives, starting
points, preconditioners, line searches and other options: tolerances that are at least as loose, of
which the one on the value is positive, and a limit on the iterations that is at most as high have
no influence on a run but that it may end earlier.

* The iterates of the second run, with their points, steps, values, gradients, directions and
  counters, are the first ones of those of the first run.
* Where the second run does not return, the two runs are the same.
* Where it returns, it has done no more iterations than the first run if that returns, and has ended
  before the iteration in which the first run is stopped by an error, if it is.
* If it has converged, then at the first of the common iterates at which its tolerances are met. -/
theorem minimizeFrom_loosened (htol : m.options.tolerances.Loosens tol)
    (hl : l.steps ≤ m.options.iterations.steps) (f : Objective ω (Exact G) n)
    (view : Vec (Exact G) n → Tensor (Exact G)) (x : Vec (Exact G) n)
    (σ₀ : Session ω (Exact G)) :
    let first := m.minimizeFrom f view x σ₀
    let second := (m.loosened tol l).minimizeFrom f view x σ₀
    (∀ it σ, (m.start f view x).run (m.opened σ₀) = (.ok it, σ) → ∃ history history',
      m.IsHistory f view x σ₀ history ∧ (m.loosened tol l).IsHistory f view x σ₀ history' ∧
      history' <+: history) ∧
    (∀ e, second.1.outcome = .error e → second = first) ∧
    ∀ r', second.1.outcome = .ok r' →
      (∀ r, first.1.outcome = .ok r → r'.iterations ≤ r.iterations) ∧
      (∀ e, first.1.outcome = .error (.optimizer e) → r'.iterations < e.progress.iteration) ∧
      (r'.converged = true → IsLeast {k | m.MeetsAt f view x σ₀ tol k} r'.iterations) := by
  intro first second
  refine ⟨fun it σ hstart ↦ exists_history_of_loosened htol hl hstart,
    fun e he ↦ minimizeFrom_eq_of_loosened_error htol hl he, fun r' hr' ↦ ?_⟩
  obtain ⟨it, past, verdict, verdict', σ, hvisits, hvisits', hiterations, hverdict⟩ :=
    exists_last_of_loosened_ok htol hl hr'
  rw [hiterations]
  refine ⟨fun r hr ↦ hvisits.iteration_le_of_ok hr,
    fun e he ↦ hvisits.iteration_lt_of_error he, fun hconverged ↦ ?_⟩
  refine hvisits'.isLeast_of_loosened htol hl ?_
  rwa [← hverdict]

/-- The default tolerances, except that the norm of the gradient has only to be below 2. -/
def roughTolerances : Tolerances (Exact Grid.rational) :=
  { defaultMinimizer.options.tolerances with grtol := 2.0 }

/-- The run on `½ (x² + 3 y²)` from `(3, 1)` takes two iterations. The gradient at the first of its
iterates is within the rough tolerance, and at the starting point no tolerance is met. -/
theorem minimizeFrom_loosened_quadratic :
    let q : Quadratic (Exact Grid.rational) 2 := .num (Matrix.diagonal ![1, 3]) 0
    let f : Objective Unit (Exact Grid.rational) 2 := .ofFunctions q.value q.gradient
    let σ₀ : Session Unit (Exact Grid.rational) := { world := (), preconditioner := .identity }
    let rough := defaultMinimizer.loosened roughTolerances ⟨5, true⟩
    ∃ r r', (defaultMinimizer.minimizeFrom f (⟨[2], ·⟩) (Vec.num ![3, 1]) σ₀).1.outcome = .ok r ∧
      (rough.minimizeFrom f (⟨[2], ·⟩) (Vec.num ![3, 1]) σ₀).1.outcome = .ok r' ∧
      r.iterations = 2 ∧ r'.iterations = 1 ∧ r'.iterations ≤ r.iterations ∧
      IsLeast {k | defaultMinimizer.MeetsAt f (⟨[2], ·⟩) (Vec.num ![3, 1]) σ₀ roughTolerances k}
        1 := by
  intro q f σ₀ rough
  have hrun : (defaultMinimizer.minimizeFrom f (⟨[2], ·⟩) (Vec.num ![3, 1])
      σ₀).1.outcome.toOption.map Results.iterations = some 2 := by
    decide +kernel
  have hrun' : ((rough.minimizeFrom f (⟨[2], ·⟩) (Vec.num ![3, 1])
      σ₀).1.outcome.toOption.map fun r ↦ (r.iterations, r.converged)) = some (1, true) := by
    decide +kernel
  obtain ⟨r, hr, hiterations⟩ := exists_ok_of_map_toOption hrun
  obtain ⟨r', hr', hresult⟩ := exists_ok_of_map_toOption hrun'
  obtain ⟨hiterations', hconverged⟩ := Prod.mk.inj hresult
  have htol : defaultMinimizer.options.tolerances.Loosens roughTolerances :=
    ⟨by decide +kernel, by decide +kernel, by decide +kernel, by decide +kernel⟩
  have hl : (⟨5, true⟩ : Limit).steps ≤ defaultMinimizer.options.iterations.steps := by decide
  obtain ⟨-, -, hreturns⟩ :=
    minimizeFrom_loosened htol hl f (⟨[2], ·⟩) (Vec.num ![3, 1]) σ₀
  obtain ⟨hle, -, hleast⟩ := hreturns r' hr'
  rw [hiterations'] at hleast
  exact ⟨r, r', hr, hr', hiterations, hiterations', hle r hr, hleast hconverged⟩

end Minimizer

end NonlinearCG
