import Mathlib
import NonlinearCG.Proofs.LineSearch.Verdicts
import NonlinearCG.Proofs.Run.Breakdown
import NonlinearCG.Proofs.Run.Counters

/-!
# The trial steps of a run

A run predicts a trial step and hands it to its line search. The Hager–Zhang search has a largest
step of its own, which the prediction does not know, and gives up on a trial step beyond it.

On an objective whose values and gradients are numbers, every trial step that is predicted along a
direction with a finite slope is a positive number. A run is therefore aborted on account of a trial
step exactly where the prediction exceeds the largest step of the search.

What carries the proof is that the step that led to an iterate is not zero, since the next test step
is a fraction of it. A search may well return the zero step, but then nothing moves, the value does
not decrease, and the convergence test ends the run.
-/

namespace NonlinearCG

open Matrix

namespace Minimizer

/-! ## Runs that stop in a line search -/

section Stops

variable {ω α : Type} {n : ℕ} {m : Minimizer ω α} {f : Objective ω α n} {it : Iterate α n}
  {σ σ' : Session ω α} {e : SearchError α} {k : ℕ} {calls : Calls} {y : Vec α n}

theorem eq_search_of_interrupt {calls' : Calls} {e' : Fault α}
    (h : it.interrupt calls' e' = .stopped (.search e) k calls y) : e' = .search e := by
  cases e' with
  | breakdown => cases h
  | search =>
    cases h
    rfl

variable [Scalar α]

/-- The line search from an iterate, on a trial step that was predicted there. -/
def searchOn (m : Minimizer ω α) (f : Objective ω α n) (it : Iterate α n) (q : Prediction α) :
    Search (Trial ω α n) α (Step α) :=
  m.lineSearch.search f it.x it.searched q.trial q.mayAccept

/-- An iteration that a line search interrupts has predicted a trial step, and the line search has
given up on it, from the cache that the prediction left behind. -/
theorem Interrupted.exists_predicts
    (h : m.Interrupted f it σ (.stopped (.search e) k calls y) σ') :
    ∃ q σ' b b', Predicts f it σ q σ' ∧ b.cache = q.cache ∧
      (m.searchOn f it q).run b = (.error (.search e), b') := by
  generalize hi : (.stopped (.search e) k calls y : Interrupt α n) = i at h
  cases h with
  | search hrecovered hannounce hsearch =>
    rcases (meets_searchStep ..).of_run_error hsearch with
      hpredict | ⟨q, σ₂, e', b', hpredict, hrun, rfl, -⟩
    · -- what a prediction fails with is a breakdown
      obtain ⟨_, _, -, rfl, -⟩ := (meets_predict ..).of_run_error hpredict
      cases hi
    · obtain rfl := eq_search_of_interrupt hi.symm
      exact ⟨q, σ₂, _, b', ⟨hrecovered, _, hannounce, hpredict⟩, rfl, hrun⟩
  | evaluation _ _ hrun =>
    obtain ⟨_, _, -, rfl, -⟩ := (meets_evaluate _ _).of_run_error hrun
    cases hi
  | value | verdict => cases hi
  | preconditioner _ _ _ hrun =>
    obtain ⟨_, rfl, -⟩ := (meets_prepare _ m _).of_run_error hrun
    cases hi

theorem Predicts.run_advance (view : Vec α n → Tensor α) {q : Prediction α}
    (h : Predicts f it σ q σ')
    (hsearch : ∀ b, b.cache = q.cache →
      ∃ b', (m.searchOn f it q).run b = (.error (.search e), b')) :
    ∃ σ', (m.advance f view it).run σ =
      (.error (.stopped (.search e) (it.iteration + 1) q.calls it.x), σ') := by
  obtain ⟨hrecovered, σ₁, hannounce, hpredict⟩ := h
  obtain ⟨b', hrun⟩ := hsearch (it.bench σ' q.cache) rfl
  refine ⟨after σ' b', ?_⟩
  rw [advance, run_bind_ok hannounce]
  simp only [hrecovered, if_true]
  refine run_bind_error ?_
  rw [searchStep, run_bind_ok hpredict]
  exact run_bind_error (run_searching_error hrun q.calls)

variable {view : Vec α n → Tensor α} {x : Vec α n} {σ₀ : Session ω α}

theorem Halted.ne_search {i : Interrupt α n} (h : m.Halted f view x σ i σ') :
    i ≠ .stopped (.search e) k calls y := by
  rintro rfl
  cases h with
  | evaluation hevaluate =>
    obtain ⟨_, _, -, hi, -⟩ := (meets_evaluate _ _).of_run_error hevaluate
    cases hi
  | preconditioner _ hprepare =>
    obtain ⟨_, hi, -⟩ := (meets_prepare _ m _).of_run_error hprepare
    cases hi

theorem exists_predicts_of_error {o : OptimizerError α}
    (h : (m.minimizeFrom f view x σ₀).1.outcome = .error (.optimizer o))
    (hcause : o.cause = .search e) :
    ∃ it past σ q σ' b b', m.GoesOn f view x σ₀ it past σ ∧ Predicts f it σ q σ' ∧
      b.cache = q.cache ∧ (m.searchOn f it q).run b = (.error (.search e), b') := by
  obtain ⟨k, calls, y, σ₁, hrun, -⟩ := exists_interrupt_of_error h
  rw [hcause] at hrun
  rcases hstart : (m.start f view x).run (m.opened σ₀) with ⟨i | it₀, σ₂⟩
  · have hfailed : (m.run f view x).run (m.opened σ₀) = (.error i, σ₂) := run_bind_error hstart
    cases hfailed.symm.trans hrun
    exact absurd rfl (halted_of_run hstart).ne_search
  · obtain ⟨it, past, σ, σ', hgoes, hadvance⟩ := exists_interrupted hstart hrun
    obtain ⟨q, σ', b, b', hpredicts, hcache, hsearch⟩ :=
      (interrupted_of_run hadvance).exists_predicts
    exact ⟨it, past, σ, q, σ', b, b', hgoes, hpredicts, hcache, hsearch⟩

/-- A run in which a line search gives up on the trial step that was predicted stops with its
verdict. -/
theorem GoesOn.exists_error {past : List (Iterate α n)} {q : Prediction α}
    (hgoes : m.GoesOn f view x σ₀ it past σ) (h : Predicts f it σ q σ')
    (hsearch : ∀ b, b.cache = q.cache →
      ∃ b', (m.searchOn f it q).run b = (.error (.search e), b')) :
    ∃ o, (m.minimizeFrom f view x σ₀).1.outcome = .error (.optimizer o) ∧ o.cause = .search e := by
  obtain ⟨σ₁, hadvance⟩ := h.run_advance view hsearch
  obtain ⟨σ₂, hrun⟩ := hgoes.run_of_interrupted hadvance
  simp only [minimizeFrom, hrun]
  exact ⟨_, rfl, rfl⟩

/-! ## Runs that stop for a trial step -/

section Verdicts

variable {p : HagerZhang α} {q : Prediction α}

theorem Predicts.get?_zero (h : Predicts f it σ q σ') :
    q.cache.get? 0 = some ⟨0.0, it.value, it.slope⟩ := by
  obtain ⟨-, _, -, hpredict⟩ := h
  exact Cache.get?_zero_of_samples_eq (samples_of_run_predict hpredict)

/-- A Hager–Zhang search that gives up on the trial step that was predicted has found it not to be
admissible, and the slope to be finite. -/
theorem Predicts.refused_of_run (hm : m.lineSearch = p.lineSearch) (h : Predicts f it σ q σ')
    {b b' : Bench (Trial ω α n) α} {t : α} (hcache : b.cache = q.cache)
    (hsearch : (m.searchOn f it q).run b = (.error (.search (.stepNotAdmissible t)), b')) :
    Scalar.isFinite it.slope = true ∧ t = q.trial ∧ ¬p.Admissible q.trial := by
  rw [searchOn, hm] at hsearch
  have hzero : b.cache.get? 0 = some ⟨0.0, it.value, it.slope⟩ := by
    rw [hcache]
    exact h.get?_zero
  obtain ⟨hfinite, htrial, hrefused⟩ := HagerZhang.not_admissible_of_run hzero hsearch
  exact ⟨(Bool.and_eq_true_iff.mp hfinite).2, htrial, hrefused⟩

theorem Predicts.run_searchOn (hm : m.lineSearch = p.lineSearch) (h : Predicts f it σ q σ')
    (hvalue : Scalar.isFinite it.value = true) (hslope : Scalar.isFinite it.slope = true)
    (htrial : ¬p.Admissible q.trial) {b : Bench (Trial ω α n) α} (hcache : b.cache = q.cache) :
    ∃ b', (m.searchOn f it q).run b = (.error (.search (.stepNotAdmissible q.trial)), b') := by
  have hzero : b.cache.get? 0 = some ⟨0.0, it.value, it.slope⟩ := by
    rw [hcache]
    exact h.get?_zero
  have hfinite : HagerZhang.finite ⟨0.0, it.value, it.slope⟩ = true :=
    Bool.and_eq_true_iff.mpr ⟨hvalue, hslope⟩
  rw [searchOn, hm]
  exact ⟨_, HagerZhang.run_of_not_admissible hzero hfinite htrial⟩

end Verdicts

end Stops

/-! ## Steps that are not zero -/

section Exact

variable {ω K : Type} [Field K] [LinearOrder K] {G : Grid K} {n : ℕ}
  {f : Objective ω (Exact G) n} {F : (Fin n → K) → K} {g : (Fin n → K) → Fin n → K}
  {it it' : Iterate (Exact G) n} {verdict verdict' : Verdict} {σ σ' : Session ω (Exact G)}

theorem settled_of_assess (hup : ∀ v, v ≤ G.nextUp v) {tol : Tolerances (Exact G)}
    {move norm : Exact G} {v : K}
    (h : tol.assess move (.num v) (.num v) norm = .ok verdict) : verdict.f = true := by
  have hflat : (.num v : Exact G) ≤ Scalar.nextUp (.num v) := Exact.num_le.mpr (hup v)
  rw [Tolerances.assess] at h
  rcases hrelative : Scalar.divide (Scalar.abs (.num v - .num v)) (Scalar.abs (.num v) + tol.ftol)
    with cause | relative
  · rw [hrelative] at h
    cases h
  · rw [hrelative] at h
    cases h
    simp [hflat]

theorem converged_of_settled (h : verdict.f = true) : verdict.converged = true := by
  simp [Verdict.converged, h]

/-- An iterate to which a run has come, with the verdict on it: a point of numbers, and a step that
is zero only if the run stops there. -/
structure Iterate.Reached (F : (Fin n → K) → K) (g : (Fin n → K) → Fin n → K)
    (it : Iterate (Exact G) n) (verdict : Verdict) : Prop where
  point : ∃ x, it.x = Vec.num x ∧ it.value = .num (F x) ∧ it.gradient = Vec.num (g x)
  alpha : IsStep it.alpha
  converged : it.alpha = .num 0 → verdict.converged = true

theorem exists_searched (hfinite : Scalar.isFinite it.slope = true) :
    ∃ s, it.searched = Vec.num s := by
  rw [Iterate.slope, descentRestart_slope] at hfinite
  exact Vec.allFinite_iff.mp (Vec.allFinite_of_dot hfinite).2

theorem Iterate.Reached.onNumbers (h : it.Reached F g verdict)
    (hverdict : verdict.converged = false) (hfinite : Scalar.isFinite it.slope = true) :
    it.OnNumbers F g := by
  obtain ⟨a, ha, halpha⟩ := h.alpha
  have hne : a ≠ 0 := by
    rintro rfl
    exact Bool.false_ne_true (hverdict.symm.trans (h.converged halpha))
  exact ⟨h.point, ⟨a, ha.lt_of_ne' hne, halpha⟩, exists_searched hfinite⟩

variable [IsStrictOrderedRing K]

section Iterates

variable {m : Minimizer ω (Exact G)} {view : Vec (Exact G) n → Tensor (Exact G)} {x₀ : Fin n → K}
  {σ₀ : Session ω (Exact G)} {past : List (Iterate (Exact G) n)} {p : HagerZhang (Exact G)}
  (hf : f.Everywhere F g)

include hf

theorem Starts.reached (h : m.Starts f (Vec.num x₀) it) : it.Reached F g verdict := by
  obtain ⟨w, w', hboth⟩ := h.evaluated
  obtain ⟨hvalue, hgradient⟩ := Prod.mk.inj ((hf.both _).eq_of_run hboth)
  have halpha := h.alpha
  rw [hvalue, hgradient] at halpha
  obtain ⟨a, ha, hinitial⟩ := TrialStep.exists_initial (G := G) x₀ (g x₀) (F x₀)
  have hstep : it.alpha = .num a := Except.ok.inj (halpha.symm.trans hinitial)
  refine ⟨⟨x₀, h.point, hvalue, hgradient⟩, ⟨a, ha.le, hstep⟩, fun hzero ↦ ?_⟩
  exact absurd (Exact.num_inj.mp (hstep.symm.trans hzero)) ha.ne'

variable (hp : p.Proper) (hgap : ∀ x, 0 ≤ x → 0 < G.spacing x) (hup : ∀ v, v ≤ G.nextUp v)
  (hm : m.lineSearch = p.lineSearch)

include hp hgap hm

omit hf in
theorem Moves.step (hit : it.Reached F g verdict) (h : m.Moves f it it' verdict') :
    Scalar.isFinite it.slope = true ∧ IsStep it'.alpha := by
  obtain ⟨x, -, hvalue, -⟩ := hit.point
  obtain ⟨_, _, _, hsearched⟩ := h.searched
  obtain ⟨trial, mayAccept, b, b', step, hrun, (halpha : _ = it'.alpha), hsamples⟩ :=
    exists_search_of_run hsearched
  rw [hm] at hrun
  rw [hvalue] at hsamples
  -- the search does not return from a start that is not finite
  have hfinite := HagerZhang.finite_of_run (Cache.get?_zero_of_samples_eq hsamples) hrun
  obtain ⟨-, d, (hd : it.slope = .num d)⟩ := Exact.bothFinite_iff.mp hfinite
  have hneg : it.slope < 0.0 := descentRestart_slope_neg h.recovered
  rw [hd, Exact.zero_eq, Exact.num_lt] at hneg
  rw [← Iterate.slope, hd, Exact.zero_eq] at hsamples
  rw [hd, ← halpha]
  exact ⟨rfl, HagerZhang.isStep_of_run hp hgap hneg hsamples hrun⟩

include hup

theorem Moves.reached (hit : it.Reached F g verdict) (h : m.Moves f it it' verdict') :
    it'.Reached F g verdict' := by
  obtain ⟨hfinite, a, ha, halpha⟩ := h.step hp hgap hm hit
  obtain ⟨x, hx, hvalue, -⟩ := hit.point
  obtain ⟨s, hs⟩ := exists_searched hfinite
  have hpoint : it'.x = Vec.num (x + a • s) := by
    rw [h.moved, ← Iterate.searched, hs, hx, halpha, Vec.moved_num]
  obtain ⟨w, w', hboth⟩ := h.evaluated
  rw [hpoint] at hboth
  obtain ⟨hvalue', hgradient'⟩ := Prod.mk.inj ((hf.both _).eq_of_run hboth)
  refine ⟨⟨_, hpoint, hvalue', hgradient'⟩, ⟨a, ha, halpha⟩, fun hzero ↦ ?_⟩
  -- the zero step leads back to the point before
  obtain rfl : a = 0 := Exact.num_inj.mp (halpha.symm.trans hzero)
  have hassessed := h.assessed
  rw [hvalue', hvalue, zero_smul, add_zero] at hassessed
  exact converged_of_settled (settled_of_assess hup hassessed)

theorem Visits.reached (h : Visits m f view (Vec.num x₀) σ₀ (it :: past) verdict σ) :
    it.Reached F g verdict := by
  induction h using Visits.head_induction with
  | start hstart => exact (starts_of_run hstart).reached hf
  | move _ _ _ hrun ih => exact (moves_of_run hrun).reached hf hp hgap hup hm ih

end Iterates

/-! ## The trial steps -/

theorem Iterate.OnNumbers.exists_predicts (hf : f.Everywhere F g) (hit : it.OnNumbers F g)
    (hrecovered : (descentRestart it.gradient it.direction).recovered = true)
    (σ : Session ω (Exact G)) :
    ∃ q σ' c, 0 < c ∧ Predicts f it σ q σ' ∧ q.trial = .num c := by
  obtain ⟨σ₁, hannounce⟩ := announce_returns (descentRestart it.gradient it.direction) σ
  obtain ⟨q, σ', c, hrun, hc, htrial⟩ := hit.exists_prediction hf hrecovered σ₁
  exact ⟨q, σ', c, hc, ⟨hrecovered, σ₁, hannounce, hrun⟩, htrial⟩

theorem Iterate.OnNumbers.trial_pos (hf : f.Everywhere F g) (hit : it.OnNumbers F g)
    {q : Prediction (Exact G)} (h : Predicts f it σ q σ') : ∃ c, 0 < c ∧ q.trial = .num c := by
  obtain ⟨hrecovered, σ₁, -, hrun⟩ := h
  obtain ⟨q', _, c, hpredict, hc, htrial⟩ := hit.exists_prediction hf hrecovered σ₁
  cases hpredict.symm.trans hrun
  exact ⟨c, hc, htrial⟩

section Run

variable {m : Minimizer ω (Exact G)} {p : HagerZhang (Exact G)}

theorem not_admissible_num {c : K} (hc : 0 < c) :
    ¬p.Admissible (.num c) ↔ ¬(.num c : Exact G) ≤ p.alphamax := by
  have hpos : (0.0 : Exact G) < .num c := by
    rw [Exact.zero_eq]
    exact Exact.num_lt.mpr hc
  rw [HagerZhang.Admissible, and_iff_right hpos, and_iff_right Exact.isFinite_num]

/-- A prediction from an iterate of numbers is admissible unless it exceeds the largest step. -/
theorem Iterate.OnNumbers.not_admissible_iff (hf : f.Everywhere F g) (hit : it.OnNumbers F g)
    {q : Prediction (Exact G)} (h : Predicts f it σ q σ') :
    ¬p.Admissible q.trial ↔ ¬q.trial ≤ p.alphamax := by
  obtain ⟨c, hc, htrial⟩ := hit.trial_pos hf h
  rw [htrial]
  exact not_admissible_num hc

section Aborts

variable {view : Vec (Exact G) n → Tensor (Exact G)} {x₀ : Fin n → K} {σ₀ : Session ω (Exact G)}
  {past : List (Iterate (Exact G) n)} (hf : f.Everywhere F g)
  (hgap : ∀ x, 0 ≤ x → 0 < G.spacing x) (hup : ∀ v, v ≤ G.nextUp v) (hp : p.Proper)
  (hm : m.lineSearch = p.lineSearch)

include hf hgap hup hp hm

/-- A run goes on from iterates of numbers, as long as the slope is finite. -/
theorem GoesOn.onNumbers (h : m.GoesOn f view (Vec.num x₀) σ₀ it past σ)
    (hfinite : Scalar.isFinite it.slope = true) : it.OnNumbers F g := by
  obtain ⟨verdict, hvisits, hverdict, -⟩ := h
  exact (hvisits.reached hf hp hgap hup hm).onNumbers hverdict hfinite

theorem exists_exceeding_of_error {o : OptimizerError (Exact G)} {t : Exact G}
    (h : (m.minimizeFrom f view (Vec.num x₀) σ₀).1.outcome = .error (.optimizer o))
    (hcause : o.cause = .search (.stepNotAdmissible t)) :
    ∃ it past σ q σ', m.GoesOn f view (Vec.num x₀) σ₀ it past σ ∧ Predicts f it σ q σ' ∧
      Scalar.isFinite it.slope = true ∧ q.trial = t ∧ ¬t ≤ p.alphamax := by
  obtain ⟨it, past, σ, q, σ', b, b', hgoes, hpredicts, hcache, hsearch⟩ :=
    exists_predicts_of_error h hcause
  obtain ⟨hfinite, rfl, hrefused⟩ := hpredicts.refused_of_run hm hcache hsearch
  have hit := hgoes.onNumbers hf hgap hup hp hm hfinite
  exact ⟨it, past, σ, q, σ', hgoes, hpredicts, hfinite, rfl,
    (hit.not_admissible_iff hf hpredicts).mp hrefused⟩

theorem GoesOn.exists_error_of_exceeding {q : Prediction (Exact G)}
    (hgoes : m.GoesOn f view (Vec.num x₀) σ₀ it past σ) (h : Predicts f it σ q σ')
    (hfinite : Scalar.isFinite it.slope = true) (hexceeds : ¬q.trial ≤ p.alphamax) :
    ∃ o, (m.minimizeFrom f view (Vec.num x₀) σ₀).1.outcome = .error (.optimizer o) ∧
      o.cause = .search (.stepNotAdmissible q.trial) := by
  have hit := hgoes.onNumbers hf hgap hup hp hm hfinite
  have hrefused := (hit.not_admissible_iff hf h).mpr hexceeds
  obtain ⟨x, -, hvalue, -⟩ := hit.point
  have hvalue : Scalar.isFinite it.value = true := by
    rw [hvalue]
    rfl
  exact hgoes.exists_error h fun _ hcache ↦ h.run_searchOn hm hvalue hfinite hrefused hcache

/-- **The trial steps of a run.** On an objective whose values and gradients are numbers, with any
preconditioner and any parameters of the Hager–Zhang search that pass their checks:

* from every iterate from which the run is to go on, along a direction that leads downhill with a
  finite slope, the trial step that is predicted is a positive number;
* the run is aborted for a trial step that is not admissible if and only if such a prediction
  exceeds the largest step of the search;
* it is never aborted for that if there is no largest step. -/
theorem minimizeFrom_trial_steps (view : Vec (Exact G) n → Tensor (Exact G)) (x₀ : Fin n → K)
    (σ₀ : Session ω (Exact G)) :
    (∀ it past σ, m.GoesOn f view (Vec.num x₀) σ₀ it past σ →
      (descentRestart it.gradient it.direction).recovered = true →
      Scalar.isFinite it.slope = true →
      ∃ q σ' c, 0 < c ∧ Predicts f it σ q σ' ∧ q.trial = .num c) ∧
    (∀ t, (∃ o, (m.minimizeFrom f view (Vec.num x₀) σ₀).1.outcome = .error (.optimizer o) ∧
        o.cause = .search (.stepNotAdmissible t)) ↔
      ∃ it past σ q σ', m.GoesOn f view (Vec.num x₀) σ₀ it past σ ∧ Predicts f it σ q σ' ∧
        Scalar.isFinite it.slope = true ∧ q.trial = t ∧ ¬t ≤ p.alphamax) ∧
    (p.alphamax = Scalar.infinity → ∀ o t,
      (m.minimizeFrom f view (Vec.num x₀) σ₀).1.outcome = .error (.optimizer o) →
      o.cause ≠ .search (.stepNotAdmissible t)) := by
  refine ⟨fun it past σ hgoes hrecovered hfinite ↦ ?_, fun t ↦ ⟨?_, ?_⟩, fun hmax o t h hcause ↦ ?_⟩
  · exact (hgoes.onNumbers hf hgap hup hp hm hfinite).exists_predicts hf hrecovered σ
  · rintro ⟨o, h, hcause⟩
    exact exists_exceeding_of_error hf hgap hup hp hm h hcause
  · rintro ⟨it, past, σ, q, σ', hgoes, hpredicts, hfinite, rfl, hexceeds⟩
    exact hgoes.exists_error_of_exceeding hf hgap hup hp hm hpredicts hfinite hexceeds
  · obtain ⟨it, past, σ, q, σ', hgoes, hpredicts, hfinite, rfl, hexceeds⟩ :=
      exists_exceeding_of_error hf hgap hup hp hm h hcause
    obtain ⟨c, -, htrial⟩ :=
      (hgoes.onNumbers hf hgap hup hp hm hfinite).trial_pos hf hpredicts
    rw [htrial, hmax] at hexceeds
    exact hexceeds Exact.num_le_infinity

end Aborts

end Run

end Exact

theorem squareObjective_everywhere :
    squareObjective.Everywhere (fun x ↦ x 0 * x 0) fun x _ ↦ x 0 + x 0 where
  value x := Returns.pure (Exact.num (x 0 * x 0))
  both x := by
    have hvalue : (Vec.num (G := Grid.rational) x).only = .num (x 0) := Vec.getElem_num x 0 _
    have hgradient : #v[.num (x 0 + x 0)] = Vec.num (G := Grid.rational) fun _ ↦ x 0 + x 0 := by
      refine Vector.ext fun i hi ↦ ?_
      obtain rfl : i = 0 := Nat.lt_one_iff.mp hi
      rfl
    have hboth := squareObjective_both (Vec.num x)
    rw [hvalue, Exact.num_mul, Exact.num_add, hgradient] at hboth
    exact hboth

/-- The default parameters of the Hager–Zhang search, with a largest step. -/
def shortSteps : HagerZhang (Exact Grid.rational) := { HagerZhang.default with alphamax := 0.1 }

theorem shortSteps_proper : shortSteps.Proper := by
  refine ⟨HagerZhang.defect?_eq_none_iff.mpr ?_, rfl, rfl⟩
  simp only [shortSteps, HagerZhang.default, Exact.ofScientific_eq, Exact.num_lt, Exact.num_le]
  norm_num

/-- The default minimizer, with this search. -/
def shortSteppingMinimizer : Minimizer Unit (Exact Grid.rational) :=
  { defaultMinimizer with lineSearch := shortSteps.lineSearch }

/-- The trial step for which a run was aborted. -/
def refused? {α : Type} : Except (RunError α) (Results α) → Option α
  | .error (.optimizer ⟨.search (.stepNotAdmissible t), _⟩) => some t
  | _ => none

theorem exists_error_of_refused? {α : Type} {r : Except (RunError α) (Results α)} {t : α}
    (h : refused? r = some t) :
    ∃ o, r = .error (.optimizer o) ∧ o.cause = .search (.stepNotAdmissible t) := by
  unfold refused? at h
  split at h
  · cases h
    exact ⟨_, rfl, rfl⟩
  · cases h

/-- The first step that is predicted for the square is too long for the search. -/
theorem minimizeFrom_trial_steps_square :
    let σ₀ : Session Unit (Exact Grid.rational) := { world := (), preconditioner := .identity }
    ∃ o, (shortSteppingMinimizer.minimizeFrom squareObjective (⟨[1], ·⟩) (Vec.num ![1])
        σ₀).1.outcome = .error (.optimizer o) ∧
      o.cause = .search (.stepNotAdmissible (.num (1 / 2))) ∧
      ∃ it past σ q σ', shortSteppingMinimizer.GoesOn squareObjective (⟨[1], ·⟩) (Vec.num ![1]) σ₀
        it past σ ∧ Predicts squareObjective it σ q σ' ∧ q.trial = .num (1 / 2) ∧
        ¬(.num (1 / 2) : Exact Grid.rational) ≤ shortSteps.alphamax := by
  intro σ₀
  have hrun : refused? (shortSteppingMinimizer.minimizeFrom squareObjective (⟨[1], ·⟩)
      (Vec.num ![1]) σ₀).1.outcome = some (.num (1 / 2)) := by
    decide +kernel
  obtain ⟨o, houtcome, hcause⟩ := exists_error_of_refused? hrun
  obtain ⟨-, haborts, -⟩ := minimizeFrom_trial_steps squareObjective_everywhere
    (fun x _ ↦ Grid.rational_spacing_pos x) Grid.rational_le_nextUp shortSteps_proper
    (m := shortSteppingMinimizer) rfl (⟨[1], ·⟩) ![1] σ₀
  obtain ⟨it, past, σ, q, σ', hgoes, hpredicts, -, htrial, hexceeds⟩ :=
    (haborts _).mp ⟨o, houtcome, hcause⟩
  exact ⟨o, houtcome, hcause, it, past, σ, q, σ', hgoes, hpredicts, htrial, hexceeds⟩

end Minimizer

end NonlinearCG
