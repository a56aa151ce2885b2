import Mathlib
import NonlinearCG.Proofs.LineSearch.Settle
import NonlinearCG.Proofs.LineSearch.SufficientDecrease
import NonlinearCG.Proofs.Run.Invariant

/-!
# No step leads uphill

What a line search says of the value at its step is said along its ray, from the sample in its
cache. In a run this sample is the iterate's, and the next iterate is the point at the step, where
the objective is evaluated once more. For an objective that is computed, the bounds of the two
searches are therefore bounds on the values of the iterates:

* backtracking decreases the value sufficiently, so that the values of a run decrease strictly;
* the Hager–Zhang search without a largest step keeps the value below the limit.

Backtracking needs a finite slope for this. It does not look whether the slope is, and without one
it answers with a step that is no number (`Backtracking.step_eq_nan_of_run`).
-/

namespace NonlinearCG

/-! ## From a run to its line searches -/

/-- The step of an iteration is found by a search from a cache that holds the value and the slope at
the iterate. -/
theorem Minimizer.exists_search_of_run {ω α : Type} [Scalar α] {n : ℕ} {m : Minimizer ω α}
    {f : Objective ω α n} {it : Iterate α n} {s : Vec α n} {slope : α} {σ σ' : Session ω α}
    {r : α × Calls} (h : (m.searchStep f it s slope).run σ = (.ok r, σ')) :
    ∃ trial mayAccept b b' step, (m.lineSearch.search f it.x s trial mayAccept).run b =
        (.ok step, b') ∧ step.alpha = r.1 ∧ b.cache.samples = #[⟨0.0, it.value, slope⟩] := by
  obtain ⟨q, σ₁, step, b', hpredict, hsearch, rfl, -⟩ := (meets_searchStep ..).of_run_ok h
  exact ⟨q.trial, q.mayAccept, _, b', step, hsearch, rfl, samples_of_run_predict hpredict⟩

namespace Minimizer

variable {ω K : Type} [Field K] [LinearOrder K] [IsStrictOrderedRing K] {G : Grid K} {n : ℕ}
  {m : Minimizer ω (Exact G)} {f : Objective ω (Exact G) n} {F : Vec (Exact G) n → Exact G}
  {g : Vec (Exact G) n → Vec (Exact G) n} {view : Vec (Exact G) n → Tensor (Exact G)}
  {x₀ : Vec (Exact G) n} {σ₀ σ : Session ω (Exact G)} {it it' : Iterate (Exact G) n}
  {past : List (Iterate (Exact G) n)} {verdict : Verdict}

/-! ## From one iterate to the next -/

/-- The direction that is searched from an iterate. -/
def Iterate.searched {α : Type} [Scalar α] (it : Iterate α n) : Vec α n :=
  (descentRestart it.gradient it.direction).direction

/-- The slope along the direction that is searched from an iterate. -/
def Iterate.slope {α : Type} [Scalar α] (it : Iterate α n) : α :=
  (descentRestart it.gradient it.direction).slope

/-- What a run hands over to the search from an iterate, and where the search leads. -/
structure Searches (m : Minimizer ω (Exact G)) (f : Objective ω (Exact G) n)
    (F : Vec (Exact G) n → Exact G) (g : Vec (Exact G) n → Vec (Exact G) n)
    (it it' : Iterate (Exact G) n) : Prop where
  slope_eq : it.slope = Vec.dot (g it.x) it.searched
  slope_neg : it.slope < 0.0
  point : it'.x = Vec.along it.x it.searched it'.alpha
  found : ∃ v trial mayAccept b b' step, F it.x = .num v ∧
    b.cache.samples = #[⟨.num 0, .num v, it.slope⟩] ∧ step.alpha = it'.alpha ∧
    (m.lineSearch.search f it.x it.searched trial mayAccept).run b = (.ok step, b')

theorem Visits.searches (hf : f.Computes F g)
    (h : Visits m f view x₀ σ₀ (it' :: it :: past) verdict σ) : m.Searches f F g it it' := by
  have hagrees : f.Agrees F g := fun _ _ _ _ _ hboth ↦ hf.both hboth
  have hmoves := h.moves
  obtain ⟨_, _, _, hsearched⟩ := hmoves.searched
  obtain ⟨trial, mayAccept, b, b', step, hrun, halpha, hsamples⟩ := exists_search_of_run hsearched
  cases h with
  | move hvisits _ _ _ =>
    have hdata := hvisits.consistent hagrees
    obtain ⟨v, hv⟩ := Exact.isFinite_iff.mp hdata.finite
    refine ⟨?_, descentRestart_slope_neg hmoves.recovered, ?_, v, trial, mayAccept, b, b', step,
      ?_, ?_, halpha, hrun⟩
    · rw [← hdata.gradient]
      exact descentRestart_slope ..
    · rw [← Vec.moved_eq_along]
      exact hmoves.moved
    · rw [← hdata.value, hv]
    · rw [hsamples, hv, Exact.zero_eq]
      rfl

/-! ## The two searches -/

section Backtracking

variable {p : Backtracking (Exact G)} (hp : p.defect? = none)
  (hm : m.lineSearch = p.lineSearch) (h : m.Searches f F g it it')

include hp hm h

theorem Searches.sufficient_decrease (hf : f.Computes F g)
    (hfinite : Scalar.isFinite it.slope = true) :
    F it'.x ≤ F it.x + p.c1 * it'.alpha * it.slope ∧
      F it.x + p.c1 * it'.alpha * it.slope < F it.x := by
  obtain ⟨v, trial, _, b, b', step, hv, hsamples, halpha, hrun⟩ := h.found
  rw [hm] at hrun
  rw [h.point, hv, ← halpha]
  exact Backtracking.sufficient_decrease_of_run hp h.slope_neg
    (Cache.get?_zero_of_samples_eq hsamples) (hf.along it.x it.searched) hfinite hrun

theorem Searches.alpha_eq_nan (hinfinite : Scalar.isFinite it.slope = false) :
    it'.alpha = .nan := by
  obtain ⟨v, trial, _, b, b', step, -, hsamples, halpha, hrun⟩ := h.found
  rw [hm] at hrun
  rw [← halpha]
  exact Backtracking.step_eq_nan_of_run hp h.slope_neg (Cache.get?_zero_of_samples_eq hsamples)
    hinfinite hrun

end Backtracking

theorem Searches.le_limit (hf : f.Computes F g) (hgap : ∀ x, 0 ≤ x → 0 < G.spacing x)
    {p : HagerZhang (Exact G)} (hp : p.Proper) (hm : m.lineSearch = p.lineSearch)
    (h : m.Searches f F g it it') :
    F it'.x ≤ F it.x + p.epsilon * Scalar.abs (F it.x) ∨
      IsStep it'.alpha ∧ it'.alpha = p.alphamax := by
  obtain ⟨v, trial, mayAccept, b, b', step, hv, hsamples, halpha, hrun⟩ := h.found
  rw [hm] at hrun
  -- the search has made sure that the slope is a number, and then the direction consists of numbers
  have hfinite := HagerZhang.finite_of_run (Cache.get?_zero_of_samples_eq hsamples) hrun
  obtain ⟨-, d, (hd : it.slope = .num d)⟩ := Exact.bothFinite_iff.mp hfinite
  have hslope := h.slope_neg
  rw [hd, Exact.zero_eq, Exact.num_lt] at hslope
  have hdot : Scalar.isFinite (Vec.dot (g it.x) it.searched) = true := by
    rw [← h.slope_eq, hd]
    rfl
  obtain ⟨s, hs⟩ := Vec.allFinite_iff.mp (Vec.allFinite_of_dot hdot).2
  have hzero : F (Vec.along it.x it.searched (.num 0)) = .num v := by
    rw [hs, Vec.along_zero, hv]
  rw [hd] at hsamples
  have hbound := HagerZhang.value_le_of_run hp hgap hslope (hf.along it.x it.searched) hzero
    hsamples hrun
  rw [halpha, ← h.point] at hbound
  rw [hv]
  exact hbound

/-! ## Whole runs -/

theorem Visits.pairwise_lt (hf : f.Computes F g) {p : Backtracking (Exact G)}
    (hp : p.defect? = none) (hm : m.lineSearch = p.lineSearch) {path : List (Iterate (Exact G) n)}
    (h : Visits m f view x₀ σ₀ path verdict σ)
    (hfinite : ∀ it ∈ path.tail, Scalar.isFinite it.slope = true) :
    path.Pairwise fun later earlier ↦ F later.x < F earlier.x := by
  induction h with
  | start => exact List.pairwise_singleton ..
  | @move it it' past _ _ _ _ hvisits hverdict hlt hrun ih =>
    have hpast := ih fun it hit ↦ hfinite it (List.mem_cons_of_mem _ hit)
    have hsearches := (hvisits.move hverdict hlt hrun).searches hf
    obtain ⟨hle, hlt⟩ := hsearches.sufficient_decrease hp hm hf (hfinite it List.mem_cons_self)
    have hstep : F it'.x < F it.x := Exact.lt_of_le_of_lt hle hlt
    refine List.pairwise_cons.mpr ⟨fun earlier hearlier ↦ ?_, hpast⟩
    rcases List.mem_cons.mp hearlier with rfl | hmem
    · exact hstep
    · have hbefore := (List.pairwise_cons.mp hpast).1 earlier hmem
      exact Exact.lt_of_le_of_lt (Exact.le_of_lt hstep) hbefore

/-- **No step leads uphill.** For an objective that is computed, any preconditioner and any run from
any point, where a step led from one visited iterate to the next:

* the slope along the direction that was searched was negative;
* with backtracking, if the slope was finite, the value has decreased sufficiently, and so the
  values decrease strictly over a run in which all slopes were finite;
* with backtracking, if the slope was not finite, the step was no number;
* with the Hager–Zhang search without a largest step, the value has stayed below the limit. -/
theorem visits_descend (hf : f.Computes F g) (hgap : ∀ x, 0 ≤ x → 0 < G.spacing x)
    (m : Minimizer ω (Exact G)) (view : Vec (Exact G) n → Tensor (Exact G))
    (x₀ : Vec (Exact G) n) (σ₀ : Session ω (Exact G)) :
    (∀ it' it past verdict σ, Visits m f view x₀ σ₀ (it' :: it :: past) verdict σ →
      it.slope = Vec.dot (g it.x) it.searched ∧ it.slope < 0.0) ∧
    (∀ p : Backtracking (Exact G), p.defect? = none → m.lineSearch = p.lineSearch →
      (∀ it' it past verdict σ, Visits m f view x₀ σ₀ (it' :: it :: past) verdict σ →
        (Scalar.isFinite it.slope = true → F it'.x ≤ F it.x + p.c1 * it'.alpha * it.slope ∧
          F it.x + p.c1 * it'.alpha * it.slope < F it.x) ∧
        (Scalar.isFinite it.slope = false → it'.alpha = .nan)) ∧
      ∀ path verdict σ, Visits m f view x₀ σ₀ path verdict σ →
        (∀ it ∈ path.tail, Scalar.isFinite it.slope = true) →
        path.Pairwise fun later earlier ↦ F later.x < F earlier.x) ∧
    ∀ p : HagerZhang (Exact G), p.Proper → p.alphamax = Scalar.infinity →
      m.lineSearch = p.lineSearch →
      ∀ it' it past verdict σ, Visits m f view x₀ σ₀ (it' :: it :: past) verdict σ →
        F it'.x ≤ F it.x + p.epsilon * Scalar.abs (F it.x) := by
  refine ⟨?_, fun p hp hm ↦ ⟨?_, ?_⟩, fun p hp hmax hm ↦ ?_⟩
  · intro it' it past verdict σ h
    have hsearches := h.searches hf
    exact ⟨hsearches.slope_eq, hsearches.slope_neg⟩
  · intro it' it past verdict σ h
    have hsearches := h.searches hf
    exact ⟨hsearches.sufficient_decrease hp hm hf, hsearches.alpha_eq_nan hp hm⟩
  · intro path verdict σ h
    exact h.pairwise_lt hf hp hm
  · intro it' it past verdict σ h
    rcases (h.searches hf).le_limit hf hgap hp hm with hle | hedge
    · exact hle
    · -- no step is infinite
      obtain ⟨⟨a, -, ha⟩, hedge⟩ := hedge
      cases (ha.symm.trans hedge).trans hmax

def backtrackingMinimizer : Minimizer Unit (Exact Grid.rational) where
  options := .default fun k ↦ ⟨k, true⟩
  lineSearch := Backtracking.default.lineSearch
  refresh _ _ := pure .identity

theorem default_defect? : (Backtracking.default : Backtracking (Exact Grid.rational)).defect? =
    none := by
  refine Backtracking.defect?_eq_none_iff.mpr ?_
  simp only [Backtracking.default, Exact.ofScientific_eq, Exact.num_lt, Exact.num_le]
  norm_num

omit [IsStrictOrderedRing K] in
theorem getElem_along_nan (x s : Vec (Exact G) n) (i : ℕ) (hi : i < n) :
    (Vec.along x s .nan)[i] = .nan := by
  rw [Vec.along, Vector.getElem_zipWith]
  cases s[i] <;> cases x[i] <;> rfl

/-- Both searches, in the one step that they need for the square. -/
theorem visits_descend_square :
    let σ₀ : Session Unit (Exact Grid.rational) := { world := (), preconditioner := .identity }
    let F : Vec (Exact Grid.rational) 1 → Exact Grid.rational := fun x ↦ x[0] * x[0]
    (∃ it' it verdict σ, Visits backtrackingMinimizer squareObjective (⟨[1], ·⟩) #v[.num 1] σ₀
      [it', it] verdict σ ∧ Scalar.isFinite it.slope = true ∧ F it'.x < F it.x) ∧
    ∃ it' it verdict σ, Visits defaultMinimizer squareObjective (⟨[1], ·⟩) #v[.num 1] σ₀
      [it', it] verdict σ ∧ F it'.x ≤ F it.x + 1e-6 * Scalar.abs (F it.x) := by
  intro σ₀ F
  have hf : squareObjective.Computes F fun x ↦ #v[x[0] + x[0]] :=
    Objective.computes_ofFunctions _ _
  have hgap : ∀ x, 0 ≤ x → 0 < Grid.rational.spacing x := fun x _ ↦ Grid.rational_spacing_pos x
  constructor
  · have hrun : ((backtrackingMinimizer.minimizeFrom squareObjective (⟨[1], ·⟩) #v[.num 1]
        σ₀).1.outcome.toOption.map fun r ↦ (r.iterations, r.minimum.entries.toList)) =
        some (1, [.num 0]) := by
      decide +kernel
    obtain ⟨it', it, verdict, σ, hvisits, hzero⟩ := exists_visits_of_one hrun
    obtain ⟨-, hbacktracking, -⟩ := visits_descend hf hgap backtrackingMinimizer (⟨[1], ·⟩)
      #v[.num 1] σ₀
    obtain ⟨hdecrease, hnan⟩ := (hbacktracking _ default_defect? rfl).1 it' it _ _ _ hvisits
    have hfinite : Scalar.isFinite it.slope = true := by
      by_contra hinfinite
      have hpoint := (hvisits.searches hf).point
      have hnan' : it'.x[0] = .nan := by
        rw [hpoint, hnan (Bool.eq_false_iff.mpr hinfinite), getElem_along_nan]
      rw [hzero] at hnan'
      cases hnan'
    obtain ⟨hle, hlt⟩ := hdecrease hfinite
    exact ⟨it', it, verdict, σ, hvisits, hfinite, Exact.lt_of_le_of_lt hle hlt⟩
  · have hrun : ((defaultMinimizer.minimizeFrom squareObjective (⟨[1], ·⟩) #v[.num 1]
        σ₀).1.outcome.toOption.map fun r ↦ (r.iterations, r.minimum.entries.toList)) =
        some (1, [.num 0]) := by
      decide +kernel
    obtain ⟨it', it, verdict, σ, hvisits, -⟩ := exists_visits_of_one hrun
    obtain ⟨-, -, hlimit⟩ := visits_descend hf hgap defaultMinimizer (⟨[1], ·⟩) #v[.num 1] σ₀
    exact ⟨it', it, verdict, σ, hvisits,
      hlimit _ HagerZhang.default_proper rfl rfl it' it _ _ _ hvisits⟩

/-- A value that falls off a cliff beside `1`, and is higher again where there is no number. -/
def cliff (x : Vec (Exact Grid.rational) 1) : Exact Grid.rational :=
  match x[0] with
  | .num a => if a = 1 then .num 1 else .num (99 / 100)
  | _ => .num (5 / 4)

/-- The cliff, with an infinite gradient at its foot. -/
def cliffObjective : Objective Unit (Exact Grid.rational) 1 :=
  .ofFunctions cliff fun x ↦ if cliff x < 1.0 then #v[.bot] else #v[1.0]

/-- Under an infinite slope backtracking ends above the value at which it started. -/
theorem minimizeFrom_cliff :
    let σ₀ : Session Unit (Exact Grid.rational) := { world := (), preconditioner := .identity }
    ∃ r, (backtrackingMinimizer.minimizeFrom cliffObjective (⟨[1], ·⟩) #v[.num 1] σ₀).1.outcome =
      .ok r ∧ cliff #v[.num 1] < r.value := by
  intro σ₀
  have hrun : ((backtrackingMinimizer.minimizeFrom cliffObjective (⟨[1], ·⟩) #v[.num 1]
      σ₀).1.outcome.toOption.map Results.value) = some (.num (5 / 4)) := by
    decide +kernel
  obtain ⟨r, hr, hvalue⟩ := exists_ok_of_map_toOption hrun
  refine ⟨r, hr, ?_⟩
  rw [hvalue]
  have hstart : cliff #v[.num 1] = .num 1 := by simp [cliff]
  rw [hstart, Exact.num_lt]
  norm_num

end Minimizer

end NonlinearCG
