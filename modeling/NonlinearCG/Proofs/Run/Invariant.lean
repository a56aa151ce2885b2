import Mathlib
import NonlinearCG.Proofs.Direction.Restart
import NonlinearCG.Proofs.Run.Progress

/-!
# Every iterate carries its own data

A run computes value, gradient, slope and direction at different moments of an iteration and uses
them in the next one. At every iterate they belong together: the value and the gradient are those of
the objective at the point, the line search starts from a cache that holds this value and the slope
along the direction that is searched, and the update combines the gradients at both ends of the
step.

In exact arithmetic the restart test fails only where the gradient vanishes, so that a run stops for
want of a direction exactly at the stationary points that it reaches.
-/

namespace NonlinearCG

/-! ## The default options -/

namespace Options

variable {K κ : Type} [Field K] [LinearOrder K] [IsStrictOrderedRing K] {G : Grid K}

theorem default_eta (limit : ℕ → κ) :
    (default limit : Options (Exact G) κ).eta = .num (2 / 5) := by
  change (0.4 : Exact G) = _
  rw [Exact.ofScientific_eq]
  norm_num

theorem default_ftol (limit : ℕ → κ) :
    (default limit : Options (Exact G) κ).ftol = .num (1 / 10 ^ 8) := by
  change (1e-8 : Exact G) = _
  rw [Exact.ofScientific_eq]
  norm_num

theorem not_default_eta_le_zero (limit : ℕ → κ) :
    ¬(default limit : Options (Exact G) κ).eta ≤ 0.0 := by
  rw [default_eta, Exact.zero_eq, Exact.num_le]
  norm_num

end Options

namespace Minimizer

/-! ## Iterates -/

section Data

variable {ω α : Type} [Scalar α] {n : ℕ} {m : Minimizer ω α} {f : Objective ω α n}
  {view : Vec α n → Tensor α} {x₀ : Vec α n} {σ₀ σ σ' : Session ω α} {it it' : Iterate α n}
  {past : List (Iterate α n)} {verdict : Verdict} {F : Vec α n → α} {g : Vec α n → Vec α n}

/-- The value and the gradient of an iterate are those at its point. -/
structure Iterate.Consistent (F : Vec α n → α) (g : Vec α n → Vec α n) (it : Iterate α n) :
    Prop where
  value : it.value = F it.x
  gradient : it.gradient = g it.x
  finite : Scalar.isFinite it.value = true

theorem Visits.consistent (hf : f.Agrees F g)
    (h : Visits m f view x₀ σ₀ (it :: past) verdict σ) : it.Consistent F g := by
  cases h with
  | start hstart =>
    have hstarts := starts_of_run hstart
    obtain ⟨w, w', hboth⟩ := hstarts.evaluated
    rw [← hstarts.point] at hboth
    obtain ⟨hvalue, hgradient⟩ := hf _ _ _ _ _ hboth
    exact ⟨hvalue, hgradient, hstarts.finite⟩
  | move _ _ _ hrun =>
    have hmoves := moves_of_run hrun
    obtain ⟨w, w', hboth⟩ := hmoves.evaluated
    obtain ⟨hvalue, hgradient⟩ := hf _ _ _ _ _ hboth
    exact ⟨hvalue, hgradient, hmoves.finite⟩

/-! ## The calls of an iteration -/

theorem Visits.moves (h : Visits m f view x₀ σ₀ (it' :: it :: past) verdict σ) :
    m.Moves f it it' verdict := by
  cases h with
  | move _ _ _ hrun => exact moves_of_run hrun

theorem exists_last_of_ok {r : Results α} (h : (m.minimizeFrom f view x₀ σ₀).1.outcome = .ok r) :
    ∃ it past verdict σ, Visits m f view x₀ σ₀ (it :: past) verdict σ ∧
      r.minimum = view it.x ∧ r.value = it.value ∧ r.iterations = it.iteration ∧
      ∃ e, EndsWith m it verdict e ∧ r.verdict = e.verdict ∧ r.termination = e.termination := by
  obtain ⟨e, σ', trace, hrun, rfl⟩ := exists_ending_of_ok h
  obtain ⟨it, past, verdict, σ, hvisits, hends⟩ := exists_last hrun
  refine ⟨it, past, verdict, σ, hvisits, ?_, ?_, ?_, e, hends, rfl, rfl⟩
  · rw [← hends.last_eq, results]
  · rw [← hends.last_eq, results]
  · rw [← hends.last_eq, results]

/-- A run in one variable that returns after one step has visited two iterates. -/
theorem exists_visits_of_one {f : Objective ω α 1} {x₀ : Vec α 1} {y : α}
    (h : ((m.minimizeFrom f (⟨[1], ·⟩) x₀ σ₀).1.outcome.toOption.map fun r ↦
      (r.iterations, r.minimum.entries.toList)) = some (1, [y])) :
    ∃ it' it verdict σ, Visits m f (⟨[1], ·⟩) x₀ σ₀ [it', it] verdict σ ∧ it'.x = #v[y] := by
  obtain ⟨r, hr, hresult⟩ := exists_ok_of_map_toOption h
  obtain ⟨hone, hlist⟩ := Prod.mk.inj hresult
  obtain ⟨it', past, verdict, σ, hvisits, hminimum, -, hiterations, -⟩ := exists_last_of_ok hr
  rw [hone, hvisits.iteration_eq_length] at hiterations
  obtain ⟨it, rfl⟩ := List.length_eq_one_iff.mp hiterations.symm
  rw [hminimum] at hlist
  exact ⟨it', it, verdict, σ, hvisits, Vector.toList_inj.mp hlist⟩

end Data

/-! ## Stationary points -/

section Exact

variable {ω K : Type} [Field K] [LinearOrder K] [IsStrictOrderedRing K] {G : Grid K} {n : ℕ}
  {m : Minimizer ω (Exact G)} {f : Objective ω (Exact G) n} {F : Vec (Exact G) n → Exact G}
  {g : Vec (Exact G) n → Vec (Exact G) n}

theorem Visits.not_recovered_iff {view : Vec (Exact G) n → Tensor (Exact G)}
    {x₀ : Vec (Exact G) n} {σ₀ σ : Session ω (Exact G)} {it : Iterate (Exact G) n}
    {past : List (Iterate (Exact G) n)} {verdict : Verdict} (hf : f.Agrees F g)
    (hg : ∀ x, Scalar.isFinite (F x) = true → Vec.allFinite (g x) = true)
    (h : Visits m f view x₀ σ₀ (it :: past) verdict σ) :
    (descentRestart it.gradient it.direction).recovered = false ↔ g it.x = Vec.num 0 := by
  have hdata := h.consistent hf
  have hfinite := hdata.finite
  rw [hdata.value] at hfinite
  obtain ⟨a, ha⟩ := Vec.allFinite_iff.mp (hg _ hfinite)
  rw [hdata.gradient, ha, recovered_eq_false_iff, Vec.num_injective.eq_iff]

end Exact

def squareObjective : Objective Unit (Exact Grid.rational) 1 :=
  .ofFunctions (fun x ↦ x.only * x.only) fun x ↦ #v[x.only + x.only]

theorem squareObjective_both (x : Vec (Exact Grid.rational) 1) :
    Returns (squareObjective.both x) (x.only * x.only, #v[x.only + x.only]) := .pure _

def defaultMinimizer : Minimizer Unit (Exact Grid.rational) where
  options := .default fun k ↦ ⟨k, true⟩
  lineSearch := HagerZhang.default.lineSearch
  refresh _ _ := pure .identity

end Minimizer

end NonlinearCG
