import Mathlib
import NonlinearCG.Proofs.Exact.Diagonal
import NonlinearCG.Proofs.Exact.Quadratic
import NonlinearCG.Proofs.Run.Invariant
import NonlinearCG.Proofs.Run.Schedule
import NonlinearCG.Proofs.Run.Twins

/-!
# Preconditioners in different representations

A run that keeps its preconditioner uses of it only the directions that it leads to. Two runs with
preconditioners that lead to the same directions are twins over the relation that the sessions agree
in everything but the preconditioner, which each of them keeps (`twins_represented`).

In exact arithmetic a vector of positive weights and the matrix that has them on its diagonal are
such preconditioners, and for unit weights so is the preconditioner that does nothing. This takes
square roots that are ones, since the matrix is inverted by way of its Cholesky factor.
-/

namespace NonlinearCG

variable {ω α : Type} {n : ℕ}

/-- The preconditioner that keeps a weighting at all points. -/
def Preconditioner.fixed (w : Weighting α) : Preconditioner α := { weighting := w }

/-- The session with a preconditioner that keeps a weighting. -/
def Session.weighted (σ : Session ω α) (w : Weighting α) : Session ω α :=
  { σ with preconditioner := .fixed w }

/-- The sessions agree in everything but the preconditioner, which keeps one weighting in the first
and another one in the second. -/
structure Session.Represented (w w' : Weighting α) (s t : Session ω α) : Prop where
  first : s.preconditioner = .fixed w
  second : t = s.weighted w'

theorem Session.Represented.shares (w w' : Weighting α) :
    Shares (Represented (ω := ω) w w') where
  world h := by rw [h.second]; rfl
  log h := by rw [h.second]; rfl
  setWorld _ h := ⟨h.first, by rw [h.second]; rfl⟩
  setLog _ h := ⟨h.first, by rw [h.second]; rfl⟩

theorem Session.Represented.weighted (σ : Session ω α) (w w' : Weighting α) :
    Represented w w' (σ.weighted w) (σ.weighted w') := ⟨rfl, rfl⟩

namespace Minimizer

/-- Refreshing leaves a preconditioner that keeps its weighting alone, whatever else it does at a
point. -/
def KeepsFixed (m : Minimizer ω α) (note : Array α → Eval ω Unit) : Prop :=
  ∀ w x, m.refresh (.fixed w) x = do note x; return .fixed w

theorem keepsFixed_ownRefresh (o : Options α Limit) (search : LineSearch ω α) :
    (⟨o, search, ownRefresh⟩ : Minimizer ω α).KeepsFixed fun _ ↦ pure () := fun _ _ ↦ rfl

variable [Scalar α] {m : Minimizer ω α} {note : Array α → Eval ω Unit} {w w' : Weighting α}
  {P P' : Operator α n}

theorem prepare_represented (hm : m.KeepsFixed note) (hP : w.sized n = .ok P)
    (hP' : w'.sized n = .ok P') (hsame : P.SameDirections P') (x : Vec α n) :
    Coupled (Session.Represented w w') Operator.SameDirections Eq (m.prepare x) (m.prepare x) := by
  unfold prepare
  refine Coupled.get.bind fun s t hst ↦ ?_
  rw [hst.second, hst.first]
  have hkept : Coupled Eq (fun Q Q' ↦ Q = .fixed w ∧ Q' = .fixed w') Eq
      (m.refresh (.fixed w) x.toArray) (m.refresh (.fixed w') x.toArray) := by
    rw [hm, hm]
    exact (Coupled.refl _).bind fun _ _ _ ↦ .pure ⟨rfl, rfl⟩
  refine (evaluate_coupled (Session.Represented.shares w w') hkept).bind ?_
  rintro _ _ ⟨rfl, rfl⟩
  have hset : ∀ s t : Session ω α, Session.Represented w w' s t →
      Session.Represented w w' (s.weighted w) (t.weighted w') := by
    intro s t hst
    rw [hst.second]
    exact .weighted s w w'
  have hlift : (Run.lift (w.sized n) : Run ω α n _) = pure P := by rw [hP]; rfl
  have hlift' : (Run.lift (w'.sized n) : Run ω α n _) = pure P' := by rw [hP']; rfl
  refine (Coupled.modify hset).bind fun _ _ _ ↦ ?_
  change Coupled _ _ _ (Run.lift (w.sized n)) (Run.lift (w'.sized n))
  rw [hlift, hlift']
  exact .pure hsame

theorem twins_represented (hm : m.KeepsFixed note) (hP : w.sized n = .ok P)
    (hP' : w'.sized n = .ok P') (hsame : P.SameDirections P') (f : Objective ω α n)
    (view : Vec α n → Tensor α) :
    Twins (Session.Represented w w') m m f f view view where
  shares := Session.Represented.shares w w'
  tolerances := rfl
  eta := rfl
  budget := rfl
  value := rfl
  both := rfl
  search := rfl
  notify it := by
    refine Coupled.modify fun s t hst ↦ ?_
    change Session.Represented w w' (m.notified view it s) (m.notified view it t)
    rw [notified_eq, notified_eq, hst.second]
    exact ⟨hst.first, rfl⟩
  prepare := prepare_represented hm hP hP' hsame
  closed h := ⟨h.first, by rw [h.second]; rfl⟩

/-- Two weightings lead to the same runs: with either of them, a run has the same outcome and
displays the same states, it leaves behind the same session but for the preconditioner, and it
visits the same iterates. -/
structure SameRuns (m : Minimizer ω α) (f : Objective ω α n) (view : Vec α n → Tensor α)
    (x : Vec α n) (σ₀ : Session ω α) (w w' : Weighting α) : Prop where
  report : (m.minimizeFrom f view x (σ₀.weighted w)).1 =
    (m.minimizeFrom f view x (σ₀.weighted w')).1
  session : (m.minimizeFrom f view x (σ₀.weighted w')).2 =
    (m.minimizeFrom f view x (σ₀.weighted w)).2.weighted w'
  visits (path : List (Iterate α n)) (verdict : Verdict) :
    (∃ σ, Visits m f view x (σ₀.weighted w) path verdict σ) ↔
      ∃ σ, Visits m f view x (σ₀.weighted w') path verdict σ

theorem sameRuns_of_sameDirections (hm : m.KeepsFixed note) (hP : w.sized n = .ok P)
    (hP' : w'.sized n = .ok P') (hsame : P.SameDirections P') (f : Objective ω α n)
    (view : Vec α n → Tensor α) (x : Vec α n) (σ₀ : Session ω α) :
    m.SameRuns f view x σ₀ w w' := by
  have htwins := twins_represented hm hP hP' hsame f view
  have htwins' := twins_represented hm hP' hP hsame.symm f view
  have hopened : Session.Represented w w' (m.opened (σ₀.weighted w)) (m.opened (σ₀.weighted w')) :=
    .weighted (m.opened σ₀) w w'
  have hopened' : Session.Represented w' w (m.opened (σ₀.weighted w')) (m.opened (σ₀.weighted w)) :=
    .weighted (m.opened σ₀) w' w
  obtain ⟨r, s, t, hrun, hrun', hst⟩ := htwins.exists_run x hopened
  have hlast := hst.second
  refine ⟨?_, ?_, fun path verdict ↦ ⟨?_, ?_⟩⟩
  · simp only [minimizeFrom, hrun, hrun', hlast]
    rfl
  · simp only [minimizeFrom, hrun, hrun', hlast]
    rfl
  · rintro ⟨σ, hvisits⟩
    obtain ⟨σ', hvisits', -⟩ := htwins.exists_visits hopened hvisits
    exact ⟨σ', hvisits'⟩
  · rintro ⟨σ, hvisits⟩
    obtain ⟨σ', hvisits', -⟩ := htwins'.exists_visits hopened' hvisits
    exact ⟨σ', hvisits'⟩

/-! ## Weights and their matrix -/

section Exact

variable {K : Type} [Field K] [LinearOrder K] [IsStrictOrderedRing K] {G : Grid K} {p : Fin n → K}

/-- **The representation of a preconditioner does not matter.** In exact arithmetic, for positive
weights of which the square roots are ones, for all objectives, with or without a state of their
own, starting points, line searches and options: the weights are accepted as an array with one axis,
and the matrix that has them on its diagonal as an array with two. Both lead to the same runs, with
the same reports and iterates. If all weights are 1, so does the preconditioner that does
nothing. -/
theorem sameRuns_diagonal_matrix {m : Minimizer ω (Exact G)} {note : Array (Exact G) → Eval ω Unit}
    (hm : m.KeepsFixed note) (hp : ∀ i, 0 < p i) (hsqrt : ∀ i, G.sqrt (p i) * G.sqrt (p i) = p i)
    (f : Objective ω (Exact G) n) (view : Vec (Exact G) n → Tensor (Exact G))
    (x : Vec (Exact G) n) (σ₀ : Session ω (Exact G)) :
    ∃ w w', Weighting.ofWeights? (.ofVec (Vec.num (G := G) p)) = .ok w ∧
      Weighting.ofMatrix? (Mat.diagonal (Vec.num (G := G) p)).toTensor = .ok w' ∧
      m.SameRuns f view x σ₀ w w' ∧
      (p = 1 → m.SameRuns f view x σ₀ .identity w ∧ m.SameRuns f view x σ₀ .identity w') := by
  have hdiagonal := Operator.diagonal_acts (G := G) hp
  have hmatrix := Operator.matrix_acts (G := G) (Operator.spd_diagonal hp)
  have hsized := Weighting.sized_diagonal (Vec.num (G := G) p)
  have hsized' := Weighting.sized_matrix (Mat.num (G := G) (Matrix.diagonal p))
    (Mat.num (Matrix.diagonal p)⁻¹)
  refine ⟨_, _, rfl, Weighting.ofMatrix?_diagonal hp hsqrt, ?_, ?_⟩
  · have hsame := hdiagonal.sameDirections hmatrix
    exact sameRuns_of_sameDirections hm hsized hsized' hsame f view x σ₀
  · rintro rfl
    have hidentity : (Operator.identity : Operator (Exact G) n).Acts (Matrix.diagonal 1) := by
      rw [Matrix.diagonal_one']
      exact Operator.identity_acts
    have hsame := hidentity.sameDirections hdiagonal
    have hsame' := hidentity.sameDirections hmatrix
    exact ⟨sameRuns_of_sameDirections hm rfl hsized hsame f view x σ₀,
      sameRuns_of_sameDirections hm rfl hsized' hsame' f view x σ₀⟩

end Exact

/-- The default minimizer, with a preconditioner that follows its own rule. -/
def followingMinimizer : Minimizer Unit (Exact Grid.rational) :=
  { defaultMinimizer with refresh := ownRefresh }

/-- Two iterations on `½ (x² + 3 y²)` from `(3, 1)` with the weights `(4, 9)` and with their matrix,
and with unit weights, with their matrix and without a preconditioner. -/
theorem sameRuns_diagonal_matrix_plane :
    let q : Quadratic (Exact Grid.rational) 2 := .num (Matrix.diagonal ![1, 3]) 0
    let f : Objective Unit (Exact Grid.rational) 2 := .ofFunctions q.value q.gradient
    let σ₀ : Session Unit (Exact Grid.rational) := { world := (), preconditioner := .identity }
    let iterations (w : Weighting (Exact Grid.rational)) :=
      (followingMinimizer.minimizeFrom f (⟨[2], ·⟩) (Vec.num ![3, 1])
        (σ₀.weighted w)).1.outcome.toOption.map Results.iterations
    (∃ w w', Weighting.ofWeights? (.ofVec (Vec.num ![4, 9])) = .ok w ∧
      Weighting.ofMatrix? (Mat.diagonal (Vec.num ![4, 9])).toTensor = .ok w' ∧
      iterations w = some 2 ∧ iterations w' = some 2) ∧
    ∃ w w', Weighting.ofWeights? (.ofVec (Vec.num (n := 2) 1)) = .ok w ∧
      Weighting.ofMatrix? (Mat.diagonal (Vec.num (n := 2) 1)).toTensor = .ok w' ∧
      iterations .identity = some 2 ∧ iterations w = some 2 ∧ iterations w' = some 2 := by
  intro q f σ₀ iterations
  have hkeeps : followingMinimizer.KeepsFixed fun _ ↦ pure () := keepsFixed_ownRefresh _ _
  constructor
  · obtain ⟨w, w', hw, hw', hsame, -⟩ := sameRuns_diagonal_matrix (p := ![4, 9]) hkeeps
      (by decide +kernel) (by decide +kernel) f (⟨[2], ·⟩) (Vec.num ![3, 1]) σ₀
    have hrun : iterations (.diagonal (Vec.num ![4, 9]).toArray) = some 2 := by decide +kernel
    obtain rfl : Weighting.diagonal (Vec.num ![4, 9]).toArray = w := Except.ok.inj hw
    refine ⟨_, w', hw, hw', hrun, ?_⟩
    simp only [iterations, ← hsame.report]
    exact hrun
  · obtain ⟨w, w', hw, hw', -, hone⟩ := sameRuns_diagonal_matrix (p := 1) hkeeps
      (by decide +kernel) (by decide +kernel) f (⟨[2], ·⟩) (Vec.num ![3, 1]) σ₀
    obtain ⟨hweights, hmatrix⟩ := hone rfl
    have hrun : iterations .identity = some 2 := by decide +kernel
    refine ⟨w, w', hw, hw', hrun, ?_, ?_⟩
    · simp only [iterations, ← hweights.report]
      exact hrun
    · simp only [iterations, ← hmatrix.report]
      exact hrun

end Minimizer

end NonlinearCG
