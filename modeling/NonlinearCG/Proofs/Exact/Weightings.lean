import Mathlib
import NonlinearCG.Proofs.Exact.Cholesky

/-!
# The three operations of a weighting

A weighting is applied to a vector, and in two inner products. In exact arithmetic the three
operations describe one operator if that operator is symmetric and what stands for its inverse is
the inverse (`Weighting.Coherent`). The identity and weights that are not zero are of this form
without further ado. A matrix carries its inverse along, and the two have to stay in step when the
matrix is replaced: a replacement either puts both in place, or is refused and puts neither. So
after any calls a weighting is what its last accepted matrix makes it
(`Weighting.ofMatrix?_lastAccepted`).

The inverse belongs to the symmetric matrix in the lower triangle. The test of symmetry has a
tolerance, so this need not be the matrix itself, and the three operations agree if it is.
-/

namespace NonlinearCG

open Matrix

/-! ## Vectors of the right length -/

section Fits

variable {α : Type} {n : ℕ} {w : Weighting α} {P : Operator α n}

/-- On vectors of length `n` the weighting is an operator. -/
structure Weighting.Fits (w : Weighting α) (P : Operator α n) : Prop where
  sized : w.sized n = .ok P
  meetingLength : w.meetingLength n = n

namespace Weighting.Fits

theorem identity : (.identity : Weighting α).Fits (.identity : Operator α n) := ⟨rfl, rfl⟩

theorem matrix (M inverse : Mat α n) :
    (.matrix M inverse : Weighting α).Fits (.matrix M inverse) :=
  ⟨sized_matrix M inverse, rfl⟩

theorem diagonal (p : Vec α n) : (.diagonal p.toArray : Weighting α).Fits (.diagonal p) := by
  refine ⟨sized_diagonal p, ?_⟩
  rw [Weighting.meetingLength, p.size_toArray, ite_self]

theorem pair (h : w.Fits P) (product : {n : ℕ} → Operator α n → Vec α n → Vec α n → α)
    (a b : Vec α n) : w.pair product a.toArray b.toArray = .ok (product P a b) := by
  have hmeet : w.meetingLength b.toArray.size = n := by rw [b.size_toArray, h.meetingLength]
  have hspread : Vec.spreadTo n b.toArray = .ok b := dif_pos b.size_toArray
  unfold Weighting.pair
  dsimp only
  generalize w.meetingLength b.toArray.size = m at hmeet
  subst hmeet
  rw [h.sized, hspread]
  exact dif_pos a.size_toArray

theorem forward [Scalar α] (h : w.Fits P) (v : Vec α n) :
    w.forward v.toArray = .ok (P.forward v).toArray := by
  obtain ⟨a, rfl⟩ := v
  rw [Weighting.forward, h.sized]
  rfl

end Weighting.Fits

end Fits

variable {K : Type} [Field K] [LinearOrder K] {G : Grid K} {n : ℕ}

namespace Weighting

/-! ## One operator -/

/-- On vectors of `n` numbers the three operations of the weighting describe one operator: it takes
`a` to its image, the inner product that it weights is that of the image, on either side, and the
inner product weighted by its inverse undoes it. -/
structure Coherent (w : Weighting (Exact G)) (n : ℕ) : Prop where
  exists_image (a : Fin n → K) : ∃ u : Fin n → K,
    w.forward (Vec.num a).toArray = .ok (Vec.num u).toArray ∧
    ∀ b : Fin n → K,
      w.forwardDot (Vec.num a).toArray (Vec.num b).toArray = .ok (.num (u ⬝ᵥ b)) ∧
      w.forwardDot (Vec.num b).toArray (Vec.num a).toArray = .ok (.num (u ⬝ᵥ b)) ∧
      w.inverseDot (Vec.num u).toArray (Vec.num b).toArray = .ok (.num (a ⬝ᵥ b))

/-- Both inner products of a vector of `n` numbers with itself are positive, apart from zero. -/
structure Definite (w : Weighting (Exact G)) (n : ℕ) : Prop where
  forwardDot {a : Fin n → K} (ha : a ≠ 0) :
    ∃ r, 0 < r ∧ w.forwardDot (Vec.num a).toArray (Vec.num a).toArray = .ok (.num r)
  inverseDot {a : Fin n → K} (ha : a ≠ 0) :
    ∃ r, 0 < r ∧ w.inverseDot (Vec.num a).toArray (Vec.num a).toArray = .ok (.num r)

variable [IsStrictOrderedRing K] {w : Weighting (Exact G)} {P : Operator (Exact G) n}

theorem Fits.coherent (h : w.Fits P) {M N : Matrix (Fin n) (Fin n) K} (hM : M.IsSymm)
    (hinverse : M * N = 1) (hforward : ∀ v, P.forward (Vec.num v) = Vec.num (M *ᵥ v))
    (hbackward : ∀ v, P.backward (Vec.num v) = Vec.num (N *ᵥ v)) : w.Coherent n := by
  have hdot (a b : Fin n → K) : (M *ᵥ a) ⬝ᵥ b = a ⬝ᵥ M *ᵥ b := by
    rw [dotProduct_mulVec, ← mulVec_transpose, hM.eq]
  refine ⟨fun a ↦ ⟨M *ᵥ a, ?_, fun b ↦ ⟨?_, ?_, ?_⟩⟩⟩
  · rw [h.forward, hforward]
  · rw [Weighting.forwardDot, h.pair, Operator.forwardDot, hforward, Vec.dot_num, hdot]
  · rw [Weighting.forwardDot, h.pair, Operator.forwardDot, hforward, Vec.dot_num, dotProduct_comm]
  · rw [Weighting.inverseDot, h.pair, Operator.inverseDot, hbackward, Vec.dot_num, hdot,
      mulVec_mulVec, hinverse, one_mulVec]

theorem coherent_identity (n : ℕ) : (identity : Weighting (Exact G)).Coherent n := by
  have hone (v : Fin n → K) : Vec.num (G := G) v = Vec.num ((1 : Matrix (Fin n) (Fin n) K) *ᵥ v) :=
    by rw [one_mulVec]
  exact Fits.identity.coherent isSymm_one (one_mul 1) hone hone

/-- Weights need not be positive to be coherent. -/
theorem coherent_diagonal {p : Fin n → K} (hp : ∀ i, p i ≠ 0) :
    (diagonal (Vec.num (G := G) p).toArray).Coherent n := by
  refine (Fits.diagonal _).coherent (isSymm_diagonal p) ?_ (Operator.diagonal_forward p)
    (Operator.diagonal_backward hp)
  rw [diagonal_mul_diagonal, ← diagonal_one]
  exact congrArg _ (funext fun i ↦ mul_inv_cancel₀ (hp i))

theorem Fits.coherent_of_acts {M : Matrix (Fin n) (Fin n) K} (h : w.Fits P) (hP : P.Acts M) :
    w.Coherent n := by
  have hunit := (isUnit_iff_isUnit_det M).mp hP.spd.isUnit
  exact h.coherent hP.spd.symm (mul_nonsing_inv M hunit) hP.forward hP.backward

theorem Fits.definite_of_acts {M : Matrix (Fin n) (Fin n) K} (h : w.Fits P) (hP : P.Acts M) :
    w.Definite n where
  forwardDot ha := ⟨_, hP.spd.pos _ ha, by rw [Weighting.forwardDot, h.pair, hP.forwardDot]⟩
  inverseDot ha := ⟨_, hP.spd.inv.pos _ ha, by rw [Weighting.inverseDot, h.pair, hP.inverseDot]⟩

/-! ## Weights that are overwritten -/

omit [LinearOrder K] [IsStrictOrderedRing K] in
/-- Weights that are overwritten with numbers other than zero are such weights. -/
theorem exists_of_reweighted {f : Exact G → Exact G} {x p : Array (Exact G)}
    {w : Weighting (Exact G)} (hf : ∀ v ∈ x, ∃ c, c ≠ 0 ∧ f v = .num c)
    (h : (diagonal p).reweighted f x = .ok w) :
    ∃ q : Fin p.size → K, (∀ i, q i ≠ 0) ∧ w = diagonal (Vec.num q).toArray := by
  rcases hspread : Vec.spreadTo p.size x with e | v
  · rw [reweighted, hspread] at h
    cases h
  · rw [reweighted, hspread] at h
    cases h
    choose c hc hfc using fun i : Fin p.size ↦ hf v[i] (Vec.mem_of_spreadTo hspread i)
    refine ⟨c, hc, congrArg (fun q : Vec (Exact G) p.size ↦ diagonal q.toArray) ?_⟩
    refine Vector.ext fun i hi ↦ ?_
    rw [Vector.getElem_map, Vec.getElem_num]
    exact hfc ⟨i, hi⟩

theorem coherent_of_reweighted {f : Exact G → Exact G} {x p : Array (Exact G)}
    {w : Weighting (Exact G)} (hf : ∀ v ∈ x, ∃ c, c ≠ 0 ∧ f v = .num c)
    (h : (diagonal p).reweighted f x = .ok w) : w.Coherent p.size := by
  obtain ⟨q, hq, rfl⟩ := exists_of_reweighted hf h
  exact coherent_diagonal hq

/-! ## Matrices that are replaced -/

section Replacement

variable {α : Type} [Scalar α] {w : Weighting α} {t : Tensor α}

theorem run_setMatrix_ok {w' : Weighting α} (h : ofMatrix? t = .ok w') (w : Weighting α) :
    (setMatrix t).run w = (.ok (), w') := by
  rw [setMatrix, h]
  rfl

theorem run_setMatrix_error {e : PreconditionerError} (h : ofMatrix? t = .error e)
    (w : Weighting α) : (setMatrix t).run w = (.error e, w) := by
  rw [setMatrix, h]
  rfl

/-- The weighting after several calls, some of which may have been refused. -/
def replaced (w : Weighting α) (ts : List (Tensor α)) : Weighting α :=
  ts.foldl (fun w t ↦ ((setMatrix t).run w).2) w

/-- The last array that was accepted, from one that was at first. -/
def lastAccepted (t₀ : Tensor α) (ts : List (Tensor α)) : Tensor α :=
  (ts.filter fun t ↦ (ofMatrix? t).isOk).getLastD t₀

theorem ofMatrix?_lastAccepted {t₀ : Tensor α} {w₀ : Weighting α} (h : ofMatrix? t₀ = .ok w₀)
    (ts : List (Tensor α)) : ofMatrix? (lastAccepted t₀ ts) = .ok (w₀.replaced ts) := by
  induction ts generalizing t₀ w₀ with
  | nil => exact h
  | cons t ts ih =>
    rcases ht : ofMatrix? t with e | w
    · have hcons : lastAccepted t₀ (t :: ts) = lastAccepted t₀ ts := by
        rw [lastAccepted, List.filter_cons_of_neg (by simp [ht, Except.isOk, Except.toBool])]
        rfl
      rw [hcons, replaced, List.foldl_cons, run_setMatrix_error ht]
      exact ih h
    · have hcons : lastAccepted t₀ (t :: ts) = lastAccepted t ts := by
        rw [lastAccepted, List.filter_cons_of_pos (by simp [ht, Except.isOk, Except.toBool]),
          List.getLastD_cons]
        rfl
      rw [hcons, replaced, List.foldl_cons, run_setMatrix_ok ht]
      exact ih ht

theorem lastAccepted_mem (t₀ : Tensor α) (ts : List (Tensor α)) :
    lastAccepted t₀ ts ∈ t₀ :: ts := by
  have hlast : lastAccepted t₀ ts ∈ t₀ :: ts.filter fun t ↦ (ofMatrix? t).isOk :=
    List.getLastD_mem_cons
  rcases List.mem_cons.mp hlast with hfirst | hlater
  · rw [hfirst]
    exact List.mem_cons_self
  · exact List.mem_cons_of_mem _ (List.mem_filter.mp hlater).1

end Replacement

omit [IsStrictOrderedRing K] in
theorem allFinite_toTensor (M : Matrix (Fin n) (Fin n) K) :
    (Mat.num (G := G) M).toTensor.entries.allFinite = true := by
  simp [Vec.allFinite, Mat.toTensor]

theorem exists_num_of_ofTensor? {t : Tensor (Exact G)} (hfinite : t.entries.allFinite = true)
    {B : (n : ℕ) × Mat (Exact G) n} (h : Mat.ofTensor? t = some B) :
    ∃ (n : ℕ) (M : Matrix (Fin n) (Fin n) K), B = ⟨n, Mat.num M⟩ := by
  obtain ⟨shape, entries⟩ := t
  have hentry : ∀ k, ∃ c : K, entries.toArray.getD k default = .num c := by
    intro k
    obtain ⟨a, ha⟩ : ∃ a, entries = Vec.num a := Vec.allFinite_iff.mp hfinite
    rw [ha, Array.getD]
    split_ifs with hk
    · rw [Vector.size_toArray] at hk
      exact ⟨a ⟨k, hk⟩, Vec.getElem_num a k hk⟩
    · exact ⟨0, Exact.zero_eq⟩
  choose c hc using hentry
  rcases shape with _ | ⟨m, _ | ⟨n, _ | _⟩⟩
  · cases h
  · cases h
  · simp only [Mat.ofTensor?] at h
    split_ifs at h with hmn
    cases h
    refine ⟨n, Matrix.of fun i j ↦ c (i * n + j), congrArg (Sigma.mk n) ?_⟩
    refine Mat.ext_entry fun i j ↦ ?_
    rw [Mat.entry_ofFn, hc, Mat.entry_num]
    rfl
  · cases h

/-- What is accepted among the arrays of numbers: square matrices that pass the test of symmetry, if
the symmetric matrix in the lower triangle is positive definite. The inverse is that of the
latter. -/
theorem exists_of_ofMatrix? (hsqrt : ∀ x, 0 < x → G.sqrt x * G.sqrt x = x) {t : Tensor (Exact G)}
    {w : Weighting (Exact G)} (hfinite : t.entries.allFinite = true) (h : ofMatrix? t = .ok w) :
    ∃ (n : ℕ) (M : Matrix (Fin n) (Fin n) K), Mat.ofTensor? t = some ⟨n, Mat.num M⟩ ∧
      SPD (lowerMirror M) ∧ w = matrix (Mat.num M) (Mat.num (lowerMirror M)⁻¹) := by
  rcases htensor : Mat.ofTensor? t with _ | B
  · simp only [ofMatrix?, htensor] at h
    cases h
  · obtain ⟨n, M, rfl⟩ := exists_num_of_ofTensor? hfinite htensor
    simp only [ofMatrix?, htensor] at h
    rcases Mat.choleskyInverse_num hsqrt M with ⟨hspd, hinverse⟩ | ⟨-, hnone⟩
    · rw [hinverse] at h
      split_ifs at h
      cases h
      exact ⟨n, M, rfl, hspd, rfl⟩
    · rw [hnone] at h
      split_ifs at h

/-- **One operator through all replacements.** A weighting starts with a symmetric positive definite
matrix of numbers, and any arrays of numbers are proposed in its place. It then has the last matrix
`M` that was accepted, and with it the inverse of the symmetric matrix in the lower triangle of `M`,
which is positive definite; a call that fails changes neither. If `M` is symmetric, the three
operations describe one operator, which is positive definite.

The three operations of the identity and of weights that are not zero describe one operator as well,
also after the weights have been overwritten. -/
theorem replaced_coherent (hsqrt : ∀ x, 0 < x → G.sqrt x * G.sqrt x = x)
    {M₀ : Matrix (Fin n) (Fin n) K} (hM₀ : SPD M₀) (ts : List (Tensor (Exact G)))
    (hts : ∀ t ∈ ts, t.entries.allFinite = true) :
    (∃ (w₀ : Weighting (Exact G)) (m : ℕ) (M : Matrix (Fin m) (Fin m) K),
      ofMatrix? (Mat.num M₀).toTensor = .ok w₀ ∧
      Mat.ofTensor? (lastAccepted (Mat.num M₀).toTensor ts) = some ⟨m, Mat.num M⟩ ∧
      SPD (lowerMirror M) ∧
      w₀.replaced ts = matrix (Mat.num M) (Mat.num (lowerMirror M)⁻¹) ∧
      (M.IsSymm → (w₀.replaced ts).Coherent m ∧ (w₀.replaced ts).Definite m)) ∧
    (∀ (t : Tensor (Exact G)) (w w' : Weighting (Exact G)) (e : PreconditionerError),
      (setMatrix t).run w = (.error e, w') → w' = w) ∧
    (∀ m, (identity : Weighting (Exact G)).Coherent m) ∧
    (∀ (m : ℕ) (p : Fin m → K), (∀ i, p i ≠ 0) →
      (diagonal (Vec.num (G := G) p).toArray).Coherent m) ∧
    ∀ (p x : Array (Exact G)) (f : Exact G → Exact G) (w : Weighting (Exact G)),
      (∀ v ∈ x, ∃ c, c ≠ 0 ∧ f v = .num c) → (diagonal p).reweighted f x = .ok w →
        w.Coherent p.size := by
  refine ⟨?_, ?_, coherent_identity, fun m p ↦ coherent_diagonal, fun p x f w ↦ ?_⟩
  · have h₀ := ofMatrix?_spd hsqrt hM₀
    have hfinite : ∀ t ∈ (Mat.num M₀).toTensor :: ts, t.entries.allFinite = true :=
      List.forall_mem_cons.mpr ⟨allFinite_toTensor M₀, hts⟩
    obtain ⟨m, M, htensor, hspd, hmatrix⟩ := exists_of_ofMatrix? hsqrt
      (hfinite _ (lastAccepted_mem _ ts)) (ofMatrix?_lastAccepted h₀ ts)
    refine ⟨_, m, M, h₀, htensor, hspd, hmatrix, fun hsymm ↦ ?_⟩
    rw [hmatrix, lowerMirror_eq hsymm]
    rw [lowerMirror_eq hsymm] at hspd
    have hfits := Fits.matrix (Mat.num (G := G) M) (Mat.num M⁻¹)
    have hacts := Operator.matrix_acts (G := G) hspd
    exact ⟨hfits.coherent_of_acts hacts, hfits.definite_of_acts hacts⟩
  · intro t w w' e hrun
    rcases h : ofMatrix? t with e' | w''
    · cases (run_setMatrix_error h w).symm.trans hrun
      rfl
    · cases (run_setMatrix_ok h w).symm.trans hrun
  · exact coherent_of_reweighted

/-- Of an indefinite matrix, a positive definite one and an array with one axis, proposed one after
the other, the second one remains. -/
theorem replaced_coherent_plane :
    let t₁ : Tensor (Exact Grid.real) := (Mat.num !![0, 1; 1, 0]).toTensor
    let t₂ : Tensor (Exact Grid.real) := (Mat.num (Matrix.diagonal ![4, 9])).toTensor
    let t₃ : Tensor (Exact Grid.real) := .ofVec (Vec.num ![1, 2])
    ∃ w₀, ofMatrix? (Mat.num (Matrix.diagonal ![1, 2])).toTensor = .ok w₀ ∧
      (w₀.replaced [t₁, t₂, t₃]).Coherent 2 ∧ (w₀.replaced [t₁, t₂, t₃]).Definite 2 := by
  intro t₁ t₂ t₃
  have hspd₀ : SPD (Matrix.diagonal ![(1 : ℝ), 2]) :=
    Operator.spd_diagonal fun i ↦ by fin_cases i <;> norm_num
  have hspd : SPD (Matrix.diagonal ![(4 : ℝ), 9]) :=
    Operator.spd_diagonal fun i ↦ by fin_cases i <;> norm_num
  have hfinite : ∀ t ∈ [t₁, t₂, t₃], t.entries.allFinite = true := by
    rintro _ (_ | ⟨_, _ | ⟨_, _ | ⟨_, ⟨⟩⟩⟩⟩)
    · exact allFinite_toTensor _
    · exact allFinite_toTensor _
    · exact Vec.allFinite_iff.mpr ⟨![1, 2], rfl⟩
  obtain ⟨⟨w₀, m, M, h₀, htensor, -, -, hcoherent⟩, -⟩ :=
    replaced_coherent Grid.real_sqrt hspd₀ _ hfinite
  have hlast : lastAccepted (Mat.num (Matrix.diagonal ![1, 2])).toTensor [t₁, t₂, t₃] = t₂ := by
    have hok : (ofMatrix? t₂).isOk = true := by rw [ofMatrix?_spd Grid.real_sqrt hspd]; rfl
    have hrefused : (ofMatrix? t₃).isOk = false := rfl
    simp only [lastAccepted, List.filter_cons, hok, hrefused, if_true, Bool.false_eq_true, if_false]
    split_ifs <;> rfl
  rw [hlast, Mat.ofTensor?_toTensor] at htensor
  obtain ⟨rfl, hnum⟩ := Sigma.mk.inj (Option.some.inj htensor)
  have hM : Matrix.diagonal ![4, 9] = M := by
    ext i j
    have hentry := congrArg (Mat.entry · i j) (eq_of_heq hnum)
    rwa [Mat.entry_num, Mat.entry_num, Exact.num_inj] at hentry
  refine ⟨w₀, h₀, hcoherent ?_⟩
  rw [← hM]
  exact isSymm_diagonal _

/-- A matrix that is symmetric to within the tolerance only is accepted, and its three operations do
not describe one operator. -/
theorem not_coherent_of_nearlySymmetric :
    let w₀ : Weighting (Exact Grid.rational) := matrix (Mat.num (n := 2) 1) (Mat.num 1)
    let t : Tensor (Exact Grid.rational) := (Mat.num !![1, 1 / 10 ^ 9; 0, 1]).toTensor
    ofMatrix? (Mat.num (n := 2) 1).toTensor = .ok w₀ ∧ ((setMatrix t).run w₀).1.isOk = true ∧
      ¬(w₀.replaced [t]).Coherent 2 := by
  intro w₀ t
  refine ⟨?_, by decide +kernel, fun h ↦ ?_⟩
  · have haccepted := ofMatrix?_diagonal (G := Grid.rational) (p := fun _ : Fin 2 ↦ 1)
      (fun _ ↦ one_pos) (fun _ ↦ by decide +kernel)
    rwa [Mat.diagonal_num, diagonal_one, inv_one] at haccepted
  · obtain ⟨u, -, hu⟩ := h.exists_image ![1, 0]
    obtain ⟨hleft, hright, -⟩ := hu ![0, 1]
    have hne : ((w₀.replaced [t]).forwardDot (Vec.num ![1, 0]).toArray
        (Vec.num ![0, 1]).toArray).toOption ≠ ((w₀.replaced [t]).forwardDot
        (Vec.num ![0, 1]).toArray (Vec.num ![1, 0]).toArray).toOption := by
      decide +kernel
    rw [hleft, hright] at hne
    exact hne rfl

end Weighting

end NonlinearCG
