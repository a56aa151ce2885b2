import Mathlib
import NonlinearCG.Proofs.LineSearch.Attempts
import NonlinearCG.Proofs.LineSearch.Stops
import NonlinearCG.Proofs.LineSearch.Tips
import NonlinearCG.Proofs.LineSearch.Verdicts

/-!
# The accounts of a search

A Hager–Zhang search evaluates value and slope together and nothing else, and it books every
evaluation: as an entry of the cache, or as a failure. The two bookings are apart from the
evaluation, so between them an evaluation is *pending*, and never more than one is (`Ledger`). The
first trial and the expansion carry a pending evaluation from one step of their loops to the next;
all other parts begin and end without one.

A search may also return while an evaluation is pending, in three ways (`Unrecorded`). So the number
of evaluations is that of the new entries and failures, and one more if it returned in one of these
ways. This holds for every type of scalars, since it does not matter what the search compares, and
for all objectives, caches and parameters.
-/

namespace NonlinearCG.HagerZhang

variable {ω α : Type} [Scalar α] {n : ℕ}

/-! ## Value and slope together

A search is the same for two functions that agree in the joint evaluation of value and slope. -/

section Both

variable {φ φ' : LineFunction ω α} (h : φ.both = φ'.both)

include h

omit [Scalar α] in
theorem sampleAt_congr (t : α) : Search.sampleAt φ t = Search.sampleAt φ' t := by
  rw [Search.sampleAt, Search.sampleAt, h]

theorem probe_congr (refusal : α → SearchError α) (t : α) :
    probe φ refusal t = probe φ' refusal t := by
  rw [probe, probe, sampleAt_congr h]

theorem bisect_congr (limit : α) (fuel : ℕ) (calls : Calls) (low high : Point α) :
    bisect φ limit fuel calls low high = bisect φ' limit fuel calls low high := by
  induction fuel generalizing calls low high with
  | zero => rw [bisect, bisect]
  | succ fuel ih =>
    rw [bisect, bisect]
    simp only [probe_congr h, ih]

theorem update_congr (limit : α) (low high mid : Point α) :
    update φ limit low high mid = update φ' limit low high mid := by
  simp only [update, bisectBetween, bisect_congr h]

theorem doubleSecant_congr (test : WolfeTest α) (low high : Point α) :
    doubleSecant φ test low high = doubleSecant φ' test low high := by
  simp only [doubleSecant, probe_congr h, update_congr h]

theorem reduce_congr (p : HagerZhang α) (attempts : ℕ) (calls : Calls) (s : Sample α) :
    reduce p φ attempts calls s = reduce p φ' attempts calls s := by
  induction attempts generalizing calls s with
  | zero => rw [reduce, reduce]
  | succ attempts ih =>
    rw [reduce, reduce]
    simp only [sampleAt_congr h, ih]

theorem retreat_congr (cold : α) (attempts : ℕ) (calls : Calls) (alphamax : α) (s : Sample α) :
    retreat φ cold attempts calls alphamax s = retreat φ' cold attempts calls alphamax s := by
  induction attempts generalizing calls alphamax s with
  | zero => rw [retreat, retreat]
  | succ attempts ih =>
    rw [retreat, retreat]
    simp only [sampleAt_congr h, ih]

theorem expand_congr (p : HagerZhang α) (alphamax : α) (tip : Point α) :
    expand p φ alphamax tip = expand p φ' alphamax tip := by
  simp only [expand, sampleAt_congr h, retreat_congr h]

theorem bracket_congr (p : HagerZhang α) (limit : α) (rounds : ℕ) (calls : Calls) (alphamax : α)
    (tip : Point α) :
    bracket p φ limit rounds calls alphamax tip = bracket p φ' limit rounds calls alphamax tip := by
  induction rounds generalizing calls alphamax tip with
  | zero => rw [bracket, bracket]
  | succ rounds ih =>
    rw [bracket, bracket]
    simp only [bisectBetween, bisect_congr h, expand_congr h, ih]

theorem approach_congr (p : HagerZhang α) (start : Sample α) (trial : α) (mayAccept : Bool) :
    approach p φ start trial mayAccept = approach p φ' start trial mayAccept := by
  simp only [approach, sampleAt_congr h, reduce_congr h, bracket_congr h]

theorem round_congr (p : HagerZhang α) (test : WolfeTest α) (low high : Point α) :
    round p φ test low high = round p φ' test low high := by
  simp only [round, doubleSecant_congr h, probe_congr h, update_congr h]

theorem narrow_congr (p : HagerZhang α) (test : WolfeTest α) (rounds : ℕ) (calls : Calls)
    (low high : Point α) :
    narrow p φ test rounds calls low high = narrow p φ' test rounds calls low high := by
  induction rounds generalizing calls low high with
  | zero => rw [narrow, narrow]
  | succ rounds ih =>
    rw [narrow, narrow]
    simp only [round_congr h, ih]

theorem step_congr (p : HagerZhang α) (trial : α) (mayAccept : Bool) :
    step p φ trial mayAccept = step p φ' trial mayAccept := by
  simp only [step, approach_congr h, narrow_congr h]

end Both

/-- A search calls neither the value nor the gradient of an objective on its own: it stays the same
with any others in their place. -/
theorem search_of_both (p : HagerZhang α) (f : Objective ω α n)
    (value : Vec α n → Eval ω α) (gradient : Vec α n → Eval ω (Vec α n)) (x s : Vec α n)
    (trial : α) (mayAccept : Bool) :
    (p.lineSearch : LineSearch ω α).search ⟨value, gradient, some f.both⟩ x s trial mayAccept =
      p.lineSearch.search f x s trial mayAccept := by
  have hboth : (LineFunction.ofObjective ⟨value, gradient, some f.both⟩ x s).both =
      (LineFunction.ofObjective f x s).both := rfl
  simp only [lineSearch, step_congr hboth]

/-! ## The ledger -/

/-- What a search has done on its bench since a first one, with the steps that it has evaluated in
order, and the evaluation that is still to be booked. -/
inductive Ledger (φ : LineFunction ω α) (b₀ : Bench ω α) :
    List α → Option (Sample α) → Bench ω α → Prop
  | opened : Ledger φ b₀ [] none b₀
  /-- Only one evaluation is pending at a time. -/
  | evaluated {steps : List α} {b : Bench ω α} {t : α} {r : α × α} {w : ω} :
      Ledger φ b₀ steps none b → (φ.both t).run b.world = (.ok r, w) →
      Ledger φ b₀ (steps ++ [t]) (some ⟨t, r.1, r.2⟩)
        { b with world := w, made := b.made + .ofBoth }
  /-- It is booked as a failure, -/
  | refused {steps : List α} {s : Sample α} {b : Bench ω α} : Ledger φ b₀ steps (some s) b →
      Ledger φ b₀ steps none { b with cache := b.cache.fail 1 }
  /-- or as an entry of the cache. -/
  | kept {steps : List α} {s : Sample α} {b : Bench ω α} : Ledger φ b₀ steps (some s) b →
      Ledger φ b₀ steps none { b with cache := b.cache.push s }
  | reported {steps : List α} {pending : Option (Sample α)} {b : Bench ω α} (e : Event α) :
      Ledger φ b₀ steps pending b → Ledger φ b₀ steps pending { b with log := b.log.push e }

/-- A bench with a ledger since a first one, and the evaluation that is still to be booked. -/
def Booked (φ : LineFunction ω α) (b₀ : Bench ω α) (pending : Option (Sample α)) (b : Bench ω α) :
    Prop :=
  ∃ steps, Ledger φ b₀ steps pending b

section Ledger

variable {φ : LineFunction ω α} {b₀ b : Bench ω α} {steps : List α} {pending : Option (Sample α)}

omit [Scalar α] in
theorem Ledger.made_eq (h : Ledger φ b₀ steps pending b) :
    b.made = b₀.made + ⟨steps.length, steps.length⟩ := by
  induction h with
  | opened => rfl
  | evaluated _ _ ih =>
    rw [ih, List.length_append, add_assoc]
    rfl
  | refused _ ih | kept _ ih | reported _ _ ih => exact ih

omit [Scalar α] in
/-- **The balance.** The evaluations are the new entries of the cache, the new failures, and the one
that is pending. -/
theorem Ledger.balance (h : Ledger φ b₀ steps pending b) :
    ∃ (added : Array (Sample α)) (refused : ℕ),
      b.cache.samples = b₀.cache.samples ++ added ∧ b.cache.failures = b₀.cache.failures + refused ∧
      steps.length = added.size + refused + pending.elim 0 fun _ ↦ 1 := by
  induction h with
  | opened => exact ⟨#[], 0, (Array.append_empty ..).symm, rfl, rfl⟩
  | evaluated _ _ ih =>
    obtain ⟨added, refused, hsamples, hfailures, hlength⟩ := ih
    refine ⟨added, refused, hsamples, hfailures, ?_⟩
    rw [List.length_append, hlength]
    rfl
  | refused _ ih =>
    obtain ⟨added, refused, hsamples, hfailures, hlength⟩ := ih
    refine ⟨added, refused + 1, hsamples, ?_, hlength⟩
    change _ + 1 = _
    rw [hfailures, Nat.add_assoc]
  | @kept _ s _ _ ih =>
    obtain ⟨added, refused, hsamples, hfailures, hlength⟩ := ih
    refine ⟨added.push s, refused, ?_, hfailures, ?_⟩
    · rw [Cache.push, hsamples, Array.push_append]
    · rw [Array.size_push, hlength]
      change added.size + refused + 1 = added.size + 1 + refused + 0
      omega
  | reported _ _ ih => exact ih

/-- Evaluations of value and gradient at points, in this order, take the world of an objective from
one state to another. -/
inductive Evaluates (f : Objective ω α n) (w₀ : ω) : List (Vec α n) → ω → Prop
  | none : Evaluates f w₀ [] w₀
  | snoc {points : List (Vec α n)} {x : Vec α n} {r : α × Vec α n} {w w' : ω} :
      Evaluates f w₀ points w → (f.both x).run w = (.ok r, w') →
      Evaluates f w₀ (points ++ [x]) w'

omit [Scalar α] in
theorem Evaluates.tally_eq {f : Objective ω α n} {w₀ w : ω} {points : List (Vec α n)}
    (h : Evaluates f w₀ points w) {tally : ω → Calls} (hf : f.Tallies tally) :
    tally w = tally w₀ + ⟨points.length, points.length⟩ := by
  induction h with
  | none => rfl
  | snoc _ hrun ih =>
    rw [hf.both hrun, ih, List.length_append, add_assoc]
    rfl

theorem Ledger.evaluates {f : Objective ω α n} {x s : Vec α n}
    {b₀ b : Bench (Trial ω α n) α} (h : Ledger (.ofObjective f x s) b₀ steps pending b) :
    Evaluates f b₀.world.world (steps.map (Vec.along x s)) b.world.world := by
  induction h with
  | opened => exact .none
  | evaluated _ hrun ih =>
    obtain ⟨g, hboth, -⟩ := LineFunction.run_both_ofObjective hrun
    rw [List.map_append]
    exact ih.snoc hboth
  | refused _ ih | kept _ ih | reported _ _ ih => exact ih

end Ledger

/-! ## Parts that book what they evaluate -/

/-- A part of a search that begins with one evaluation pending, or with none, has booked its
evaluations but for one, or for none, where it returns. -/
def Books {A : Type} (φ : LineFunction ω α) (b₀ : Bench ω α) (before : Option (Sample α))
    (act : Search ω α A) (after : A → Option (Sample α)) : Prop :=
  ∀ b, Booked φ b₀ before b →
    Meets act b (fun a b' ↦ Booked φ b₀ (after a) b') fun _ _ ↦ True

section Rules

variable {A B : Type} {φ : LineFunction ω α} {b₀ : Bench ω α} {before : Option (Sample α)}
  {act : Search ω α A} {after : A → Option (Sample α)}

omit [Scalar α]

theorem Books.bind {f : A → Search ω α B} {after' : B → Option (Sample α)}
    (h : Books φ b₀ before act after) (hf : ∀ a, Books φ b₀ (after a) (f a) after') :
    Books φ b₀ before (act >>= f) after' :=
  fun b hb ↦ (h b hb).bind fun a b' hb' ↦ hf a b' hb'

theorem books_pure {a : A} (h : after a = before) :
    Books φ b₀ before (pure a : Search ω α A) after := by
  intro b hb
  rw [← h] at hb
  exact Meets.pure hb

theorem books_throw (e : Fault α) : Books φ b₀ before (throw e : Search ω α A) after :=
  fun _ _ ↦ Meets.throw trivial

theorem books_lift (r : Except Breakdown A) :
    Books φ b₀ before (Search.lift r) fun _ ↦ before := by
  intro b hb
  refine (Search.meets_lift r b).imp ?_ fun _ _ _ ↦ trivial
  rintro a _ ⟨-, rfl⟩
  exact hb

theorem books_cached (i : ℕ) : Books φ b₀ before (Search.cached i) fun _ ↦ before := by
  intro b hb
  refine (Search.meets_cached i b).imp ?_ fun _ _ _ ↦ trivial
  rintro pt _ ⟨rfl, -⟩
  exact hb

theorem books_sampleAt (t : α) : Books φ b₀ none (Search.sampleAt φ t) some := by
  rintro b ⟨steps, hledger⟩
  refine (Search.meets_sampleAt φ t b).imp ?_ fun _ _ _ ↦ trivial
  rintro s _ ⟨rfl, w, hrun, rfl⟩
  exact ⟨_, hledger.evaluated hrun⟩

theorem books_countFailure (s : Sample α) :
    Books φ b₀ (some s) Search.countFailure fun _ ↦ none := by
  rintro b ⟨steps, hledger⟩
  exact ⟨steps, hledger.refused⟩

theorem books_keep (s : Sample α) : Books φ b₀ (some s) (Search.keep s) fun _ ↦ none := by
  rintro b ⟨steps, hledger⟩
  exact ⟨steps, hledger.kept⟩

end Rules

section Parts

variable (φ : LineFunction ω α) (b₀ : Bench ω α)

theorem books_probe (refusal : α → SearchError α) (t : α) :
    Books φ b₀ none (probe φ refusal t) fun _ ↦ none := by
  refine (books_sampleAt t).bind fun s ↦ ?_
  split_ifs
  · exact books_keep s
  · exact books_throw _

theorem books_bisect (limit : α) (fuel : ℕ) (calls : Calls) (low high : Point α) :
    Books φ b₀ none (bisect φ limit fuel calls low high) fun _ ↦ none := by
  induction fuel generalizing calls low high with
  | zero =>
    rw [bisect]
    split_ifs
    · exact books_throw _
    · exact books_pure rfl
  | succ fuel ih =>
    rw [bisect]
    split_ifs
    · refine (books_probe φ b₀ _ _).bind fun mid ↦ ?_
      split_ifs
      · exact books_pure rfl
      · exact ih _ mid high
      · exact ih _ low mid
    · exact books_pure rfl

theorem books_update (limit : α) (low high mid : Point α) :
    Books φ b₀ none (update φ limit low high mid) fun _ ↦ none := by
  rw [update]
  split_ifs
  · exact books_pure rfl
  · exact books_pure rfl
  · exact books_pure rfl
  · exact books_bisect φ b₀ limit _ _ low mid

theorem books_doubleSecant (test : WolfeTest α) (low high : Point α) :
    Books φ b₀ none (doubleSecant φ test low high) fun _ ↦ none := by
  rw [doubleSecant]
  split_ifs
  · refine (books_lift _).bind fun c ↦ ?_
    refine (books_probe φ b₀ _ c).bind fun mid ↦ ?_
    refine (books_lift _).bind fun accepted ↦ ?_
    split_ifs
    · exact books_pure rfl
    refine (books_update φ b₀ _ low high mid).bind fun r ↦ ?_
    refine (books_lift _).bind fun c' ↦ ?_
    split_ifs
    · refine (books_probe φ b₀ _ c').bind fun mid' ↦ ?_
      refine (books_lift _).bind fun accepted' ↦ ?_
      split_ifs
      · exact books_pure rfl
      · exact (books_update φ b₀ _ _ _ mid').bind fun _ ↦ books_pure rfl
    · exact books_pure rfl
  · exact books_throw _

theorem books_round (p : HagerZhang α) (test : WolfeTest α) (low high : Point α) :
    Books φ b₀ none (round p φ test low high) fun _ ↦ none := by
  rw [round]
  split_ifs
  · exact books_pure rfl
  refine (books_doubleSecant φ b₀ test low high).bind fun r ↦ ?_
  obtain ⟨point | ⟨low', high'⟩, calls⟩ := r
  · exact books_pure rfl
  · dsimp only
    split_ifs
    · exact books_pure rfl
    · exact books_pure rfl
    · refine (books_probe φ b₀ _ _).bind fun mid ↦ ?_
      exact (books_update φ b₀ _ low' high' mid).bind fun _ ↦ books_pure rfl

theorem books_narrow (p : HagerZhang α) (test : WolfeTest α) (rounds : ℕ) (calls : Calls)
    (low high : Point α) :
    Books φ b₀ none (narrow p φ test rounds calls low high) fun _ ↦ none := by
  induction rounds generalizing calls low high with
  | zero => exact books_throw _
  | succ rounds ih =>
    rw [narrow]
    refine (books_round φ b₀ p test low high).bind fun r ↦ ?_
    obtain ⟨t | ⟨low, high⟩, more⟩ := r
    · exact books_pure rfl
    · exact ih _ low high

theorem books_lowEnd (limit : α) (i : ℕ) : Books φ b₀ none (lowEnd limit i) fun _ ↦ none := by
  induction i with
  | zero => exact books_cached 0
  | succ i ih =>
    rw [lowEnd]
    refine (books_cached i).bind fun s ↦ ?_
    split_ifs
    · exact books_pure rfl
    · exact ih

theorem books_reduce (p : HagerZhang α) (attempts : ℕ) (calls : Calls) (s : Sample α) :
    Books φ b₀ (some s) (reduce p φ attempts calls s) fun r ↦ some r.1 := by
  induction attempts generalizing calls s with
  | zero => exact books_pure rfl
  | succ attempts ih =>
    rw [reduce]
    split_ifs
    · exact books_pure rfl
    · refine (books_countFailure s).bind fun _ ↦ ?_
      exact (books_sampleAt _).bind fun s' ↦ ih _ s'

theorem books_retreat (cold : α) (attempts : ℕ) (calls : Calls) (alphamax : α) (s : Sample α) :
    Books φ b₀ (some s) (retreat φ cold attempts calls alphamax s)
      fun r ↦ some r.1.sample := by
  induction attempts generalizing calls alphamax s with
  | zero => exact books_pure rfl
  | succ attempts ih =>
    rw [retreat]
    split_ifs
    · refine (books_countFailure s).bind fun _ ↦ ?_
      exact (books_sampleAt _).bind fun s' ↦ ih _ _ s'
    · exact books_pure rfl

end Parts

/-! ## Expansions -/

section Expansions

variable {p : HagerZhang α} {φ : LineFunction ω α} {alphamax : α} {tip : Point α}
  {b b' : Bench ω α}

/-- The expansion from a tip evaluates at a further step, and retreats from there. -/
def Expands (p : HagerZhang α) (φ : LineFunction ω α) (alphamax : α) (tip : Point α)
    (b : Bench ω α) (r : Retreat α) (calls : Calls) (b' : Bench ω α) : Prop :=
  ∃ c first b₁, expandedStep p alphamax tip.step = some c ∧
    (Search.sampleAt φ c).run b = (.ok first, b₁) ∧
    (retreat φ tip.step (finiteAttempts - 1) .ofBoth alphamax first).run b₁ = (.ok (r, calls), b')

/-- What an expansion does with the last sample of its retreat. -/
def judge (tip : Point α) (r : Retreat α) (calls : Calls) :
    Search ω α (Expansion α × Calls) := do
  if !finite r.sample then return (.ended tip.step, calls)
  if r.sample.slope < 0.0 && r.sample.step == r.alphamax then
    if r.attempts = 0 then
      Search.report
        (.expansionExhausted r.sample.step r.alphamax r.sample.value r.sample.slope)
    return (.ended r.sample.step, calls)
  return (.reached (← Search.keep r.sample) r.alphamax, calls)

variable {r : Retreat α} {calls : Calls}

theorem Expands.run_expand (h : Expands p φ alphamax tip b r calls b') :
    (expand p φ alphamax tip).run b = (judge tip r calls).run b' := by
  obtain ⟨c, first, b₁, hstep, hsample, hretreat⟩ := h
  rw [expand, hstep]
  dsimp only
  rw [run_bind_ok hsample, run_bind_ok hretreat]
  rfl

/-- An expansion that returns has found no further step, or it has come to a last sample. -/
theorem exists_expands {e : Expansion α × Calls}
    (h : (expand p φ alphamax tip).run b = (.ok e, b')) :
    (e.1 = .ended tip.step ∧ b' = b) ∨ ∃ r calls b₁, Expands p φ alphamax tip b r calls b₁ ∧
      (judge tip r calls).run b₁ = (.ok e, b') := by
  rcases hstep : expandedStep p alphamax tip.step with _ | c
  · rw [expand, hstep] at h
    cases h
    exact Or.inl ⟨rfl, rfl⟩
  · have hexpand := h
    rw [expand, hstep] at h
    obtain ⟨first, b₁, hsample, hrest⟩ := run_bind_eq_ok h
    obtain ⟨⟨r, calls⟩, b₂, hretreat, -⟩ := run_bind_eq_ok hrest
    have hexpands : Expands p φ alphamax tip b r calls b₂ :=
      ⟨c, first, b₁, hstep, hsample, hretreat⟩
    exact Or.inr ⟨r, calls, b₂, hexpands, hexpands.run_expand.symm.trans hexpand⟩

variable {b₀ : Bench ω α}

theorem run_judge_of_not_finite (hfinite : finite r.sample = false) (b : Bench ω α) :
    (judge tip r calls).run b = (.ok (.ended tip.step, calls), b) := by
  rw [judge, hfinite]
  rfl

theorem exists_run_judge_of_edge (hb : Booked φ b₀ (some r.sample) b)
    (hfinite : finite r.sample = true) (hslope : r.sample.slope < 0.0)
    (hedge : (r.sample.step == r.alphamax) = true) :
    ∃ b', (judge tip r calls).run b = (.ok (.ended r.sample.step, calls), b') ∧
      Booked φ b₀ (some r.sample) b' := by
  obtain ⟨steps, hledger⟩ := hb
  rw [judge]
  simp only [hfinite, hslope, hedge, Bool.not_true, Bool.false_eq_true, if_false, decide_true,
    Bool.and_self, if_true]
  split_ifs
  · exact ⟨_, rfl, steps, hledger.reported _⟩
  · exact ⟨_, rfl, steps, hledger⟩

/-- The last sample of an expansion is kept, unless it is one of these two. -/
theorem judge_cases {e : Expansion α × Calls} (hb : Booked φ b₀ (some r.sample) b)
    (h : (judge tip r calls).run b = (.ok e, b')) :
    (e.1 = .ended tip.step ∧ finite r.sample = false ∧ Booked φ b₀ (some r.sample) b') ∨
      (e.1 = .ended r.sample.step ∧ finite r.sample = true ∧ r.sample.slope < 0.0 ∧
        (r.sample.step == r.alphamax) = true ∧ Booked φ b₀ (some r.sample) b') ∨
      ∃ pt, e.1 = .reached pt r.alphamax ∧ Booked φ b₀ none b' := by
  by_cases hfinite : finite r.sample = true
  · by_cases hedge : r.sample.slope < 0.0 ∧ (r.sample.step == r.alphamax) = true
    · obtain ⟨b₁, hrun, hb₁⟩ : ∃ b', (judge tip r calls).run b =
          (.ok (.ended r.sample.step, calls), b') ∧ Booked φ b₀ (some r.sample) b' :=
        exists_run_judge_of_edge hb hfinite hedge.1 hedge.2
      cases hrun.symm.trans h
      exact Or.inr (Or.inl ⟨rfl, hfinite, hedge.1, hedge.2, hb₁⟩)
    · have hinside : ¬(decide (r.sample.slope < 0.0) && r.sample.step == r.alphamax) = true := by
        simpa using hedge
      rw [judge] at h
      simp only [hfinite, hinside, Bool.not_true, Bool.false_eq_true, if_false] at h
      obtain ⟨pt, b₁, hkeep, hrest⟩ := run_bind_eq_ok h
      cases hrest
      exact Or.inr (Or.inr ⟨pt, rfl, (books_keep r.sample b hb).of_run_ok hkeep⟩)
  · rw [Bool.not_eq_true] at hfinite
    cases (run_judge_of_not_finite hfinite b).symm.trans h
    exact Or.inl ⟨rfl, hfinite, hb⟩

end Expansions

/-! ## The three exits -/

/-- The search from a trial step on a bench returns a step while an evaluation is pending. -/
inductive Unrecorded (p : HagerZhang α) (φ : LineFunction ω α) (start : Sample α) (trial : α)
    (mayAccept : Bool) (b₀ : Bench ω α) : α → Prop
  /-- No reduction of the trial step has led to a finite sample. -/
  | noFiniteTrial {first s : Sample α} {b b' : Bench ω α} {calls : Calls} :
      finite start = true → p.Admissible trial → (Search.sampleAt φ trial).run b₀ = (.ok first, b) →
      (reduce p φ (finiteAttempts - 1) .ofBoth first).run b = (.ok (s, calls), b') →
      finite s = false → Unrecorded p φ start trial mayAccept b₀ 0.0
  /-- An expansion has stayed without a finite sample, and the step before it is returned. -/
  | notExpanded {rounds : ℕ} {alphamax : α} {tip : Point α} {r : Retreat α} {calls : Calls}
      {b b' : Bench ω α} : AtTip p φ start trial mayAccept b₀ (rounds + 1) alphamax tip b →
      ¬0.0 ≤ tip.slope → ¬(p.test start).limit < tip.value →
      Expands p φ alphamax tip b r calls b' → finite r.sample = false →
      Unrecorded p φ start trial mayAccept b₀ tip.step
  /-- An expansion has come to a finite sample at the largest step that is left, and still leads
  downhill there. -/
  | atEdge {rounds : ℕ} {alphamax : α} {tip : Point α} {r : Retreat α} {calls : Calls}
      {b b' : Bench ω α} : AtTip p φ start trial mayAccept b₀ (rounds + 1) alphamax tip b →
      ¬0.0 ≤ tip.slope → ¬(p.test start).limit < tip.value →
      Expands p φ alphamax tip b r calls b' → finite r.sample = true → r.sample.slope < 0.0 →
      (r.sample.step == r.alphamax) = true →
      Unrecorded p φ start trial mayAccept b₀ r.sample.step

section Exits

variable {p : HagerZhang α} {φ : LineFunction ω α} {start : Sample α} {trial t : α}
  {mayAccept : Bool} {b₀ b b' : Bench ω α} {rounds : ℕ} {alphamax : α} {tip : Point α}
  {calls : Calls}

omit [Scalar α] in
theorem booked_start (φ : LineFunction ω α) (b₀ : Bench ω α) : Booked φ b₀ none b₀ :=
  ⟨[], .opened⟩

theorem Expands.booked {r : Retreat α} (hb : Booked φ b₀ none b)
    (h : Expands p φ alphamax tip b r calls b') : Booked φ b₀ (some r.sample) b' := by
  obtain ⟨c, first, b₁, -, hsample, hretreat⟩ := h
  have hfirst := (books_sampleAt c b hb).of_run_ok hsample
  exact (books_retreat φ b₀ _ _ _ _ first b₁ hfirst).of_run_ok hretreat

theorem booked_of_reduce {first s : Sample α} {b₁ b₂ : Bench ω α}
    (hsample : (Search.sampleAt φ trial).run b₀ = (.ok first, b₁))
    (hreduce : (reduce p φ (finiteAttempts - 1) .ofBoth first).run b₁ = (.ok (s, calls), b₂)) :
    Booked φ b₀ (some s) b₂ := by
  have hfirst := (books_sampleAt trial b₀ (booked_start φ b₀)).of_run_ok hsample
  exact (books_reduce φ b₀ p _ _ first b₁ hfirst).of_run_ok hreduce

/-- The first trial leaves an evaluation pending only if it finds no finite sample. -/
theorem booked_of_firstTrial {r : Expansion α × Calls}
    (h : (firstTrial p φ start trial mayAccept).run b₀ = (.ok r, b')) :
    (∃ s, r.1 = .ended 0.0 ∧ Unrecorded p φ start trial mayAccept b₀ 0.0 ∧
      Booked φ b₀ (some s) b') ∨ Booked φ b₀ none b' := by
  rw [firstTrial] at h
  simp only [Search.giveUp_bind] at h
  split_ifs at h with hstart hadmissible
  · obtain ⟨first, b₁, hsample, hrest⟩ := run_bind_eq_ok h
    obtain ⟨⟨s, calls⟩, b₂, hreduce, hrest⟩ := run_bind_eq_ok hrest
    have hlast := booked_of_reduce hsample hreduce
    by_cases hfinite : finite s = true
    · -- the sample is kept, and judging it does not evaluate
      simp only [hfinite, if_true] at hrest
      obtain ⟨tip, b₃, hkeep, hrest⟩ := run_bind_eq_ok hrest
      obtain ⟨steps, hledger⟩ := (books_keep s b₂ hlast).of_run_ok hkeep
      refine Or.inr ?_
      split_ifs at hrest
      · obtain ⟨accepted, b₄, htest, hrest⟩ := run_bind_eq_ok hrest
        obtain ⟨-, rfl⟩ := (Search.meets_lift _ _).of_run_ok htest
        cases accepted with
        | true =>
          cases hrest
          exact ⟨steps, hledger.reported _⟩
        | false =>
          cases hrest
          exact ⟨steps, hledger⟩
      · cases hrest
        exact ⟨steps, hledger⟩
    · -- the last sample is refused: it was evaluated, but it is not kept
      rw [Bool.not_eq_true] at hfinite
      simp only [hfinite, Bool.false_eq_true, if_false] at hrest
      obtain ⟨steps, hledger⟩ := hlast
      cases hrest
      exact Or.inl ⟨s, rfl, .noFiniteTrial hstart hadmissible hsample hreduce hfinite, steps,
        hledger.reported _⟩
  · cases h
  · cases h

theorem AtTip.booked (h : AtTip p φ start trial mayAccept b₀ rounds alphamax tip b) :
    Booked φ b₀ none b := by
  induction h with
  | first htrial =>
    rcases booked_of_firstTrial htrial with ⟨_, hended, -, -⟩ | hbooked
    · cases hended
    · exact hbooked
  | next _ _ _ hexpand ih =>
    rcases exists_expands hexpand with ⟨hended, -⟩ | ⟨r, _, _, hexpands, hjudge⟩
    · cases hended
    · -- an expansion that reaches a further point has kept its last sample
      rcases judge_cases (hexpands.booked ih) hjudge with ⟨hended, -⟩ | ⟨hended, -⟩ | ⟨_, -, hb⟩
      · cases hended
      · cases hended
      · exact hb

/-- An approach leaves an evaluation pending only at one of the exits. -/
theorem booked_of_approach {r : Bracketing α}
    (h : (approach p φ start trial mayAccept).run b₀ = (.ok (r, calls), b')) :
    (∃ t s, r = .ended t ∧ Unrecorded p φ start trial mayAccept b₀ t ∧ Booked φ b₀ (some s) b') ∨
      Booked φ b₀ none b' := by
  rcases exists_leads_of_approach h with ⟨t, rfl, htrial⟩ | ⟨_, _, tip, b, htip, hleads⟩
  · rcases booked_of_firstTrial htrial with ⟨s, hended, hexit, hb'⟩ | hb'
    · cases hended
      exact Or.inl ⟨0.0, s, rfl, hexit, hb'⟩
    · exact Or.inr hb'
  have hb := htip.booked
  cases hleads with
  | risen _ hlow => exact Or.inr ((books_lowEnd φ b₀ _ _ b hb).of_run_ok hlow)
  | crested _ _ hlow hbisect =>
    have hb₁ := (books_cached _ b hb).of_run_ok hlow
    exact Or.inr ((books_bisect φ b₀ _ _ _ _ _ _ hb₁).of_run_ok hbisect)
  | ended hslope hvalue hexpand =>
    rcases exists_expands hexpand with ⟨-, rfl⟩ | ⟨r, _, _, hexpands, hjudge⟩
    · exact Or.inr hb
    rcases judge_cases (hexpands.booked hb) hjudge with ⟨hended, hfinite, hb'⟩ |
      ⟨hended, hfinite, hdown, hedge, hb'⟩ | ⟨_, hreached, -⟩
    · cases hended
      exact Or.inl ⟨_, r.sample, rfl, .notExpanded htip hslope hvalue hexpands hfinite, hb'⟩
    · cases hended
      exact Or.inl ⟨_, r.sample, rfl, .atEdge htip hslope hvalue hexpands hfinite hdown hedge, hb'⟩
    · cases hreached

theorem booked_of_step (hstart : b₀.cache.get? 0 = some start)
    (h : (step p φ trial mayAccept).run b₀ = (.ok ⟨t, calls⟩, b')) :
    (∃ s, Unrecorded p φ start trial mayAccept b₀ t ∧ Booked φ b₀ (some s) b') ∨
      Booked φ b₀ none b' := by
  rw [step, run_bind_ok (Search.run_cached hstart)] at h
  obtain ⟨⟨r, calls'⟩, b₁, happroach, hrest⟩ := run_bind_eq_ok h
  rcases booked_of_approach happroach with ⟨t', s, rfl, hexit, hb₁⟩ | hb₁
  · -- narrowing does not begin
    cases hrest
    exact Or.inl ⟨s, hexit, hb₁⟩
  · cases r with
    | ended t' =>
      cases hrest
      exact Or.inr hb₁
    | bracket low high rounds =>
      exact Or.inr ((books_narrow φ b₀ p _ rounds calls' low high b₁ hb₁).of_run_ok hrest)

theorem AtTip.run_approach_of_ended
    (h : AtTip p φ start trial mayAccept b₀ (rounds + 1) alphamax tip b)
    (hslope : ¬0.0 ≤ tip.slope) (hvalue : ¬(p.test start).limit < tip.value)
    (hexpand : (expand p φ alphamax tip).run b = (.ok (.ended t, calls), b')) :
    ∃ total, (approach p φ start trial mayAccept).run b₀ = (.ok (.ended t, total), b') := by
  obtain ⟨before, hresume⟩ := h.resume
  refine ⟨before + calls, ?_⟩
  rw [hresume, bracket, if_neg hslope, if_neg hvalue, run_bind_ok hexpand]
  rfl

/-- At each of the exits the approach ends the search, and leaves an evaluation pending. -/
theorem Unrecorded.exists_run_approach (h : Unrecorded p φ start trial mayAccept b₀ t) :
    ∃ s calls b', (approach p φ start trial mayAccept).run b₀ = (.ok (.ended t, calls), b') ∧
      Booked φ b₀ (some s) b' := by
  cases h with
  | @noFiniteTrial first s b₁ b₂ calls hfirst hadmissible hsample hreduce hfinite =>
    obtain ⟨steps, hledger⟩ := booked_of_reduce hsample hreduce
    refine ⟨s, calls, _, ?_, steps, hledger.reported .noFiniteTrial⟩
    have hguard : 0.0 < trial ∧ Scalar.isFinite trial = true ∧ trial ≤ p.alphamax := hadmissible
    rw [approach, if_pos hfirst, if_pos hguard]
    dsimp only
    rw [run_bind_ok hsample, run_bind_ok hreduce, hfinite]
    rfl
  | @notExpanded _ _ _ r calls _ b' htip hslope hvalue hexpands hfinite =>
    obtain ⟨total, hrun⟩ := htip.run_approach_of_ended hslope hvalue
      (hexpands.run_expand.trans (run_judge_of_not_finite hfinite b'))
    exact ⟨r.sample, total, b', hrun, hexpands.booked htip.booked⟩
  | @atEdge _ _ _ r calls _ b' htip hslope hvalue hexpands hfinite hdown hedge =>
    obtain ⟨b'', hjudge, hb''⟩ :=
      exists_run_judge_of_edge (hexpands.booked htip.booked) hfinite hdown hedge
    obtain ⟨total, hrun⟩ :=
      htip.run_approach_of_ended hslope hvalue (hexpands.run_expand.trans hjudge)
    exact ⟨r.sample, total, b'', hrun, hb''⟩

theorem Unrecorded.exists_run_step (hstart : b₀.cache.get? 0 = some start)
    (h : Unrecorded p φ start trial mayAccept b₀ t) :
    ∃ s calls b', (step p φ trial mayAccept).run b₀ = (.ok ⟨t, calls⟩, b') ∧
      Booked φ b₀ (some s) b' := by
  obtain ⟨s, calls, b', happroach, hb'⟩ := h.exists_run_approach
  refine ⟨s, calls, b', ?_, hb'⟩
  rw [step, run_bind_ok (Search.run_cached hstart), run_bind_ok happroach]
  rfl

end Exits

/-! ## The accounts -/

theorem exists_start_of_step {p : HagerZhang α} {φ : LineFunction ω α} {trial : α} {r : Step α}
    {mayAccept : Bool} {b₀ b : Bench ω α}
    (h : (step p φ trial mayAccept).run b₀ = (.ok r, b)) :
    ∃ start, b₀.cache.get? 0 = some start := by
  obtain ⟨pt, b₁, hcached, -⟩ := run_bind_eq_ok h
  obtain ⟨-, hentry, -⟩ := (Search.meets_cached 0 b₀).of_run_ok hcached
  exact ⟨pt.toSample, hentry⟩

/-- Of a search that has returned a step, how many evaluations are not booked: one at the exits
that leave it pending, and none otherwise. -/
theorem exists_ledger_of_step {p : HagerZhang α} {φ : LineFunction ω α} {start : Sample α}
    {trial : α} {r : Step α} {mayAccept : Bool} {b₀ b : Bench ω α}
    (hstart : b₀.cache.get? 0 = some start)
    (h : (step p φ trial mayAccept).run b₀ = (.ok r, b)) :
    ∃ steps pending, Ledger φ b₀ steps pending b ∧
      (pending.isSome ↔ Unrecorded p φ start trial mayAccept b₀ r.alpha) := by
  by_cases hexit : Unrecorded p φ start trial mayAccept b₀ r.alpha
  · -- the run to the exit is the run of the search
    obtain ⟨s, calls, b', hrun, steps, hledger⟩ := hexit.exists_run_step hstart
    obtain ⟨-, rfl⟩ := Prod.mk.inj (hrun.symm.trans h)
    exact ⟨steps, some s, hledger, iff_of_true rfl hexit⟩
  · rcases booked_of_step hstart h with ⟨_, hunrecorded, -⟩ | ⟨steps, hledger⟩
    · exact absurd hunrecorded hexit
    · exact ⟨steps, none, hledger, iff_of_false Bool.false_ne_true hexit⟩

/-- **The accounts of a search.** For every objective and every cache, a search that returns a step

* does not depend on how the objective evaluates its value or its gradient on their own;
* has evaluated both together at steps of the ray, and reports as many evaluations of the value and
  of the gradient as it took steps, which is what a tally of the objective shows;
* has added as many entries to the cache and to its failures, up to one evaluation: that is missing
  where the search has found no finite trial step, where an expansion has stayed without a finite
  sample, and where one has come to the largest step, and nowhere else. -/
theorem search_accounts (p : HagerZhang α) (f : Objective ω α n) (x s : Vec α n) (trial : α)
    (mayAccept : Bool) {b b' : Bench (Trial ω α n) α} {r : Step α}
    (hrun : (p.lineSearch.search f x s trial mayAccept).run b = (.ok r, b')) :
    (∀ value gradient,
      p.lineSearch.search ⟨value, gradient, some f.both⟩ x s trial mayAccept =
        p.lineSearch.search f x s trial mayAccept) ∧
    ∃ (start : Sample α) (steps : List α) (added : Array (Sample α)) (refused : ℕ),
      b.cache.get? 0 = some start ∧
      Evaluates f b.world.world (steps.map (Vec.along x s)) b'.world.world ∧
      r.calls = ⟨steps.length, steps.length⟩ ∧
      (∀ tally, f.Tallies tally → tally b'.world.world = tally b.world.world + r.calls) ∧
      b'.cache.samples = b.cache.samples ++ added ∧
      b'.cache.failures = b.cache.failures + refused ∧
      (Unrecorded p (.ofObjective f x s) start trial mayAccept b r.alpha →
        steps.length = added.size + refused + 1) ∧
      (¬Unrecorded p (.ofObjective f x s) start trial mayAccept b r.alpha →
        steps.length = added.size + refused) := by
  refine ⟨fun value gradient ↦ search_of_both p f value gradient x s trial mayAccept, ?_⟩
  have hstep : (p.step (.ofObjective f x s) trial mayAccept).run b = (.ok r, b') := hrun
  obtain ⟨start, hstart⟩ := exists_start_of_step hstep
  obtain ⟨steps, pending, hledger, hpending⟩ := exists_ledger_of_step hstart hstep
  obtain ⟨added, refused, hsamples, hfailures, hlength⟩ := hledger.balance
  have hevaluates := hledger.evaluates
  -- what the search adds up is what its bench has seen, and that is the length of the ledger
  have hcount : r.calls = ⟨steps.length, steps.length⟩ := by
    refine add_right_cancel (b := b.made) ?_
    calc r.calls + b.made = 0 + b'.made := counts_step _ p trial mayAccept b r b' hstep
      _ = b.made + ⟨steps.length, steps.length⟩ := by rw [zero_add, hledger.made_eq]
      _ = ⟨steps.length, steps.length⟩ + b.made := add_comm ..
  refine ⟨start, steps, added, refused, hstart, hevaluates, hcount, fun tally hf ↦ ?_, hsamples,
    hfailures, fun hexit ↦ ?_, fun hexit ↦ ?_⟩
  · rw [hevaluates.tally_eq hf, List.length_map, hcount]
  · obtain ⟨s, rfl⟩ := Option.isSome_iff_exists.mp (hpending.mpr hexit)
    exact hlength
  · obtain rfl := Option.not_isSome_iff_eq_none.mp (mt hpending.mp hexit)
    exact hlength

def falling : Objective Unit (Exact Grid.rational) 1 :=
  .ofFunctions (fun x ↦ -x.only) fun _ ↦ Vec.num fun _ ↦ -1

/-- Up to the largest step `1`, a search along `-t` from the trial step `1 / 5` expands to `1` and
does not record it. From the trial step `1` it finds no further step, and has recorded it. -/
theorem search_accounts_falling :
    let p : HagerZhang (Exact Grid.rational) := { default with alphamax := .num 1 }
    let φ := LineFunction.ofObjective falling #v[.num 0] #v[.num 1]
    let start : Sample (Exact Grid.rational) := ⟨.num 0, .num 0, .num (-1)⟩
    let search := p.lineSearch.search falling #v[.num 0] #v[.num 1]
    (∃ b', (search (.num (1 / 5)) false).run parabolaBench = (.ok ⟨.num 1, ⟨2, 2⟩⟩, b') ∧
      b'.cache.size = 2 ∧ Unrecorded p φ start (.num (1 / 5)) false parabolaBench (.num 1)) ∧
    ∃ b', (search (.num 1) false).run parabolaBench = (.ok ⟨.num 1, ⟨1, 1⟩⟩, b') ∧
      b'.cache.size = 2 ∧ ¬Unrecorded p φ start (.num 1) false parabolaBench (.num 1) := by
  intro p φ start search
  have hsearch {t : Exact Grid.rational} {k : ℕ}
      (hreturns : passes ((search t false).run parabolaBench) (fun r b' ↦ r.alpha = .num 1 ∧
        r.calls = ⟨k, k⟩ ∧ b'.cache.size = 2 ∧ b'.cache.failures = 0) = true) :
      ∃ b', (search t false).run parabolaBench = (.ok ⟨.num 1, ⟨k, k⟩⟩, b') ∧ b'.cache.size = 2 ∧
        (Unrecorded p φ start t false parabolaBench (.num 1) → k = 2) ∧
        (¬Unrecorded p φ start t false parabolaBench (.num 1) → k = 1) := by
    obtain ⟨r, b', hrun, htest⟩ := exists_ok_of_passes hreturns
    obtain ⟨hone, hcalls, hsize, hfailures⟩ := of_decide_eq_true htest
    obtain ⟨-, start', steps, added, refused, hstart, -, hcount, -, hsamples, hrefused,
      hunrecorded, hrecorded⟩ := search_accounts p falling _ _ t false hrun
    cases hstart
    have hk : k = steps.length := congrArg Calls.values (hcalls.symm.trans hcount)
    have hadded : added.size = 1 := by
      have hsizes := congrArg Array.size hsamples
      rw [Array.size_append] at hsizes
      change b'.cache.size = 1 + added.size at hsizes
      omega
    have hnone : refused = 0 := by
      change b'.cache.failures = 0 + refused at hrefused
      omega
    rw [hone, ← hk, hadded, hnone] at hunrecorded hrecorded
    have hr : r = ⟨.num 1, ⟨k, k⟩⟩ := by rw [← hone, ← hcalls]
    exact ⟨b', by rw [hrun, hr], hsize, hunrecorded, hrecorded⟩
  obtain ⟨b₁, hrun₁, hsize₁, -, hrecorded⟩ :=
    hsearch (t := .num (1 / 5)) (k := 2) (by decide +kernel)
  obtain ⟨b₂, hrun₂, hsize₂, hunrecorded, -⟩ := hsearch (t := .num 1) (k := 1) (by decide +kernel)
  refine ⟨⟨b₁, hrun₁, hsize₁, by_contra fun h ↦ ?_⟩, b₂, hrun₂, hsize₂, fun h ↦ ?_⟩
  · exact absurd (hrecorded h) (by decide)
  · exact absurd (hunrecorded h) (by decide)

end NonlinearCG.HagerZhang
