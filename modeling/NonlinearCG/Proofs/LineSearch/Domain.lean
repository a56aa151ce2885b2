import Mathlib
import NonlinearCG.Proofs.LineSearch.Evidence
import NonlinearCG.Proofs.LineSearch.Nesting
import NonlinearCG.Proofs.LineSearch.Settle

/-!
# Where a search evaluates

A search evaluates at steps between zero and its largest step. Once it has seen a finite value and
slope, a step at which they are not finite is a wall: every later evaluation is at a smaller step.
This is seen in the record that a function keeps of its evaluations.

## Why an expansion does not jump back

While a search halves its way back from a wall, the largest step that is left goes with it, so that
it ends below every wall. The next expansion is limited to the middle between the tip and that step
only if its full length exceeds it. For an expansion factor close to one this would not be enough,
if the largest step that is left could be beyond the full length. It never is: the steps from which
the search came back were themselves at most the full length of an expansion, and the new tip lies
ahead of the old one. This is the last bound of `Headed`; with it, a full step is never tried where
there is a wall.
-/

namespace NonlinearCG.HagerZhang


variable {ω K : Type} [Field K] [LinearOrder K] {G : Grid K} {V D : Exact G → Exact G}
  {l : List (Exact G)} {largest alphamax cold t u : Exact G}

/-! ## Records -/

/-- Value and slope are finite at a step. -/
def Good (V D : Exact G → Exact G) (t : Exact G) : Prop := Scalar.bothFinite (V t) (D t) = true

instance (V D : Exact G → Exact G) (t : Exact G) : Decidable (Good V D t) :=
  inferInstanceAs (Decidable (_ = true))

/-- A step in a record at which value or slope are not finite, though they were at an earlier
one. -/
def Wall (V D : Exact G → Exact G) (l : List (Exact G)) (u : Exact G) : Prop :=
  ∃ later earlier, l = later ++ u :: earlier ∧ ¬Good V D u ∧ ∃ t ∈ earlier, Good V D t

/-- The evaluations after a wall are at smaller steps. -/
def Orderly (V D : Exact G → Exact G) (l : List (Exact G)) : Prop :=
  ∀ later u earlier, l = later ++ u :: earlier → ¬Good V D u → (∃ t ∈ earlier, Good V D t) →
    ∀ t ∈ later, t < u

/-- A record of evaluations between zero and the largest step, in which walls are respected. -/
structure Charted (V D : Exact G → Exact G) (largest : Exact G) (l : List (Exact G)) : Prop where
  isStep : ∀ t ∈ l, IsStep t
  le_largest : ∀ t ∈ l, t ≤ largest
  orderly : Orderly V D l

/-- All walls are beyond a step. -/
def Clear (V D : Exact G → Exact G) (l : List (Exact G)) (t : Exact G) : Prop :=
  ∀ u, Wall V D l u → t < u

theorem wall_cons : Wall V D (t :: l) u ↔
    Wall V D l u ∨ u = t ∧ ¬Good V D t ∧ ∃ s ∈ l, Good V D s := by
  constructor
  · rintro ⟨later, earlier, hsplit, hbad, hgood⟩
    cases later with
    | nil =>
      obtain ⟨rfl, rfl⟩ := List.cons.inj hsplit
      exact Or.inr ⟨rfl, hbad, hgood⟩
    | cons t' later =>
      obtain ⟨rfl, rfl⟩ := List.cons.inj hsplit
      exact Or.inl ⟨later, earlier, rfl, hbad, hgood⟩
  · rintro (⟨later, earlier, rfl, hbad, hgood⟩ | ⟨rfl, hbad, hgood⟩)
    · exact ⟨t :: later, earlier, rfl, hbad, hgood⟩
    · exact ⟨[], l, rfl, hbad, hgood⟩

theorem wall_cons_of_good (ht : Good V D t) : Wall V D (t :: l) u ↔ Wall V D l u := by
  rw [wall_cons]
  constructor
  · rintro (h | ⟨-, hbad, -⟩)
    · exact h
    · exact absurd ht hbad
  · exact Or.inl

theorem not_wall_cons (hl : ∀ s ∈ l, ¬Good V D s) : ¬Wall V D (t :: l) u := by
  rintro ⟨later, earlier, hsplit, -, s, hs, hgood⟩
  refine hl s ?_ hgood
  cases later with
  | nil =>
    obtain ⟨-, rfl⟩ := List.cons.inj hsplit
    exact hs
  | cons t' later =>
    obtain ⟨-, rfl⟩ := List.cons.inj hsplit
    exact List.mem_append_right _ (List.mem_cons_of_mem _ hs)

theorem orderly_iff : Orderly V D (t :: l) ↔ Orderly V D l ∧ Clear V D l t := by
  constructor
  · intro h
    refine ⟨fun later u earlier hsplit hbad hgood s hs ↦ ?_, ?_⟩
    · exact h (t :: later) u earlier (by rw [hsplit]; rfl) hbad hgood s (List.mem_cons_of_mem _ hs)
    · rintro u ⟨later, earlier, rfl, hbad, hgood⟩
      exact h (t :: later) u earlier rfl hbad hgood t List.mem_cons_self
  · rintro ⟨horderly, hclear⟩ later u earlier hsplit hbad hgood s hs
    cases later with
    | nil => cases hs
    | cons t' later =>
      obtain ⟨rfl, rfl⟩ := List.cons.inj hsplit
      rcases List.mem_cons.mp hs with rfl | hmem
      · exact hclear u ⟨later, earlier, rfl, hbad, hgood⟩
      · exact horderly later u earlier rfl hbad hgood s hmem

theorem charted_nil : Charted V D largest [] where
  isStep := List.forall_mem_nil _
  le_largest := List.forall_mem_nil _
  orderly := by
    intro later u earlier hsplit
    cases later <;> cases hsplit

theorem Charted.isStep_of_wall (h : Charted V D largest l) (hu : Wall V D l u) : IsStep u := by
  obtain ⟨later, earlier, rfl, -⟩ := hu
  exact h.isStep u (List.mem_append_right _ List.mem_cons_self)

theorem Charted.cons (h : Charted V D largest l) (ht : IsStep t) (hle : t ≤ largest)
    (hclear : Clear V D l t) : Charted V D largest (t :: l) where
  isStep := List.forall_mem_cons.mpr ⟨ht, h.isStep⟩
  le_largest := List.forall_mem_cons.mpr ⟨hle, h.le_largest⟩
  orderly := orderly_iff.mpr ⟨h.orderly, hclear⟩

/-! ## The states of a search -/

/-- The record where the evaluations that follow are at most at a step: all walls are beyond it. -/
structure Fenced (V D : Exact G → Exact G) (largest : Exact G) (l : List (Exact G))
    (t : Exact G) : Prop where
  charted : Charted V D largest l
  clear : Clear V D l t
  le_largest : t ≤ largest

/-- The record while the first trial is reduced: value or slope were not finite before. -/
structure Reducing (V D : Exact G → Exact G) (largest : Exact G) (l : List (Exact G))
    (t : Exact G) : Prop where
  charted : Charted V D largest l
  ahead : Ahead (.num 0) largest t
  blind : ∃ earlier, l = t :: earlier ∧ ∀ s ∈ earlier, ¬Good V D s

/-- The record when bracketing is at a tip, with a largest step that is left: both are below
every wall, and there is no wall unless the full expansion exceeds that step. -/
structure Headed (V D : Exact G → Exact G) (rho largest : Exact G) (l : List (Exact G))
    (alphamax tip : Exact G) : Prop where
  charted : Charted V D largest l
  isStep : IsStep tip
  pos : .num 0 < tip
  le_alphamax : tip ≤ alphamax
  le_largest : alphamax ≤ largest
  below {u : Exact G} : Wall V D l u → tip < u ∧ alphamax ≤ u ∧ alphamax < tip * rho

/-- The record while a search comes back to a step from one ahead, with a largest step that is left:
of the steps at walls, only the one ahead may not be beyond it. -/
structure Retreating (V D : Exact G → Exact G) (rho largest : Exact G) (l : List (Exact G))
    (cold alphamax t : Exact G) : Prop where
  charted : Charted V D largest l
  ahead : Ahead cold alphamax t
  le_largest : alphamax ≤ largest
  reach : t ≤ cold * rho
  below {u : Exact G} : Wall V D l u →
    u = t ∧ ¬Good V D t ∨ t < u ∧ alphamax ≤ u ∧ alphamax ≤ cold * rho

theorem Fenced.mono (h : Fenced V D largest l u) (ht : t ≤ u) : Fenced V D largest l t where
  charted := h.charted
  clear := fun w hw ↦ Exact.lt_of_le_of_lt ht (h.clear w hw)
  le_largest := Exact.le_trans ht h.le_largest

theorem Fenced.cons (h : Fenced V D largest l t) (ht : IsStep t) : Charted V D largest (t :: l) :=
  h.charted.cons ht h.le_largest h.clear

theorem Headed.fenced {rho tip : Exact G} (h : Headed V D rho largest l alphamax tip) :
    Fenced V D largest l tip where
  charted := h.charted
  clear := fun _ hu ↦ (h.below hu).1
  le_largest := Exact.le_trans h.le_alphamax h.le_largest

theorem Reducing.first (h : Ahead (.num 0) largest t) : Reducing V D largest [t] t := by
  have hblind : ∀ s ∈ ([] : List (Exact G)), ¬Good V D s := List.forall_mem_nil _
  refine ⟨charted_nil.cons h.step h.le_max ?_, h, [], rfl, hblind⟩
  rintro u ⟨later, earlier, hsplit, -⟩
  cases later <;> cases hsplit

theorem Reducing.headed (rho : Exact G) (h : Reducing V D largest l t) :
    Headed V D rho largest l largest t := by
  obtain ⟨earlier, rfl, hblind⟩ := h.blind
  exact ⟨h.charted, h.ahead.step, h.ahead.lt, h.ahead.le_max, h.ahead.max_le_self,
    fun hu ↦ absurd hu (not_wall_cons hblind)⟩

section Steps

variable [IsStrictOrderedRing K] {p : HagerZhang (Exact G)}

theorem Reducing.next (hp : p.Proper) (h : Reducing V D largest l t) (hbad : ¬Good V D t) :
    Reducing V D largest (t * p.psi3 :: l) (t * p.psi3) := by
  obtain ⟨earlier, rfl, hblind⟩ := h.blind
  have hahead := h.ahead.reduced hp
  refine ⟨h.charted.cons hahead.step hahead.le_max ?_, hahead, _, rfl,
    List.forall_mem_cons.mpr ⟨hbad, hblind⟩⟩
  exact fun u hu ↦ absurd hu (not_wall_cons hblind)

theorem Headed.expanded (hp : p.Proper) (h : Headed V D p.rho largest l alphamax cold)
    (ht : expandedStep p alphamax cold = some t) :
    Clear V D l t ∧ t ≤ cold * p.rho := by
  obtain ⟨r, hr, hrho⟩ := hp.rho
  have hpos := h.pos
  obtain ⟨a, ha, rfl⟩ := h.isStep
  obtain ⟨c, rfl, -, hcases⟩ := eq_of_expandedStep hr hrho hpos h.le_alphamax ht
  rw [hrho, Exact.num_mul, Exact.num_le]
  constructor
  · intro u hu
    obtain ⟨x, -, rfl⟩ := h.charted.isStep_of_wall hu
    obtain ⟨-, hle, hlt⟩ := h.below hu
    rw [hrho, Exact.num_mul] at hlt
    rcases hcases with ⟨rfl, hfull⟩ | ⟨m, rfl, hcm, -⟩
    · -- a full step is at most the largest one that is left, which excludes walls
      exact absurd (Exact.lt_of_le_of_lt hfull hlt) (lt_irrefl (a * r))
    · exact Exact.num_lt.mpr (hcm.trans_le (Exact.num_le.mp hle))
  · rcases hcases with ⟨rfl, -⟩ | ⟨m, -, hcm, hmr⟩
    · exact le_rfl
    · exact (hcm.trans hmr).le

/-- From an expanded step that was evaluated, the search may have to come back. -/
theorem Headed.retreating (hp : p.Proper) (h : Headed V D p.rho largest l alphamax cold)
    (ht : expandedStep p alphamax cold = some t) :
    Retreating V D p.rho largest (t :: l) cold alphamax t := by
  obtain ⟨hclear, hreach⟩ := h.expanded hp ht
  have hahead := ahead_expandedStep hp h.isStep h.pos h.le_alphamax ht
  have hle := Exact.le_trans hahead.le_max h.le_largest
  refine ⟨h.charted.cons hahead.step hle hclear, hahead, h.le_largest, hreach, fun hu ↦ ?_⟩
  rcases wall_cons.mp hu with hu | ⟨rfl, hbad, -⟩
  · obtain ⟨-, hle, hlt⟩ := h.below hu
    exact Or.inr ⟨hclear _ hu, hle, Exact.le_of_lt hlt⟩
  · exact Or.inl ⟨rfl, hbad⟩

/-- A step ahead that is not finite is a wall, and the search halves its way back from it. -/
theorem Retreating.next (hcold : IsStep cold)
    (h : Retreating V D p.rho largest l cold alphamax t) :
    Retreating V D p.rho largest ((cold + t) / 2.0 :: l) cold t ((cold + t) / 2.0) := by
  have hahead := h.ahead.half hcold
  have hlt := h.ahead.half_lt hcold
  have hle := Exact.le_trans h.ahead.le_max h.le_largest
  have hbelow : ∀ {u}, Wall V D l u → (cold + t) / 2.0 < u ∧ t ≤ u := by
    intro u hu
    rcases h.below hu with ⟨rfl, -⟩ | ⟨htu, -, -⟩
    · exact ⟨hlt, h.ahead.step.le_self⟩
    · exact ⟨Exact.lt_of_le_of_lt hahead.le_max htu, Exact.le_of_lt htu⟩
  refine ⟨h.charted.cons hahead.step (Exact.le_trans hahead.le_max hle) fun u hu ↦ (hbelow hu).1,
    hahead, hle, Exact.le_trans hahead.le_max h.reach, fun hu ↦ ?_⟩
  rcases wall_cons.mp hu with hu | ⟨rfl, hbad, -⟩
  · exact Or.inr ⟨(hbelow hu).1, (hbelow hu).2, h.reach⟩
  · exact Or.inl ⟨rfl, hbad⟩

theorem Retreating.headed (hp : p.Proper) (hpos : .num 0 < cold) (hcold : IsStep cold)
    (h : Retreating V D p.rho largest l cold alphamax t) (hgood : Good V D t) :
    Headed V D p.rho largest l alphamax t := by
  have hfull : cold * p.rho < t * p.rho := by
    obtain ⟨r, hr, hrho⟩ := hp.rho
    obtain ⟨a, ha, rfl⟩ := hcold
    obtain ⟨⟨c, -, rfl⟩, hac, -⟩ := h.ahead
    rw [hrho, Exact.num_mul, Exact.num_mul, Exact.num_lt]
    exact mul_lt_mul_of_pos_right (Exact.num_lt.mp hac) (zero_lt_one.trans hr)
  refine ⟨h.charted, h.ahead.step, Exact.lt_of_le_of_lt (Exact.le_of_lt hpos) h.ahead.lt,
    h.ahead.le_max, h.le_largest, fun hu ↦ ?_⟩
  rcases h.below hu with ⟨-, hbad⟩ | ⟨htu, hle, hreach⟩
  · exact absurd hgood hbad
  · exact ⟨htu, hle, Exact.lt_of_le_of_lt hreach hfull⟩

end Steps

/-! ## Parts of a search -/

/-- An expansion ends the search, or it leads to a tip. -/
def Expansion.Charts (V D : Exact G → Exact G) (rho largest : Exact G) (l : List (Exact G)) :
    Expansion (Exact G) → Prop
  | .ended _ => Charted V D largest l
  | .reached tip alphamax => Headed V D rho largest l alphamax tip.step

/-- Bracketing ends the search, or it leads to a high end below every wall. -/
def Bracketing.Charts (V D : Exact G → Exact G) (largest : Exact G) (l : List (Exact G)) :
    Bracketing (Exact G) → Prop
  | .ended _ => Charted V D largest l
  | .bracket _ high _ => Fenced V D largest l high.step

theorem sampleAt_records {α : Type} {φ : LineFunction ω α} {seen : ω → List α}
    (hseen : φ.Records seen) (t : α) (b : Bench ω α) :
    Meets (Search.sampleAt φ t) b
      (fun s b' ↦ seen b'.world = t :: seen b.world ∧ s.step = t ∧ φ.Samples s)
      fun _ b' ↦ seen b'.world = t :: seen b.world := by
  refine (Search.meets_sampleAt φ t b).imp ?_ ?_
  · rintro s _ ⟨rfl, w, hrun, rfl⟩
    exact ⟨hseen.both hrun, rfl, _, _, hrun⟩
  · rintro _ _ ⟨cause, w, hrun, -, rfl⟩
    exact hseen.both hrun

omit [Field K] [LinearOrder K] in
theorem lowEnd_pure {α : Type} [Scalar α] (limit : α) (i : ℕ) (b : Bench ω α) :
    Meets (lowEnd limit i) b (fun _ b' ↦ b' = b) fun _ b' ↦ b' = b := by
  induction i with
  | zero => exact (Search.meets_cached 0 b).imp (fun _ _ h ↦ h.1) fun _ _ h ↦ h.1
  | succ i ih =>
    rw [lowEnd]
    refine Meets.bind ((Search.meets_cached i b).imp_error fun _ _ h ↦ h.1) ?_
    rintro s _ ⟨rfl, -⟩
    split_ifs
    · rfl
    · exact ih

section Parts

variable {φ : LineFunction ω (Exact G)} (hφ : φ.Computes V D) {seen : ω → List (Exact G)}
  (hseen : φ.Records seen) {b : Bench ω (Exact G)}

include hφ in
theorem finite_iff_good {s : Sample (Exact G)} (hs : φ.Samples s) :
    finite s = true ↔ Good V D s.step := by
  obtain ⟨hvalue, hslope⟩ := hφ.eq_of_samples hs
  rw [finite, hvalue, hslope, Good]

variable [IsStrictOrderedRing K] {p : HagerZhang (Exact G)} (hp : p.Proper)

include hφ hseen

include hp in
theorem reduce_charts (attempts : ℕ) (calls : Calls) {s : Sample (Exact G)} (hs : φ.Samples s)
    {b : Bench ω (Exact G)} (h : Reducing V D largest (seen b.world) s.step) :
    Meets (reduce p φ attempts calls s) b
      (fun r b' ↦ Reducing V D largest (seen b'.world) r.1.step)
      fun _ b' ↦ Charted V D largest (seen b'.world) := by
  induction attempts generalizing calls s b with
  | zero => exact h
  | succ attempts ih =>
    rw [reduce]
    by_cases hfinite : finite s = true
    · rw [if_pos hfinite]
      exact h
    -- a sample that is not finite was recorded at a step where the function is not
    have hnext := h.next hp fun hgood ↦ hfinite ((finite_iff_good hφ hs).mpr hgood)
    rw [if_neg hfinite]
    refine (Search.meets_countFailure b).bind ?_
    rintro - _ rfl
    refine Meets.bind ((sampleAt_records hseen _ _).imp_error ?_) ?_
    · intro _ b' hrecord
      rw [hrecord]
      exact hnext.charted
    · rintro s' b' ⟨hrecord, hstep, hs'⟩
      refine ih _ hs' ?_
      rw [hrecord, hstep]
      exact hnext

omit hφ in
theorem retreat_charts (hcold : IsStep cold) (attempts : ℕ) (calls : Calls)
    {s : Sample (Exact G)} (hs : φ.Samples s) {b : Bench ω (Exact G)}
    (h : Retreating V D p.rho largest (seen b.world) cold alphamax s.step) :
    Meets (retreat φ cold attempts calls alphamax s) b
      (fun r b' ↦ Retreating V D p.rho largest (seen b'.world) cold r.1.alphamax
        r.1.sample.step ∧ φ.Samples r.1.sample)
      fun _ b' ↦ Charted V D largest (seen b'.world) := by
  induction attempts generalizing calls alphamax s b with
  | zero => exact ⟨h, hs⟩
  | succ attempts ih =>
    rw [retreat]
    split_ifs
    · refine (Search.meets_countFailure b).bind ?_
      rintro - _ rfl
      refine Meets.bind ((sampleAt_records hseen _ _).imp_error ?_) ?_
      · intro _ b' hrecord
        rw [hrecord]
        exact (h.next hcold).charted
      · rintro s' b' ⟨hrecord, hstep, hs'⟩
        refine ih _ hs' ?_
        rw [hrecord, hstep]
        exact h.next hcold
    · exact ⟨h, hs⟩

include hp in
theorem expand_charts {tip : Point (Exact G)}
    (h : Headed V D p.rho largest (seen b.world) alphamax tip.step) :
    Meets (expand p φ alphamax tip) b
      (fun r b' ↦ r.1.Charts V D p.rho largest (seen b'.world))
      fun _ b' ↦ Charted V D largest (seen b'.world) := by
  rw [expand]
  rcases hc : expandedStep p alphamax tip.step with _ | c
  · -- there is no step left to expand to
    exact h.charted
  have hahead := h.retreating hp hc
  refine Meets.bind ((sampleAt_records hseen c b).imp_error ?_) ?_
  · intro _ b₁ hrecord
    rw [hrecord]
    exact hahead.charted
  rintro s b₁ ⟨hrecord, rfl, hs⟩
  rw [← hrecord] at hahead
  refine (retreat_charts hseen h.isStep _ _ hs hahead).bind ?_
  rintro ⟨⟨s', alphamax', attempts⟩, calls⟩ b₂ ⟨hback, hs'⟩
  dsimp only
  split_ifs with hinfinite
  -- the search ends: at the tip, as all steps ahead were walls, or at the edge
  · exact hback.charted
  · refine (Search.meets_report _ b₂).bind ?_
    rintro - _ rfl
    exact hback.charted
  · exact hback.charted
  · -- the step is kept as the next tip
    rw [Bool.not_eq_true', Bool.not_eq_false] at hinfinite
    exact hback.headed hp h.pos h.isStep ((finite_iff_good hφ hs').mp hinfinite)

omit [IsStrictOrderedRing K] in
/-- Finite evaluations up to a fenced step leave the walls where they are. -/
theorem upholds_fenced (largest : Exact G) {hi : Exact G} (hhi : IsStep hi) :
    φ.Upholds (.num 0) hi (fun w ↦ Fenced V D largest (seen w) hi)
      fun w ↦ Charted V D largest (seen w) := by
  have hcons : ∀ {t l}, .num 0 ≤ t → t ≤ hi → Fenced V D largest l hi →
      Charted V D largest (t :: l) := by
    intro t l hzero ht h
    exact (h.mono ht).cons (IsStep.of_le_of_le ⟨0, le_rfl, rfl⟩ hhi hzero ht)
  refine ⟨Fenced.charted, ?_, ?_⟩
  · intro t v d w w' hzero ht h hrun hfinite
    rw [hseen.both hrun]
    obtain ⟨rfl, rfl⟩ := hφ.both hrun
    refine ⟨hcons hzero ht h, fun u hu ↦ ?_, h.le_largest⟩
    exact h.clear u ((wall_cons_of_good hfinite).mp hu)
  · intro t r w w' hzero ht h hrun
    rw [hseen.both hrun]
    exact hcons hzero ht h

theorem bisect_charts (limit : Exact G) (fuel : ℕ) (calls : Calls) {low high : Point (Exact G)}
    (hw : Within (.num 0) high.step low high)
    (h : Fenced V D largest (seen b.world) high.step) :
    Meets (bisect φ limit fuel calls low high) b
      (fun r b' ↦ Fenced V D largest (seen b'.world) r.1.2.step)
      fun _ b' ↦ Charted V D largest (seen b'.world) := by
  have hupholds := upholds_fenced hφ hseen largest hw.isStep_high
  refine (bisect_upholds hupholds limit fuel calls h hw).imp_ok ?_
  exact fun r b' hr ↦ hr.1.mono hr.2.le_hi

include hp in
theorem bracket_charts {test : WolfeTest (Exact G)} (hlimit : ∃ l, test.limit = .num l)
    (rounds : ℕ) (calls : Calls) {tip : Point (Exact G)} {b : Bench ω (Exact G)}
    (h : Headed V D p.rho largest (seen b.world) alphamax tip.step)
    (htip : Tip b.cache test.limit alphamax tip) (hedge : Edge φ largest alphamax) :
    Meets (bracket p φ test.limit rounds calls alphamax tip) b
      (fun r b' ↦ r.1.Charts V D largest (seen b'.world))
      fun _ b' ↦ Charted V D largest (seen b'.world) := by
  induction rounds generalizing calls alphamax tip b with
  | zero => exact h.charted
  | succ rounds ih =>
    rw [bracket]
    split_ifs with hslope hvalue
    · -- the slope has turned upwards: the tip becomes the high end, and nothing is evaluated
      refine Meets.bind ((lowEnd_pure test.limit tip.index b).imp_error ?_) ?_
      · rintro _ _ rfl
        exact h.charted
      · rintro low _ rfl
        exact h.fenced
    · -- the value is above the limit: the interval below the tip is bisected
      refine Meets.bind ((Search.meets_cached _ b).imp_error ?_) ?_
      · rintro _ _ ⟨rfl, -⟩
        exact h.charted
      rintro ⟨s, i⟩ _ ⟨rfl, hentry, rfl⟩
      have hw := htip.within_previous hentry
      exact (bisect_charts hφ hseen _ _ _ hw h.fenced).bind fun _ _ hr ↦ hr
    · -- the tip is a low end itself, and the step is expanded
      have hlow := htip.lowEnd hlimit hslope hvalue
      have hexpand := (expand_charts hφ hseen hp h).and (expand_spec φ hp htip hlow hedge)
      refine (hexpand.imp_error fun _ _ he ↦ he.1).bind ?_
      rintro ⟨t | ⟨tip', alphamax'⟩, more⟩ b' ⟨hr, hspec⟩
      · exact hr
      · exact ih _ hr hspec.1 hspec.2

include hp in
theorem firstTrial_charts (start : Sample (Exact G)) (trial : Exact G) (mayAccept : Bool)
    (hfresh : seen b.world = []) :
    Meets (firstTrial p φ start trial mayAccept) b
      (fun r b' ↦ r.1.Charts V D p.rho p.alphamax (seen b'.world))
      fun _ b' ↦ Charted V D p.alphamax (seen b'.world) := by
  have hbefore : Charted V D p.alphamax (seen b.world) := hfresh ▸ charted_nil
  rw [firstTrial]
  simp only [Search.giveUp_bind]
  by_cases hstart : finite start = true
  swap
  · -- the search gives up before its first evaluation
    rw [if_neg hstart]
    exact hbefore
  rw [if_pos hstart]
  by_cases htrial : 0.0 < trial ∧ Scalar.isFinite trial = true ∧ trial ≤ p.alphamax
  swap
  · rw [if_neg htrial]
    exact hbefore
  rw [if_pos htrial]
  have hfirst := Reducing.first (V := V) (D := D) (ahead_of_admissible htrial)
  refine Meets.bind ((sampleAt_records hseen trial b).imp_error ?_) ?_
  · -- the first evaluation has failed: it is recorded all the same
    intro _ b₁ hrecord
    rw [hrecord, hfresh]
    exact hfirst.charted
  rintro first b₁ ⟨hrecord, rfl, hs⟩
  rw [hfresh] at hrecord
  rw [← hrecord] at hfirst
  refine (reduce_charts hφ hseen hp _ _ hs hfirst).bind ?_
  rintro ⟨s, calls⟩ b₂ h
  dsimp only
  split_ifs
  · refine (Search.meets_keep s b₂).bind ?_
    rintro tip _ ⟨rfl, rfl⟩
    refine Meets.bind ((Search.meets_lift _ _).imp_error ?_) ?_
    · rintro _ _ ⟨-, -, -, rfl⟩
      exact h.charted
    rintro accepted _ ⟨-, rfl⟩
    split_ifs
    · exact h.charted
    · exact h.headed p.rho
  · exact h.headed p.rho
  · exact h.charted

theorem narrow_charts (hgap : ∀ x, 0 ≤ x → 0 < G.spacing x) {γ : K} (hγ : p.gamma = .num γ)
    {test : WolfeTest (Exact G)} (rounds : ℕ) (calls : Calls) {low high : Point (Exact G)}
    (h : Fenced V D largest (seen b.world) high.step)
    (hbracket : Bracket b.cache test.limit low high) :
    Meets (narrow p φ test rounds calls low high) b
      (fun _ b' ↦ Charted V D largest (seen b'.world))
      fun _ b' ↦ Charted V D largest (seen b'.world) := by
  obtain ⟨a, ha, haeq⟩ := hbracket.lowEnd.step
  have hzero : .num 0 ≤ low.step := haeq ▸ Exact.num_le.mpr ha
  -- all further steps lie between zero and the high end
  have hw : Within (.num 0) high.step low high := { hbracket.within with lo_le := hzero }
  have hupholds := upholds_fenced hφ hseen largest hbracket.highEnd.step
  refine (narrow_upholds hupholds hgap hγ rounds calls h hw hbracket).imp_ok ?_
  exact fun r b' hr ↦ hr.1.charted

include hp in
theorem approach_charts {v d : K} (hd : d < 0) (trial : Exact G) (mayAccept : Bool)
    (hfresh : seen b.world = []) (hstart : b.cache.samples = #[⟨.num 0, .num v, .num d⟩]) :
    Meets (approach p φ ⟨.num 0, .num v, .num d⟩ trial mayAccept) b
      (fun r b' ↦ r.1.Charts V D p.alphamax (seen b'.world))
      fun _ b' ↦ Charted V D p.alphamax (seen b'.world) := by
  have hfirst := (firstTrial_charts hφ hseen hp _ trial mayAccept hfresh).and
    (firstTrial_spec φ hp hd trial mayAccept hstart)
  rw [approach_eq]
  refine (hfirst.imp_error fun _ _ h ↦ h.1).bind ?_
  rintro ⟨t | ⟨tip, alphamax⟩, calls⟩ b' ⟨hr, hspec⟩
  · exact hr
  · obtain ⟨htip, rfl⟩ := hspec
    exact bracket_charts hφ hseen hp (exists_limit hp) _ _ hr htip (Or.inl rfl)

end Parts

/-! ## Whole searches -/

section Search

omit [Field K] [LinearOrder K] in
theorem run_of_not_finite {α : Type} [Scalar α] {p : HagerZhang α} {φ : LineFunction ω α}
    {start : Sample α} {trial : α} {mayAccept : Bool} {b₀ : Bench ω α}
    (hstart : b₀.cache.get? 0 = some start) (hfinite : ¬finite start = true) :
    (step p φ trial mayAccept).run b₀ = (.error (.search .startNotFinite), b₀) := by
  rw [step, run_bind_ok (Search.run_cached hstart), approach, if_neg hfinite]
  rfl

variable [IsStrictOrderedRing K] {p : HagerZhang (Exact G)} (hp : p.Proper)
  (hgap : ∀ x, 0 ≤ x → 0 < G.spacing x) {φ : LineFunction ω (Exact G)} (hφ : φ.Computes V D)
  {seen : ω → List (Exact G)} (hseen : φ.Records seen) {trial : Exact G} {mayAccept : Bool}
  {b₀ b : Bench ω (Exact G)} {r : Except (Fault (Exact G)) (Step (Exact G))}

include hp hgap hφ hseen

theorem charted_of_run_nums {v d : K} (hd : d < 0) (hfresh : seen b₀.world = [])
    (hstart : b₀.cache.samples = #[⟨.num 0, .num v, .num d⟩])
    (hrun : (step p φ trial mayAccept).run b₀ = (r, b)) :
    Charted V D p.alphamax (seen b.world) := by
  have hstep : Meets (step p φ trial mayAccept) b₀
      (fun _ b' ↦ Charted V D p.alphamax (seen b'.world))
      fun _ b' ↦ Charted V D p.alphamax (seen b'.world) := by
    refine Meets.bind_of_run (Search.run_cached (Cache.get?_zero_of_samples_eq hstart)) ?_
    have happroach := (approach_charts hφ hseen hp hd trial mayAccept hfresh hstart).and
      (approach_spec φ hp hgap hd trial mayAccept hstart)
    refine (happroach.imp_error fun _ _ h ↦ h.1).bind ?_
    -- the approach ends the search, or hands a bracket to the rounds
    rintro ⟨t | ⟨low, high, rounds⟩, calls⟩ b' ⟨hcharts, hspec⟩
    · exact hcharts
    · obtain ⟨γ, -, -, hγ⟩ := hp.gamma
      exact narrow_charts hφ hseen hgap hγ rounds calls hcharts hspec
  cases r with
  | ok t => exact hstep.of_run_ok hrun
  | error e => exact hstep.of_run_error hrun

/-- However a search ends, its record is charted. -/
theorem charted_of_run {start : Sample (Exact G)} (hstep : start.step = .num 0)
    (hslope : start.slope < 0.0) (hfresh : seen b₀.world = [])
    (hstart : b₀.cache.samples = #[start])
    (hrun : (step p φ trial mayAccept).run b₀ = (r, b)) :
    Charted V D p.alphamax (seen b.world) := by
  by_cases hfinite : finite start = true
  · obtain ⟨v, d, hd, rfl⟩ := exists_nums_of_finite hfinite hstep hslope
    exact charted_of_run_nums hp hgap hφ hseen hd hfresh hstart hrun
  · -- nothing has been evaluated
    rw [run_of_not_finite (Cache.get?_zero_of_samples_eq hstart) hfinite] at hrun
    cases hrun
    rw [hfresh]
    exact charted_nil

omit [IsStrictOrderedRing K] hp hgap hseen in
theorem eq_of_gives {s : Sample (Exact G)} (hs : φ.Gives s) (hfinite : finite s = true) :
    s.value = V s.step ∧ s.slope = D s.step := by
  cases hs with
  | both hs => exact hφ.eq_of_samples hs
  | value h =>
    -- an evaluation of the value alone gives no slope
    cases (Bool.and_eq_true_iff.mp hfinite).2

omit [IsStrictOrderedRing K] hp hgap hseen in
/-- What a search has added to the cache are finite samples of the function and its slope. -/
theorem eq_start_or_sampled {start s : Sample (Exact G)} (hstart : b₀.cache.samples = #[start])
    (hext : Extends (fun s _ ↦ φ.Gives s) b₀ b) {i : ℕ} (hs : b.cache.get? i = some s) :
    s = start ∨ s.value = V s.step ∧ s.slope = D s.step ∧ finite s = true := by
  rcases hext.entry hs with hbefore | ⟨hgives, hfinite⟩
  · have hmem : s ∈ b₀.cache.samples := Array.mem_of_getElem? hbefore
    rw [hstart, Array.mem_singleton] at hmem
    exact Or.inl hmem
  · obtain ⟨hvalue, hslope⟩ := eq_of_gives hφ hgives hfinite
    exact Or.inr ⟨hvalue, hslope, hfinite⟩

/-- **Caches are sound, and searches keep to their domain.** Along a function that is computed, from
a start that leads downhill and from any trial step, however the search ends:

* the cache has only grown, as it has from every tip and from the top of every round, where the
  points in hand are points of the cache; no position outside the cache is read;
* what is cached is what the function and its slope are at the step, and it is finite; only a start
  that is not finite is left alone, as the search gives up at once;
* all evaluations were at steps between zero and the largest one;
* after the first finite evaluation, an evaluation that was not finite was followed by evaluations
  at smaller steps only. -/
theorem searches_in_domain (hslope : D (.num 0) < 0.0) (hfresh : seen b₀.world = [])
    (hstart : b₀.cache.samples = #[⟨.num 0, V (.num 0), D (.num 0)⟩])
    (hrun : (step p φ trial mayAccept).run b₀ = (r, b)) :
    let start : Sample (Exact G) := ⟨.num 0, V (.num 0), D (.num 0)⟩
    (b₀.cache.Grows b.cache ∧
      (∀ rounds alphamax tip b', AtTip p φ start trial mayAccept b₀ rounds alphamax tip b' →
        b'.cache.Grows b.cache ∧ Holds b'.cache tip) ∧
      (∀ rounds low high b', AtRound p φ start trial mayAccept b₀ rounds low high b' →
        b'.cache.Grows b.cache ∧ Holds b'.cache low ∧ Holds b'.cache high) ∧
      (r = .error (.breakdown .missingEntry) → φ.Raises .missingEntry)) ∧
    ((∀ i s, b.cache.get? i = some s → s.value = V s.step ∧ s.slope = D s.step ∧
        (finite start = true → finite s = true)) ∧
      (finite start = false → r = .error (.search .startNotFinite) ∧ b = b₀)) ∧
    (∀ t ∈ seen b.world, .num 0 ≤ t ∧ t ≤ p.alphamax) ∧
    ∀ later u earlier, seen b.world = later ++ u :: earlier → ¬Good V D u →
      (∃ t ∈ earlier, Good V D t) → ∀ t ∈ later, t < u := by
  intro start
  have htestifies := φ.testifies_gives
  have hentry := Cache.get?_zero_of_samples_eq hstart
  have hsees := sees_step htestifies p trial mayAccept (Cache.lt_size_of_get? hentry)
  have hext := hsees.extends hrun
  have hcharted : Charted V D p.alphamax (seen b.world) :=
    charted_of_run hp hgap hφ hseen rfl hslope hfresh hstart hrun
  refine ⟨⟨hext.grows, ?_, ?_, ?_⟩, ⟨?_, ?_⟩, ?_, hcharted.orderly⟩
  · intro rounds alphamax tip b' h
    exact ⟨(h.extends_of_run htestifies hentry hrun).grows, (h.extends htestifies).2⟩
  · intro rounds low high b' h
    exact ⟨(h.extends_of_run htestifies hentry hrun).grows, (h.extends htestifies).2⟩
  · rintro rfl
    exact (hsees.of_run_error hrun).2 rfl
  · intro i s hs
    rcases eq_start_or_sampled hφ hstart hext hs with rfl | ⟨hvalue, hslope, hfinite⟩
    · exact ⟨rfl, rfl, id⟩
    · exact ⟨hvalue, hslope, fun _ ↦ hfinite⟩
  · intro hinfinite
    rw [run_of_not_finite hentry (Bool.eq_false_iff.mp hinfinite)] at hrun
    cases hrun
    exact ⟨rfl, rfl⟩
  · intro t ht
    obtain ⟨a, ha, rfl⟩ := hcharted.isStep t ht
    exact ⟨Exact.num_le.mpr ha, hcharted.le_largest _ ht⟩

end Search

/-- After the trial step `4` was reduced to `2 / 5`, the search runs into the wall at `2`, and comes
to all later steps below it. -/
theorem searches_in_domain_wall :
    let start : Sample (Exact Grid.rational) := ⟨.num 0, .num 0, .num (-1)⟩
    let b₀ : Bench (List (Exact Grid.rational)) (Exact Grid.rational) :=
      { world := [], cache := .seeded start }
    ∃ calls b later,
      (default.step (.recorder wallValue fun _ ↦ .num (-1)) (.num 4) true).run b₀ =
        (.ok ⟨.num 1, calls⟩, b) ∧
      b.world = later ++ .num 2 :: [.num (2 / 5), .num 4] ∧ later ≠ [] ∧
      ∀ t ∈ later, t < .num 2 := by
  intro start b₀
  have hruns : passes
      ((default.step (.recorder wallValue fun _ ↦ .num (-1)) (.num 4) true).run b₀)
      (fun r b ↦ r.alpha = .num 1 ∧ b.world.take 53 ≠ [] ∧
        b.world = b.world.take 53 ++ .num 2 :: [.num (2 / 5), .num 4]) = true := by
    decide +kernel
  obtain ⟨⟨t, calls⟩, b, hrun, htest⟩ := exists_ok_of_passes hruns
  obtain ⟨rfl, hne, hrecord⟩ := of_decide_eq_true htest
  obtain ⟨-, -, -, hbelow⟩ := searches_in_domain default_proper
    (fun x _ ↦ Grid.rational_spacing_pos x) (LineFunction.recorder_computes _ _)
    (LineFunction.recorder_records _ _)
    (by decide +kernel : (.num (-1) : Exact Grid.rational) < 0.0) rfl
    (rfl : b₀.cache.samples = _) hrun
  refine ⟨calls, b, b.world.take 53, hrun, hrecord, hne, hbelow _ _ _ hrecord ?_ ?_⟩
  · decide +kernel
  · exact ⟨.num (2 / 5), List.mem_cons_self, by decide +kernel⟩

end NonlinearCG.HagerZhang
