import Mathlib
import NonlinearCG.Config.Schema

/-!
# What a valid section says

A section is read field by field. `Value.Gives` is the part of this that does not depend on any
range: a field that is there reads as a value, and one that is missing has its default. A section is
valid exactly if its fields give values and those that are there are in their ranges
(`checkField_eq_valid_iff`). Defaults are not tested, so a range has to hold of the default to hold
of every value that comes out.
-/

namespace NonlinearCG

/-! ## Checked values -/

namespace Checked

variable {A B : Type}

theorem seq_eq_valid_iff {f : Checked (A → B)} {x : Checked A} {b : B} :
    f <*> x = .valid b ↔ ∃ g a, f = .valid g ∧ x = .valid a ∧ g a = b := by
  constructor
  · intro h
    cases f with
    | valid g =>
      cases x with
      | valid a =>
        cases h
        exact ⟨g, a, rfl, rfl, rfl⟩
      | invalid => cases h
    | invalid => cases x <;> cases h
  · rintro ⟨g, a, rfl, rfl, rfl⟩
    rfl

theorem map_eq_valid_iff {f : A → B} {x : Checked A} {b : B} :
    f <$> x = .valid b ↔ ∃ a, x = .valid a ∧ f a = b := by
  constructor
  · intro h
    obtain ⟨g, a, hg, hx, hb⟩ := seq_eq_valid_iff.mp h
    cases hg
    exact ⟨a, hx, hb⟩
  · rintro ⟨a, rfl, rfl⟩
    rfl

theorem under_eq_valid_iff {step : PathStep} {x : Checked A} {a : A} :
    x.under step = .valid a ↔ x = .valid a := by
  cases x with
  | valid => rfl
  | invalid => exact iff_of_false nofun nofun

theorem ofExcept_eq_valid_iff {e : Except Complaint A} {a : A} :
    ofExcept e = .valid a ↔ e = .ok a := by
  cases e with
  | ok b =>
    rw [ofExcept, valid.injEq, Except.ok.injEq]
  | error => exact iff_of_false nofun nofun

end Checked

/-! ## Fields -/

namespace Value

variable {φ A : Type} [Foreign φ] {entries : List (Value φ × Value φ)} {name : String}
  {default a : A} {parse read : Value φ → Except Complaint A} {P : A → Prop}

/-- The value that a field has among entries: what it reads as, or its default where it is
missing. -/
def Gives (entries : List (Value φ × Value φ)) (name : String) (default : A)
    (parse : Value φ → Except Complaint A) (a : A) : Prop :=
  (field? name entries).elim (a = default) fun v ↦ parse v = .ok a

/-- A field that is there is tested against its range. -/
theorem checkField_eq_valid_iff (hread : ∀ v a, read v = .ok a ↔ parse v = .ok a ∧ P a) :
    checkField entries name default (.ofExcept ∘ read) = .valid a ↔
      Gives entries name default parse a ∧ ((field? name entries).isSome → P a) := by
  unfold checkField Gives
  cases field? name entries with
  | none =>
    change Checked.valid default = .valid a ↔ a = default ∧ _
    rw [Checked.valid.injEq, eq_comm, and_iff_left nofun]
  | some v =>
    rw [Checked.under_eq_valid_iff, Function.comp_apply, Checked.ofExcept_eq_valid_iff, hread]
    simp

/-- If the default is in a range, every value is that is tested if it is there. -/
theorem Gives.holds (hgives : Gives entries name default parse a) (hdefault : P default)
    (h : (field? name entries).isSome → P a) : P a := by
  unfold Gives at hgives
  cases hfield : field? name entries with
  | none =>
    rw [hfield, Option.elim_none] at hgives
    rwa [hgives]
  | some v => exact h (by rw [hfield, Option.isSome_some])

theorem checkField_eq_valid_iff_of_default (hread : ∀ v a, read v = .ok a ↔ parse v = .ok a ∧ P a)
    (hdefault : P default) :
    checkField entries name default (.ofExcept ∘ read) = .valid a ↔
      Gives entries name default parse a ∧ P a := by
  rw [checkField_eq_valid_iff hread]
  exact and_congr_right fun hgives ↦ ⟨hgives.holds hdefault, fun h _ ↦ h⟩

theorem checkField_eq_valid_iff_gives :
    checkField entries name default (.ofExcept ∘ read) = .valid a ↔
      Gives entries name default read a := by
  rw [checkField_eq_valid_iff_of_default (P := fun _ ↦ True) (fun _ _ ↦ (and_iff_left trivial).symm)
    trivial, and_iff_left trivial]

theorem asSection_eq_valid_iff {read : List (Value φ × Value φ) → Checked A} {v : Value φ} :
    asSection read v = .valid a ↔
      ∃ entries, v.entries? = some entries ∧ read entries = .valid a := by
  rw [asSection]
  cases v.entries? with
  | none => exact iff_of_false nofun nofun
  | some entries => simp only [Option.some.injEq, exists_eq_left']

end Value

/-! ## Bounds and readers -/

theorem Bound.check_eq_ok_iff {α : Type} [Scalar α] {bounds : List (Bound α)} {x y : α} :
    check bounds x = .ok y ↔ x = y ∧ ∀ b ∈ bounds, b.holds y = true := by
  unfold check
  cases hfind : bounds.find? (!·.holds x) with
  | none =>
    simp only [List.find?_eq_none, Bool.not_eq_true', Bool.not_eq_false] at hfind
    change Except.ok x = Except.ok y ↔ _
    rw [Except.ok.injEq]
    refine ⟨?_, fun h ↦ h.1⟩
    rintro rfl
    exact ⟨rfl, hfind⟩
  | some b =>
    refine iff_of_false nofun ?_
    rintro ⟨rfl, hall⟩
    have hb := List.find?_some hfind
    rw [hall b (List.mem_of_find?_eq_some hfind)] at hb
    cases hb

namespace Readers

variable {φ α : Type} {r : Readers φ α}

theorem positive_eq_ok_iff (v : Value φ) (k : ℤ) :
    r.positive v = .ok k ↔ r.integer v = .ok k ∧ 0 < k := by
  rw [positive]
  cases r.integer v with
  | error => exact iff_of_false nofun fun h ↦ nomatch h.1
  | ok j =>
    change (if j ≤ 0 then throw _ else pure j) = Except.ok k ↔ _
    split_ifs with h
    · refine iff_of_false nofun ?_
      rintro ⟨hj, hk⟩
      cases hj
      exact absurd hk h.not_gt
    · refine ⟨fun hj ↦ ?_, fun hj ↦ hj.1⟩
      cases hj
      exact ⟨rfl, not_le.mp h⟩

variable [Scalar α] {bounds : List (Bound α)}

theorem bind_check_eq_ok_iff (v : Value φ) (x : α) :
    r.real v >>= Bound.check bounds = .ok x ↔
      r.real v = .ok x ∧ ∀ b ∈ bounds, b.holds x = true := by
  cases r.real v with
  | error => exact iff_of_false nofun fun h ↦ nomatch h.1
  | ok y =>
    rw [Except.ok.injEq]
    exact Bound.check_eq_ok_iff

theorem sigma_eq_ok_iff (delta : α) (v : Value φ) (x : α) :
    r.sigma (some delta) v = .ok x ↔ r.real v = .ok x ∧
      (∀ b ∈ [Bound.below 1.0, .above 0.0], b.holds x = true) ∧ ¬x < delta := by
  rw [← and_assoc, ← bind_check_eq_ok_iff]
  have hbind : r.sigma (some delta) v =
      (r.real v >>= Bound.check [.below 1.0, .above 0.0]) >>= fun x ↦
        if x < delta then .error (.refused "sigma must be >= delta") else .ok x :=
    (bind_assoc (m := Except Complaint) ..).symm
  rw [hbind]
  cases r.real v >>= Bound.check [.below 1.0, .above 0.0] with
  | error => exact iff_of_false nofun fun h ↦ nomatch h.1
  | ok y =>
    change (if y < delta then _ else _) = Except.ok x ↔ _
    rw [Except.ok.injEq]
    split_ifs with h
    · refine iff_of_false nofun ?_
      rintro ⟨rfl, hx⟩
      exact hx h
    · rw [Except.ok.injEq]
      refine ⟨?_, fun hx ↦ hx.1⟩
      rintro rfl
      exact ⟨rfl, h⟩

/-! ## The fields of the sections -/

variable [Foreign φ] {entries : List (Value φ × Value φ)} {name : String} {default x delta : α}
  {k k' : ℤ}

theorem checkField_bounded (hdefault : ∀ b ∈ bounds, b.holds default = true) :
    Value.checkField entries name default (r.bounded bounds) = .valid x ↔
      Value.Gives entries name default r.real x ∧ ∀ b ∈ bounds, b.holds x = true :=
  Value.checkField_eq_valid_iff_of_default bind_check_eq_ok_iff hdefault

theorem checkField_unit (hdefault : 0.0 < default ∧ default < 1.0) :
    Value.checkField entries name default (r.bounded [.below 1.0, .above 0.0]) = .valid x ↔
      Value.Gives entries name default r.real x ∧ 0.0 < x ∧ x < 1.0 := by
  rw [checkField_bounded (by simpa [Bound.holds] using hdefault.symm)]
  simp [Bound.holds, and_comm]

theorem checkField_above {y : α} (hdefault : y < default) :
    Value.checkField entries name default (r.bounded [.above y]) = .valid x ↔
      Value.Gives entries name default r.real x ∧ y < x := by
  rw [checkField_bounded (by simpa [Bound.holds] using hdefault)]
  simp [Bound.holds]

theorem checkField_atLeast {y : α} (hdefault : y ≤ default) :
    Value.checkField entries name default (r.bounded [.atLeast y]) = .valid x ↔
      Value.Gives entries name default r.real x ∧ y ≤ x := by
  rw [checkField_bounded (by simpa [Bound.holds] using hdefault)]
  simp [Bound.holds]

omit [Scalar α] in
theorem checkField_count (hdefault : 0 < k) :
    Value.checkField entries name k (.ofExcept ∘ r.positive) = .valid k' ↔
      Value.Gives entries name k r.integer k' ∧ 0 < k' :=
  Value.checkField_eq_valid_iff_of_default positive_eq_ok_iff hdefault

/-- The curvature parameter is compared with the decrease parameter only if it is there. -/
theorem checkField_sigma (hdefault : 0.0 < default ∧ default < 1.0) :
    Value.checkField entries name default (.ofExcept ∘ r.sigma (some delta)) = .valid x ↔
      Value.Gives entries name default r.real x ∧ (0.0 < x ∧ x < 1.0) ∧
        ((Value.field? name entries).isSome → ¬x < delta) := by
  have hbounds : ∀ y : α, (∀ b ∈ [Bound.below 1.0, .above 0.0], b.holds y = true) ↔
      0.0 < y ∧ y < 1.0 := by simp [Bound.holds, and_comm]
  rw [Value.checkField_eq_valid_iff (sigma_eq_ok_iff delta)]
  refine and_congr_right fun hgives ↦ ?_
  rw [imp_and, hbounds]
  exact and_congr_left' ⟨hgives.holds (P := fun y ↦ 0.0 < y ∧ y < 1.0) hdefault, fun h _ ↦ h⟩

end Readers

end NonlinearCG
