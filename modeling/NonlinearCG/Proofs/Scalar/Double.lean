import Mathlib
import NonlinearCG.Scalar.Double

/-!
# The order of doubles

The comparisons of doubles look at signs, exponents and mantissas, and every comparison with a value
that is no number is false. `place` puts the other doubles on a line, in lexicographic order, such
that the comparisons are those of the places (`compare_eq`). On numbers they are therefore total,
and they are transitive everywhere.
-/

namespace NonlinearCG.Double

open Float.Model

/-- The place of a double on a line. The two zeros are at the same place. -/
def place : UnpackedFloat → ℤ ×ₗ ℤ ×ₗ ℤ
  | .infinity .negative => toLex (-2, toLex (0, 0))
  | .finite .negative m e _ => toLex (-1, toLex (-e, -m))
  | .zero _ | .notANumber => toLex (0, toLex (0, 0))
  | .finite .positive m e _ => toLex (1, toLex (e, m))
  | .infinity .positive => toLex (2, toLex (0, 0))

theorem compare_toLex {α β : Type} [LinearOrder α] [LinearOrder β] (a b : α) (p q : β) :
    compare (toLex (a, p)) (toLex (b, q)) = (compare a b).then (compare p q) := by
  rw [Prod.Lex.compare_def]
  rfl

theorem compare_neg (a b : ℤ) : compare (-a) (-b) = (compare a b).swap := by
  have hanti : StrictAnti fun a : ℤ ↦ -a := fun _ _ h ↦ neg_lt_neg h
  rw [← cmp_eq_compare, ← cmp_eq_compare, cmp_swap]
  exact hanti.cmp_map_eq a b

theorem compare_natCast (m m' : ℕ) : compare (m : ℤ) m' = compare m m' := by
  have hmono : StrictMono (Nat.cast : ℕ → ℤ) := Nat.strictMono_cast
  rw [← cmp_eq_compare, ← cmp_eq_compare]
  exact hmono.cmp_map_eq m m'

theorem compare_of_numbers {a b : UnpackedFloat} (ha : ¬a.isNaN = true)
    (hb : ¬b.isNaN = true) : a.compare b = some (compare (place a) (place b)) := by
  rcases a with (_ | _) | _ | (_ | _) | ⟨_ | _, m, e, _⟩ <;>
    rcases b with (_ | _) | _ | (_ | _) | ⟨_ | _, m', e', _⟩
  case finite.negative.finite.negative =>
    simp only [UnpackedFloat.compare, place, compare_toLex, compare_neg, compare_natCast,
      Ordering.swap_then]
    rfl
  case finite.positive.finite.positive =>
    simp only [UnpackedFloat.compare, place, compare_toLex, compare_natCast]
    rfl
  all_goals first
    | rfl
    | exact absurd rfl ha
    | exact absurd rfl hb

theorem compare_eq (a b : UnpackedFloat) :
    a.compare b =
      if a.isNaN = false ∧ b.isNaN = false then some (compare (place a) (place b)) else none := by
  split_ifs with h
  · exact compare_of_numbers (Bool.eq_false_iff.mp h.1) (Bool.eq_false_iff.mp h.2)
  · cases a with
    | notANumber => rfl
    | infinity | zero | finite =>
      cases b with
      | notANumber => rfl
      | infinity | zero | finite => exact absurd ⟨rfl, rfl⟩ h

variable {x y z : Float}

theorem lt_iff : x < y ↔ (x.isNaN = false ∧ y.isNaN = false) ∧
    place x.toModel.unpack < place y.toModel.unpack := by
  change decide (x.toModel.unpack.lt y.toModel.unpack = true) = true ↔ _
  rw [decide_eq_true_iff, UnpackedFloat.lt, beq_iff_eq, compare_eq]
  split_ifs with h
  · rw [Option.some_inj, compare_lt_iff_lt]
    exact (and_iff_right h).symm
  · exact iff_of_false (by simp) fun hlt ↦ h hlt.1

theorem le_iff : x ≤ y ↔ (x.isNaN = false ∧ y.isNaN = false) ∧
    place x.toModel.unpack ≤ place y.toModel.unpack := by
  change decide (x.toModel.unpack.le y.toModel.unpack = true) = true ↔ _
  rw [decide_eq_true_iff, UnpackedFloat.le, compare_eq]
  split_ifs with h
  · rw [Option.any_some, Ordering.isLE_iff_ne_gt]
    exact compare_le_iff_le.trans (and_iff_right h).symm
  · exact iff_of_false (by simp) fun hle ↦ h hle.1

theorem not_lt_iff (hx : x.isNaN = false) (hy : y.isNaN = false) : ¬x < y ↔ y ≤ x := by
  rw [lt_iff, le_iff, and_iff_right ⟨hx, hy⟩, and_iff_right ⟨hy, hx⟩, not_lt]

theorem not_le_iff (hx : x.isNaN = false) (hy : y.isNaN = false) : ¬x ≤ y ↔ y < x := by
  rw [lt_iff, le_iff, and_iff_right ⟨hx, hy⟩, and_iff_right ⟨hy, hx⟩, not_le]

theorem not_le_of_lt (h : x < y) : ¬y ≤ x := by
  obtain ⟨⟨hx, hy⟩, -⟩ := lt_iff.mp h
  rwa [not_le_iff hy hx]

theorem not_lt_of_le (h : x ≤ y) : ¬y < x := by
  obtain ⟨⟨hx, hy⟩, -⟩ := le_iff.mp h
  rwa [not_lt_iff hy hx]

theorem le_of_lt (h : x < y) : x ≤ y := by
  obtain ⟨hnumbers, hlt⟩ := lt_iff.mp h
  exact le_iff.mpr ⟨hnumbers, hlt.le⟩

theorem lt_of_lt_of_le (hxy : x < y) (hyz : y ≤ z) : x < z := by
  rw [lt_iff] at hxy ⊢
  rw [le_iff] at hyz
  exact ⟨⟨hxy.1.1, hyz.1.2⟩, hxy.2.trans_le hyz.2⟩

theorem lt_of_le_of_lt (hxy : x ≤ y) (hyz : y < z) : x < z := by
  rw [lt_iff] at hyz ⊢
  rw [le_iff] at hxy
  exact ⟨⟨hxy.1.1, hyz.1.2⟩, hxy.2.trans_lt hyz.2⟩

theorem lt_trans (hxy : x < y) (hyz : y < z) : x < z := by
  rw [lt_iff] at hxy hyz ⊢
  exact ⟨⟨hxy.1.1, hyz.1.2⟩, hxy.2.trans hyz.2⟩

end NonlinearCG.Double
