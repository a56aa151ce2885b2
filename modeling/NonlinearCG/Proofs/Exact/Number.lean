import Mathlib
import NonlinearCG.Scalar

/-!
# Exact arithmetic

The scalars in which the optimizer is studied: an ordered field with two infinities and a value
that is no number. On numbers the operations are those of the field; elsewhere they follow the
rules of floating point, so that `x / 0` is an infinity or no number, `0 * ∞` is no number and every
comparison with a value that is no number is false. There is one zero, without a sign.

The neighbours of a scalar, its square root and the number of halvings of an interval have no exact
counterpart. They are parameters, collected in a `Grid`, and results state what they need of them.
-/

namespace NonlinearCG

/-- What the numeral `2` of a field rests on, under one name for all definitions that use it. -/
instance atLeastTwo_two : Nat.AtLeastTwo 2 := ⟨le_rfl⟩

/-- The operations on numbers that exact arithmetic leaves open. -/
structure Grid (K : Type) where
  sqrt : K → K
  /-- The gap at a number. -/
  spacing : K → K
  /-- The neighbour of a number in the direction of positive infinity. -/
  nextUp : K → K
  /-- The number of halvings granted between two numbers. -/
  halvings : K → K → ℕ

namespace Grid

/-- The rationals with gaps as wide as those of doubles: as wide relative to the number, apart from
zero. -/
def rational : Grid ℚ where
  sqrt := Rat.sqrt
  spacing x := if x = 0 then 1 / 2 ^ 1074 else |x| / 2 ^ 52
  nextUp x := x + if x = 0 then 1 / 2 ^ 1074 else |x| / 2 ^ 52
  halvings _ _ := 1100

/-- After so many halvings, no part of an interval is wider than the gap at its right end. -/
def Exhausts {K : Type} [Field K] [LinearOrder K] (G : Grid K) (n : ℕ) (a b : K) : Prop :=
  ∀ x, a < x → x ≤ b → b - a ≤ G.spacing x * 2 ^ n

theorem rational_spacing_pos (x : ℚ) : 0 < rational.spacing x := by
  change 0 < if x = 0 then (1 : ℚ) / 2 ^ 1074 else |x| / 2 ^ 52
  split_ifs with h
  · positivity
  · positivity

theorem rational_spacing_lt {x : ℚ} (h : 0 < x) : rational.spacing x < x := by
  change (if x = 0 then (1 : ℚ) / 2 ^ 1074 else |x| / 2 ^ 52) < x
  rw [if_neg h.ne', abs_of_pos h]
  exact div_lt_self h (by norm_num)

theorem rational_le_nextUp (x : ℚ) : x ≤ rational.nextUp x :=
  le_add_of_nonneg_right (rational_spacing_pos x).le

/-- The rationals with gaps of one width, and the halvings that this width requires. -/
def even : Grid ℚ where
  sqrt := Rat.sqrt
  spacing _ := 1 / 2 ^ 52
  nextUp x := x + 1 / 2 ^ 52
  halvings a b := Nat.clog 2 ⌈(b - a) * 2 ^ 52⌉₊

theorem even_spacing_pos (x : ℚ) : 0 < even.spacing x := by
  change (0 : ℚ) < 1 / 2 ^ 52
  positivity

theorem even_exhausts (a b : ℚ) : even.Exhausts (even.halvings a b) a b := by
  intro x _ _
  change b - a ≤ 1 / 2 ^ 52 * 2 ^ Nat.clog 2 ⌈(b - a) * 2 ^ 52⌉₊
  have hceil : (b - a) * 2 ^ 52 ≤ ⌈(b - a) * 2 ^ 52⌉₊ := Nat.le_ceil _
  have hclog : ⌈(b - a) * 2 ^ 52⌉₊ ≤ 2 ^ Nat.clog 2 ⌈(b - a) * 2 ^ 52⌉₊ :=
    Nat.le_pow_clog one_lt_two _
  have hcast : ((⌈(b - a) * 2 ^ 52⌉₊ : ℕ) : ℚ) ≤ 2 ^ Nat.clog 2 ⌈(b - a) * 2 ^ 52⌉₊ := by
    exact_mod_cast hclog
  rw [div_mul_eq_mul_div, one_mul, le_div_iff₀ (by positivity)]
  exact hceil.trans hcast

end Grid

/-- The numbers of `K` with two infinities and a value that is no number. -/
inductive Exact {K : Type} (G : Grid K) where
  | num (x : K)
  | top
  | bot
  | nan
  deriving DecidableEq

namespace Exact

variable {K : Type} [Field K] [LinearOrder K] {G : Grid K}

/-! ## The operations -/

/-- The infinity with the sign of a number, and no number for zero. -/
def infinityOf (x : K) : Exact G := if 0 < x then top else if x < 0 then bot else nan

def neg : Exact G → Exact G
  | num x => num (-x)
  | top => bot
  | bot => top
  | nan => nan

def add : Exact G → Exact G → Exact G
  | num x, num y => num (x + y)
  | top, num _ | num _, top | top, top => top
  | bot, num _ | num _, bot | bot, bot => bot
  | _, _ => nan

def mul : Exact G → Exact G → Exact G
  | num x, num y => num (x * y)
  | num x, top | top, num x => infinityOf x
  | num x, bot | bot, num x => infinityOf (-x)
  | top, top | bot, bot => top
  | top, bot | bot, top => bot
  | _, _ => nan

def div : Exact G → Exact G → Exact G
  | num x, num y => if y = 0 then infinityOf x else num (x / y)
  | top, num y => if y < 0 then bot else top
  | bot, num y => if y < 0 then top else bot
  | num _, top | num _, bot => num 0
  | _, _ => nan

def abs : Exact G → Exact G
  | num x => num |x|
  | top | bot => top
  | nan => nan

def sqrt : Exact G → Exact G
  | num x => if x < 0 then nan else num (G.sqrt x)
  | top => top
  | bot | nan => nan

def spacing : Exact G → Exact G
  | num x => num (G.spacing x)
  | _ => nan

def nextUp : Exact G → Exact G
  | num x => num (G.nextUp x)
  | x => x

def halvings : Exact G → Exact G → ℕ
  | num x, num y => G.halvings x y
  | _, _ => 0

def isFinite : Exact G → Bool
  | num _ => true
  | _ => false

def isNaN : Exact G → Bool
  | nan => true
  | _ => false

def lt : Exact G → Exact G → Prop
  | num x, num y => x < y
  | bot, num _ | num _, top | bot, top => True
  | _, _ => False

def le : Exact G → Exact G → Prop
  | num x, num y => x ≤ y
  | bot, num _ | num _, top | bot, top | top, top | bot, bot => True
  | _, _ => False

def beq : Exact G → Exact G → Bool
  | num x, num y => x = y
  | top, top | bot, bot => true
  | _, _ => false

instance decidableLt : ∀ x y : Exact G, Decidable (lt x y)
  | num x, num y => inferInstanceAs (Decidable (x < y))
  | bot, num _ | num _, top | bot, top => isTrue trivial
  | num _, bot | num _, nan | bot, bot | bot, nan => isFalse id
  | top, _ | nan, _ => isFalse id

instance decidableLe : ∀ x y : Exact G, Decidable (le x y)
  | num x, num y => inferInstanceAs (Decidable (x ≤ y))
  | bot, num _ | num _, top | bot, top | top, top | bot, bot => isTrue trivial
  | num _, bot | num _, nan | bot, nan | top, num _ | top, bot | top, nan => isFalse id
  | nan, _ => isFalse id

instance : Scalar (Exact G) where
  add := add
  sub x y := add x (neg y)
  mul := mul
  div := div
  neg := neg
  lt := lt
  le := le
  beq := beq
  ofScientific m s e := num (OfScientific.ofScientific m s e)
  decidableLT := decidableLt
  decidableLE := decidableLe
  abs := abs
  sqrt := sqrt
  isFinite := isFinite
  isNaN := isNaN
  nan := nan
  infinity := top
  spacing := spacing
  nextUp := nextUp
  halvings := halvings

/-- The number that a scalar is, and zero for the others. -/
def toNum : Exact G → K
  | num x => x
  | _ => 0

/-! ## Numbers

On numbers every operation is that of the field. -/

section Numbers

variable {x y : K}

omit [Field K] [LinearOrder K] in
@[simp] theorem num_inj : (num x : Exact G) = num y ↔ x = y := ⟨fun h ↦ by cases h; rfl, congrArg _⟩

@[simp] theorem num_add : (num x + num y : Exact G) = num (x + y) := rfl

@[simp] theorem num_sub : (num x - num y : Exact G) = num (x - y) :=
  congrArg num (sub_eq_add_neg x y).symm

@[simp] theorem num_mul : (num x * num y : Exact G) = num (x * y) := rfl

@[simp] theorem num_neg : (-num x : Exact G) = num (-x) := rfl

theorem num_div (h : y ≠ 0) : (num x / num y : Exact G) = num (x / y) := if_neg h

@[simp] theorem num_lt : (num x : Exact G) < num y ↔ x < y := Iff.rfl

@[simp] theorem num_le : (num x : Exact G) ≤ num y ↔ x ≤ y := Iff.rfl

@[simp] theorem num_beq : ((num x : Exact G) == num y) = decide (x = y) := rfl

theorem eq_of_beq {z w : Exact G} (h : (z == w) = true) : z = w := by
  cases z with
  | num x =>
    cases w with
    | num y => exact congrArg num (of_decide_eq_true h)
    | top | bot | nan => cases h
  | top | bot | nan => cases w <;> first | rfl | cases h

@[simp] theorem abs_num : Scalar.abs (num x : Exact G) = num |x| := rfl

@[simp] theorem isFinite_num : Scalar.isFinite (num x : Exact G) = true := rfl

@[simp] theorem isNaN_num : Scalar.isNaN (num x : Exact G) = false := rfl

@[simp] theorem isNaN_nan : Scalar.isNaN (Scalar.nan : Exact G) = true := rfl

@[simp] theorem spacing_num : Scalar.spacing (num x : Exact G) = num (G.spacing x) := rfl

@[simp] theorem num_le_infinity : (num x : Exact G) ≤ Scalar.infinity := trivial


@[simp] theorem not_infinity_le_num : ¬(Scalar.infinity : Exact G) ≤ num x := id

@[simp] theorem not_infinity_lt {z : Exact G} : ¬(Scalar.infinity : Exact G) < z := id

@[simp] theorem num_lt_infinity : (num x : Exact G) < Scalar.infinity := trivial

@[simp] theorem lesser_infinity : Scalar.lesser Scalar.infinity (num x : Exact G) = num x :=
  if_pos num_lt_infinity

@[simp] theorem lesser_num_infinity : Scalar.lesser (num x : Exact G) Scalar.infinity = num x :=
  if_neg not_infinity_lt

@[simp] theorem lesser_num : Scalar.lesser (num x) (num y) = (num (min x y) : Exact G) := by
  rw [Scalar.lesser]
  rcases lt_or_ge y x with h | h
  · rw [if_pos (num_lt.mpr h), min_eq_right h.le]
  · rw [if_neg (num_lt.not.mpr h.not_gt), min_eq_left h]

@[simp] theorem greater_num : Scalar.greater (num x) (num y) = (num (max x y) : Exact G) := by
  rw [Scalar.greater]
  rcases lt_or_ge x y with h | h
  · rw [if_pos (num_lt.mpr h), max_eq_right h.le]
  · rw [if_neg (num_lt.not.mpr h.not_gt), max_eq_left h]

@[simp] theorem maximum_num : Scalar.maximum (num x) (num y) = (num (max x y) : Exact G) := by
  rw [Scalar.maximum, isNaN_num, Bool.or_false]
  rcases le_total y x with h | h
  · rw [if_pos (decide_eq_true (num_le.mpr h)), max_eq_left h]
  · rcases h.lt_or_eq with hlt | rfl
    · rw [if_neg (by simpa using hlt), max_eq_right h]
    · rw [max_self, ite_self]

@[simp] theorem square_num : Scalar.square (num x : Exact G) = .ok (num (x * x)) := rfl

theorem ofScientific_eq (m : ℕ) (s : Bool) (e : ℕ) :
    (OfScientific.ofScientific m s e : Exact G) = num (OfScientific.ofScientific m s e) := rfl

theorem isFinite_of_add {z w : Exact G} (h : Scalar.isFinite (z + w) = true) :
    Scalar.isFinite z = true ∧ Scalar.isFinite w = true := by
  cases z <;> cases w <;> first | exact ⟨rfl, rfl⟩ | cases h

theorem not_isFinite_infinityOf (x : K) : Scalar.isFinite (infinityOf x : Exact G) = false := by
  rw [infinityOf]
  split_ifs <;> rfl

theorem isFinite_of_mul {z w : Exact G} (h : Scalar.isFinite (z * w) = true) :
    Scalar.isFinite z = true ∧ Scalar.isFinite w = true := by
  have hinfinite : ∀ x : K, Scalar.isFinite (infinityOf x : Exact G) ≠ true := fun x ↦ by
    rw [not_isFinite_infinityOf]
    exact Bool.false_ne_true
  cases z with
  | num x =>
    cases w with
    | num y => exact ⟨rfl, rfl⟩
    | top => exact absurd h (hinfinite x)
    | bot => exact absurd h (hinfinite (-x))
    | nan => cases h
  | top =>
    cases w with
    | num y => exact absurd h (hinfinite y)
    | top | bot | nan => cases h
  | bot =>
    cases w with
    | num y => exact absurd h (hinfinite (-y))
    | top | bot | nan => cases h
  | nan => cases w <;> cases h

protected theorem lt_of_le_of_lt {x y z : Exact G} (hxy : x ≤ y) (hyz : y < z) : x < z := by
  cases y with
  | num b =>
    cases x with
    | num a => cases z <;> first | exact lt_of_le_of_lt hxy hyz | exact hyz
    | bot => cases z <;> first | exact trivial | exact hyz
    | top | nan => exact hxy.elim
  | bot =>
    cases x with
    | bot => exact hyz
    | num a | top | nan => exact hxy.elim
  | top | nan => exact hyz.elim

protected theorem lt_of_lt_of_le {x y z : Exact G} (hxy : x < y) (hyz : y ≤ z) : x < z := by
  cases y with
  | num b =>
    cases x with
    | num a => cases z <;> first | exact lt_of_lt_of_le hxy hyz | exact hyz
    | bot => cases z <;> first | exact trivial | exact hyz
    | top | nan => exact hxy.elim
  | top =>
    cases z with
    | top => exact hxy
    | num a | bot | nan => exact hyz.elim
  | bot | nan => cases x <;> exact hxy.elim

protected theorem le_trans {x y z : Exact G} (hxy : x ≤ y) (hyz : y ≤ z) : x ≤ z := by
  cases y with
  | num b =>
    cases x with
    | num a => cases z <;> first | exact le_trans hxy hyz | exact hyz
    | bot => cases z <;> first | exact trivial | exact hyz
    | top | nan => exact hxy.elim
  | bot =>
    cases x with
    | bot => exact hyz
    | num a | top | nan => exact hxy.elim
  | top =>
    cases z with
    | top => cases x <;> first | exact trivial | exact hxy
    | num a | bot | nan => exact hyz.elim
  | nan => cases x <;> exact hxy.elim

protected theorem le_of_lt {x y : Exact G} (h : x < y) : x ≤ y := by
  cases x <;> cases y <;> first | exact le_of_lt h | exact h | exact h.elim

instance : Trans (LE.le : Exact G → Exact G → Prop) LE.le LE.le := ⟨Exact.le_trans⟩

instance : Trans (LE.le : Exact G → Exact G → Prop) LT.lt LT.lt := ⟨Exact.lt_of_le_of_lt⟩

instance : Trans (LT.lt : Exact G → Exact G → Prop) LE.le LT.lt := ⟨Exact.lt_of_lt_of_le⟩

protected theorem add_comm (z w : Exact G) : z + w = w + z := by
  cases z with
  | num x =>
    cases w with
    | num y => exact congrArg num (add_comm x y)
    | top | bot | nan => rfl
  | top | bot | nan => cases w <;> rfl

protected theorem zero_add (z : Exact G) : num 0 + z = z := by
  cases z with
  | num x => exact congrArg num (zero_add x)
  | top | bot | nan => rfl

theorem le_num_of_maximum {z w : Exact G} (h : Scalar.maximum z w ≤ num x) :
    z ≤ num x ∧ w ≤ num x := by
  cases z with
  | num a =>
    cases w with
    | num b =>
      rw [maximum_num] at h
      exact max_le_iff.mp h
    | bot => exact ⟨h, trivial⟩
    | top | nan => exact h.elim
  | bot => cases w <;> exact ⟨trivial, h⟩
  | top | nan => cases w <;> exact h.elim

theorem eq_zero_of_abs [IsStrictOrderedRing K] {z : Exact G} (h : Scalar.abs z ≤ num 0) :
    z = num 0 := by
  cases z with
  | num a => exact congrArg num (abs_nonpos_iff.mp h)
  | top | bot | nan => exact h.elim

theorem infinityOf_of_pos (h : 0 < x) : infinityOf x = (top : Exact G) := if_pos h

theorem infinityOf_of_neg (h : x < 0) : infinityOf x = (bot : Exact G) :=
  (if_neg h.not_gt).trans (if_pos h)

theorem not_nan_lt (z : Exact G) : ¬nan < z := id

theorem not_lt_nan (z : Exact G) : ¬z < nan := by
  cases z <;> exact id

@[simp] theorem lesser_nan (z : Exact G) : Scalar.lesser nan z = nan := if_neg (not_lt_nan z)

@[simp] theorem greater_nan (z : Exact G) : Scalar.greater nan z = nan := if_neg (not_nan_lt z)

theorem isFinite_iff {z : Exact G} : Scalar.isFinite z = true ↔ ∃ a, z = num a := by
  cases z with
  | num a => exact iff_of_true rfl ⟨a, rfl⟩
  | top | bot | nan => exact iff_of_false Bool.false_ne_true (by rintro ⟨_, h⟩; cases h)

theorem bothFinite_iff {z w : Exact G} :
    Scalar.bothFinite z w = true ↔ (∃ a, z = num a) ∧ ∃ b, w = num b := by
  rw [Scalar.bothFinite, Bool.and_eq_true, isFinite_iff, isFinite_iff]

theorem num_or_bot_of_lt {z : Exact G} {a : K} (h : z < num a) : (∃ b, z = num b) ∨ z = bot := by
  cases z with
  | num b => exact Or.inl ⟨b, rfl⟩
  | bot => exact Or.inr rfl
  | top | nan => exact h.elim

theorem exists_num_of_lt_of_lt {z w : Exact G} {a : K} (hz : num a < z) (hw : z < w) :
    ∃ b, z = num b := by
  cases z with
  | num b => exact ⟨b, rfl⟩
  | top => cases w <;> exact hw.elim
  | bot | nan => exact hz.elim

theorem exists_nums_of_le {z w : Exact G} {a b : K} (hz : num a < z) (hzw : z ≤ w)
    (hw : w < num b) : (∃ x, z = num x) ∧ ∃ y, w = num y := by
  cases z with
  | num x =>
    cases w with
    | num y => exact ⟨⟨x, rfl⟩, y, rfl⟩
    | top => exact hw.elim
    | bot | nan => exact hzw.elim
  | top =>
    cases w with
    | top => exact hw.elim
    | num y | bot | nan => exact hzw.elim
  | bot | nan => exact hz.elim

end Numbers

/-! ## Literals and quotients -/

section Literals

variable [IsStrictOrderedRing K] {x y : K}

@[simp] theorem zero_eq : (0.0 : Exact G) = num 0 := by rw [ofScientific_eq]; norm_num

@[simp] theorem one_eq : (1.0 : Exact G) = num 1 := by rw [ofScientific_eq]; norm_num

@[simp] theorem two_eq : (2.0 : Exact G) = num 2 := by rw [ofScientific_eq]; norm_num

@[simp] theorem half_eq : (0.5 : Exact G) = num (1 / 2) := by rw [ofScientific_eq]; norm_num

theorem exists_num_of_pos_of_lt {z : Exact G} (hpos : 0.0 < z) (hlt : z < num y) :
    ∃ x, 0 < x ∧ x < y ∧ z = num x := by
  rw [zero_eq] at hpos
  obtain ⟨x, rfl⟩ := exists_num_of_lt_of_lt hpos hlt
  exact ⟨x, num_lt.mp hpos, num_lt.mp hlt, rfl⟩

theorem divide_num (h : y ≠ 0) :
    Scalar.divide (num x : Exact G) (num y) = .ok (num (x / y)) := by
  rw [Scalar.divide, zero_eq, num_beq, decide_eq_false h, num_div h]
  rfl

end Literals

end Exact

end NonlinearCG
