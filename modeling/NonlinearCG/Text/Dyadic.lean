/-!
# Doubles as exact rationals

Every finite double is `± m · 2 ^ q` with natural `m`. Its texts are computed from this form in
exact integer arithmetic.
-/

namespace NonlinearCG.Text

/-- The rational `num / den`. -/
structure Ratio where
  num : Nat
  den : Nat

namespace Ratio

/-- The rational `m · b ^ k`. -/
def scaled (m b : Nat) (k : Int) : Ratio :=
  if 0 ≤ k then ⟨m * Nat.pow b k.toNat, 1⟩ else ⟨m, Nat.pow b (-k).toNat⟩

/-- The product with a power. -/
def shift (r : Ratio) (b : Nat) (k : Int) : Ratio :=
  if 0 ≤ k then { r with num := r.num * Nat.pow b k.toNat }
  else { r with den := r.den * Nat.pow b (-k).toNat }

def le (r s : Ratio) : Bool := r.num * s.den ≤ s.num * r.den

def lt (r s : Ratio) : Bool := r.num * s.den < s.num * r.den

def floor (r : Ratio) : Nat := r.num / r.den

/-- The nearest integer, the even one of two. -/
def round (r : Ratio) : Nat :=
  let q := r.num / r.den
  let rest := 2 * (r.num % r.den)
  if rest < r.den then q
  else if r.den < rest then q + 1
  else if q % 2 = 0 then q else q + 1

/-- The exponent `e` with `10 ^ e ≤ r < 10 ^ (e + 1)`, for a positive rational. The difference of
the binary logarithms is off by less than one, so one of four neighbouring exponents fits. -/
def decimalExponent (r : Ratio) : Int :=
  let bits : Int := (Nat.log2 r.num : Int) - Nat.log2 r.den
  let guess := Int.fdiv (bits * 30103) 100000
  let fits (e : Int) : Bool := (scaled 1 10 e).le r
  if fits (guess + 1) then guess + 1
  else if fits guess then guess
  else if fits (guess - 1) then guess - 1
  else guess - 2

end Ratio

/-- The magnitude of a finite double. -/
structure Dyadic where
  mantissa : Nat
  exponent : Int

namespace Dyadic

/-- The number of fraction bits of a double. -/
def fractionBits : Nat := 52

/-- The mantissa bit in front of the fraction bits, which is not stored. -/
def leadingBit : Nat := Nat.pow 2 fractionBits

/-- The bit of the sign in a bit pattern. -/
def signBit : Nat := Nat.pow 2 63

/-- The exponent of the smallest double. -/
def leastExponent : Int := -1074

/-- The magnitude of a finite double, from its bit pattern. -/
def ofFloat (x : Float) : Dyadic :=
  let bits : Nat := x.toBits.toNat % signBit
  let fraction : Nat := bits % leadingBit
  let field : Nat := bits / leadingBit
  if field = 0 then ⟨fraction, leastExponent⟩
  else ⟨leadingBit + fraction, leastExponent + ((field : Int) - 1)⟩

def ratio (d : Dyadic) : Ratio := .scaled d.mantissa 2 d.exponent

/-- The gap below a power of two is half as wide as the gap above it. -/
def narrowBelow (d : Dyadic) : Bool :=
  d.mantissa == leadingBit && d.exponent != leastExponent

/-- A rational is read back as this double: it lies no further away than half a gap, and an end of
that interval belongs to the double with an even mantissa. -/
def readsBack (d : Dyadic) (r : Ratio) : Bool :=
  let low : Ratio := .scaled (4 * d.mantissa - if d.narrowBelow then 1 else 2) 2 (d.exponent - 2)
  let high : Ratio := .scaled (4 * d.mantissa + 2) 2 (d.exponent - 2)
  if d.mantissa % 2 = 0 then low.le r && r.le high else low.lt r && r.lt high

end Dyadic

def isNegative (x : Float) : Bool := Dyadic.signBit ≤ x.toBits.toNat

end NonlinearCG.Text
