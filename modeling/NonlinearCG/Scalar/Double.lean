import NonlinearCG.Scalar

/-!
# Doubles

The scalars that programs run on: IEEE binary64 numbers. Neighbours are found on the bit pattern,
whose magnitude bits count the doubles of one sign upwards from zero.
-/

namespace NonlinearCG.Double

/-- The neighbour in the direction of positive infinity. -/
def nextUp (x : Float) : Float :=
  if x.isNaN then x
  else if x == 0.0 then Float.ofBits 1
  else if 0.0 < x then if x.isInf then x else Float.ofBits (x.toBits + 1)
  else Float.ofBits (x.toBits - 1)

/-- The signed gap to the neighbour away from zero, no number for an infinity. -/
def spacing (x : Float) : Float :=
  if x.isInf || x.isNaN then 0.0 / 0.0
  else if x == 0.0 then Float.ofBits 1
  else Float.ofBits (x.toBits + 1) - x

/-- An interval of doubles is narrower than `2 ^ 1025` and no gap is narrower than `2 ^ -1074`. -/
def halvings : Nat := 2200

end NonlinearCG.Double

namespace NonlinearCG

instance : Scalar Float where
  decidableLT := inferInstance
  decidableLE := inferInstance
  abs := Float.abs
  sqrt := Float.sqrt
  isFinite := Float.isFinite
  isNaN := Float.isNaN
  nan := 0.0 / 0.0
  infinity := 1.0 / 0.0
  spacing := Double.spacing
  nextUp := Double.nextUp
  halvings _ _ := Double.halvings

end NonlinearCG
