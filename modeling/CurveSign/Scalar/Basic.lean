import CurveSign.FieldElement

namespace CurveSign

/-!
# Scalars

Numbers modulo the group order `n`.  A scalar is *high* above `(n - 1) / 2`; of a scalar other than
zero and its negation exactly one is.
-/

/-- A number modulo the group order. -/
abbrev Scalar := Residue Modulus.order

namespace Scalar

/-- The words of `(n - 1) / 2`. -/
def halfOrder : Word256 :=
  ⟨0xDFE92F46681B20A0, 0x5D576E7357A4501D, 0xFFFFFFFFFFFFFFFF, 0x7FFFFFFFFFFFFFFF⟩

/-- The words of `n - 2`. -/
def orderLessTwo : Word256 :=
  ⟨0xBFD25E8CD036413F, 0xBAAEDCE6AF48A03B, 0xFFFFFFFFFFFFFFFE, 0xFFFFFFFFFFFFFFFF⟩

/-- The scalar lies above `(n - 1) / 2`. -/
def isHigh (s : Scalar) : Bool := (halfOrder.subBorrow s.word).2

/-- The inverse of every scalar but zero, as the power `s^(n-2)`. -/
def invert? (s : Scalar) : Option Scalar :=
  if s.isZero then none else some (s.pow orderLessTwo)

/-- The scalar of a coordinate, and whether the coordinate had to be reduced. -/
def ofCoordinate (x : FieldElement) : Scalar × Bool := Residue.ofWord256 x.word

/-- The field element with the same number, which is always below `p`. -/
def toCoordinate? (s : Scalar) : Option FieldElement := Residue.ofWord256? s.word

/-- The text `Scalar([l0, l1, l2, l3])`, with the words in decimal. -/
def describe (s : Scalar) : String := "Scalar(" ++ s.word.describe ++ ")"

end Scalar

end CurveSign
