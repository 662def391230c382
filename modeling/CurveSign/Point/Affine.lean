import CurveSign.FieldElement

namespace CurveSign

/-!
# Affine points

Points of the curve `y² = x³ + 7` by their coordinates, and the identity, which has none.  Nothing
in the type says that the coordinates satisfy the equation; the functions that read points check
it, and `decompress` computes a `y` that does.
-/

/-- The identity, or a pair of coordinates. -/
inductive AffinePoint
  | identity
  | finite (x y : FieldElement)
deriving DecidableEq

namespace AffinePoint

instance : Inhabited AffinePoint := ⟨identity⟩

/-- The x-coordinate of the base point. -/
def generatorX : FieldElement :=
  ⟨⟨0x59F2815B16F81798, 0x029BFCDB2DCE28D9, 0x55A06295CE870B07, 0x79BE667EF9DCBBAC⟩, by decide⟩

/-- The y-coordinate of the base point. -/
def generatorY : FieldElement :=
  ⟨⟨0x9C47D08FFB10D4B8, 0xFD17B448A6855419, 0x5DA4FBFC0E1108A8, 0x483ADA7726A3C465⟩, by decide⟩

/-- The base point of the group. -/
def generator : AffinePoint := finite generatorX generatorY

/-- The point is the identity. -/
def isIdentity : AffinePoint → Bool
  | identity => true
  | finite _ _ => false

/-- The x-coordinate; zero for the identity. -/
def x : AffinePoint → FieldElement
  | identity => 0
  | finite x _ => x

/-- The y-coordinate; zero for the identity. -/
def y : AffinePoint → FieldElement
  | identity => 0
  | finite _ y => y

/-- The right-hand side `x³ + 7` of the curve equation. -/
def cubic (x : FieldElement) : FieldElement := x.square * x + FieldElement.seven

/-- The coordinates satisfy the curve equation. -/
def isOnCurve (x y : FieldElement) : Bool := y.square == cubic x

/-- The point with the given x-coordinate and parity of y, if there is one. -/
def decompress (x : FieldElement) (yOdd : Bool) : Option AffinePoint :=
  (cubic x).sqrt?.map fun root => finite x (if root.isOdd == yOdd then root else -root)

/-- The opposite point. -/
protected def neg : AffinePoint → AffinePoint
  | identity => identity
  | finite x y => finite x (-y)

instance : Neg AffinePoint := ⟨AffinePoint.neg⟩

/-- The text `AffinePoint { x: …, y: …, infinity: … }`, where infinity is 1 for the identity. -/
def describe (p : AffinePoint) : String :=
  "AffinePoint \x7b x: " ++ p.x.describe ++ ", y: " ++ p.y.describe ++ ", infinity: " ++
    (if p.isIdentity then "1" else "0") ++ " \x7d"

end AffinePoint

end CurveSign
