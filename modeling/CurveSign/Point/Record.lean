import CurveSign.Point.Encoding
import CurveSign.Point.Jacobian

namespace CurveSign

/-!
# Affine points as records

An affine point in memory: two coordinates, and a flag that is 1 for the identity and 0 for any other
point.  The operations work on the fields one by one, so a record could hold anything; those of the
identity and of the points of the curve are `AffineRecord.WellFormed`.
-/

/-- Two coordinates and the flag of the identity. -/
structure AffineRecord where
  x : FieldElement
  y : FieldElement
  infinity : UInt8
deriving DecidableEq

namespace AffineRecord

/-- The identity, with zeros for its coordinates. -/
def identity : AffineRecord := ⟨0, 0, 1⟩

/-- The point with the given coordinates. -/
def ofCoordinates (x y : FieldElement) : AffineRecord := ⟨x, y, 0⟩

instance : Inhabited AffineRecord := ⟨identity⟩

/-- The flag of the identity is set. -/
def isIdentity (r : AffineRecord) : Bool := r.infinity != 0

/-- The opposite point: the y-coordinate is negated, whatever the flag. -/
protected def neg (r : AffineRecord) : AffineRecord := { r with y := -r.y }

instance : Neg AffineRecord := ⟨AffineRecord.neg⟩

/-- One of two records, field by field. -/
def select (a b : AffineRecord) (second : Bool) : AffineRecord where
  x := if second then b.x else a.x
  y := if second then b.y else a.y
  infinity := if second then b.infinity else a.infinity

/-- The record is that of the identity, or its coordinates lie on the curve and its flag is not set. -/
def WellFormed (r : AffineRecord) : Prop :=
  (r.infinity = 1 ∧ r.x = 0 ∧ r.y = 0)
  ∨ (r.infinity = 0 ∧ AffinePoint.isOnCurve r.x r.y = true)

instance (r : AffineRecord) : Decidable r.WellFormed := inferInstanceAs (Decidable (_ ∨ _))

/-! ### Encodings -/

/-- The compressed form: zeros, with a tag and the x-coordinate put in unless the flag is set. -/
def toCompressed (r : AffineRecord) : List UInt8 :=
  if r.infinity = 0 then (if r.y.isOdd then 3 else 2) :: r.x.toBytes else List.replicate 33 0

/-- The uncompressed form: zeros, with a tag and the coordinates put in unless the flag is set. -/
def toUncompressed (r : AffineRecord) : List UInt8 :=
  if r.infinity = 0 then 4 :: (r.x.toBytes ++ r.y.toBytes) else List.replicate 65 0

/-! ### Points -/

/-- A triple for the record. -/
def toJacobian (r : AffineRecord) : JacobianPoint :=
  if r.isIdentity then .identity else ⟨r.x, r.y, 1⟩

end AffineRecord

/-- The record of a point. -/
def AffinePoint.toRecord : AffinePoint → AffineRecord
  | identity => .identity
  | finite x y => .ofCoordinates x y

/-- The record of the point that a triple stands for. -/
def JacobianPoint.toRecord (p : JacobianPoint) : AffineRecord :=
  match p.z.invert? with
  | none => .identity
  | some i => .ofCoordinates (p.x * i.square) (p.y * i.square * i)

/-- The record that an encoding stands for. -/
def AffineRecord.ofSec1 (bytes : List UInt8) : Except Rejection AffineRecord :=
  (AffinePoint.ofSec1 bytes).map AffinePoint.toRecord

end CurveSign
