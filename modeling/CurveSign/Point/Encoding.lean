import CurveSign.Point.Affine
import CurveSign.Rejection

namespace CurveSign

/-!
# SEC1 encodings of points

A point other than the identity has a compressed form of 33 bytes, a tag `02` or `03` for an even
or odd y and the x-coordinate, and an uncompressed form of 65 bytes, the tag `04` and both
coordinates.  The identity is written as zero bytes, which are never read back.
-/

namespace AffinePoint

/-- The compressed form; zero bytes for the identity. -/
def toCompressed : AffinePoint → List UInt8
  | identity => List.replicate 33 0
  | finite x y => (if y.isOdd then 3 else 2) :: x.toBytes

/-- The uncompressed form; zero bytes for the identity. -/
def toUncompressed : AffinePoint → List UInt8
  | identity => List.replicate 65 0
  | finite x y => 4 :: (x.toBytes ++ y.toBytes)

/-- The point with the given coordinate bytes and parity of y. -/
def decompressBytes (x : List UInt8) (yOdd : Bool) : Option AffinePoint :=
  (Residue.ofBytes? x).bind fun x => decompress x yOdd

/-- The point with the given bytes of both coordinates, if it lies on the curve. -/
def ofCoordinateBytes (x y : List UInt8) : Option AffinePoint :=
  (Residue.ofBytes? x).bind fun x => (Residue.ofBytes? y).bind fun y =>
    if isOnCurve x y then some (finite x y) else none

/-- The point that an encoding of a supported tag and length stands for. -/
def require (point : Option AffinePoint) : Except Rejection AffinePoint :=
  match point with
  | some p => .ok p
  | none => .error .pointNotOnCurve

/-- The point of a compressed or an uncompressed form.  Refused are any other tag and length, a
coordinate that is not below `p`, and a point that is not on the curve. -/
def ofSec1 : List UInt8 → Except Rejection AffinePoint
  | [] => .error (.unsupportedPointEncoding 0)
  | tag :: rest =>
    if (tag = 2 ∨ tag = 3) ∧ rest.length = 32 then require (decompressBytes rest (tag == 3))
    else if tag = 4 ∧ rest.length = 64 then
      require (ofCoordinateBytes (rest.take 32) (rest.drop 32))
    else .error (.unsupportedPointEncoding (rest.length + 1))

end AffinePoint

end CurveSign
