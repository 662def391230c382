import CurveSign.Hash.Sha256
import CurveSign.Point.Encoding
import CurveSign.Signature.Equation
import CurveSign.Signature.Prehash

namespace CurveSign

/-!
# Verifying keys

A verifying key is a point other than the identity.  It accepts low signatures only, while
`recover` finds the key of any signature from the id of its point `R`: the key is
`r⁻¹ · (s · R - z · G)`.
-/

/-- A point other than the identity, by its coordinates. -/
structure VerifyingKey where
  x : FieldElement
  y : FieldElement
deriving DecidableEq

namespace VerifyingKey

/-- The point of the key. -/
def toAffine (key : VerifyingKey) : AffinePoint := .finite key.x key.y

/-- The key of a point; the identity is refused. -/
def ofAffine : AffinePoint → Except Rejection VerifyingKey
  | .identity => .error .identityKey
  | .finite x y => .ok ⟨x, y⟩

/-- The key of an encoded point. -/
def ofSec1 (bytes : List UInt8) : Except Rejection VerifyingKey :=
  match AffinePoint.ofSec1 bytes with
  | .ok point => ofAffine point
  | .error e => .error e

/-- Accepts a low signature of a hash. -/
def verifyPrehash (key : VerifyingKey) (prehash : List UInt8) (sig : Signature) :
    Except Rejection Unit := do
  let z ← messageNumber prehash
  if sig.s.isHigh then .error .highS else checkEquation key.toAffine z sig

/-- Accepts a low signature of a message. -/
def verify (key : VerifyingKey) (message : List UInt8) (sig : Signature) : Except Rejection Unit :=
  key.verifyPrehash (Sha256.digest message) sig

/-! ### Recovery -/

/-- The x-coordinate of the point `R` of a signature: `r`, or `r + n` for a reduced one. -/
def recoverX (r : Scalar) (xReduced : Bool) : Except Rejection FieldElement :=
  match r.toCoordinate? with
  | none => .error .notCoordinate
  | some x =>
    if xReduced then
      if x.compare FieldElement.primeLessOrder ≠ .lt then .error .reducedXOutOfRange
      else .ok (x + FieldElement.order)
    else .ok x

/-- The point `R` of a signature. -/
def recoverPoint (r : Scalar) (id : RecoveryId) : Except Rejection AffinePoint := do
  let x ← recoverX r id.xReduced
  match AffinePoint.decompress x id.yOdd with
  | none => .error .noPointWithX
  | some point => .ok point

/-- The key `r⁻¹ · (s · R - z · G)`. -/
def solveKey (point : AffinePoint) (z : Word256) (sig : Signature) :
    Except Rejection VerifyingKey :=
  match sig.r.invertByEuclid? with
  | none => .error .noInverse
  | some rInverse =>
    ofAffine (JacobianPoint.combine (-(rInverse * Residue.reduce z)) (rInverse * sig.s)
      (JacobianPoint.ofAffine point)).toAffine

/-- The key under which a signature of a hash verifies, given the id of its point `R`. -/
def recoverPrehash (prehash : List UInt8) (sig : Signature) (id : RecoveryId) :
    Except Rejection VerifyingKey := do
  let z ← messageNumber prehash
  if sig.r.isZero || sig.s.isZero then .error .zeroComponent
  else
    let point ← recoverPoint sig.r id
    let key ← solveKey point z sig
    checkEquation key.toAffine z sig
    return key

/-- The key under which a signature of a message verifies. -/
def recover (message : List UInt8) (sig : Signature) (id : RecoveryId) :
    Except Rejection VerifyingKey :=
  recoverPrehash (Sha256.digest message) sig id

/-! ### Text -/

/-- The compressed form. -/
def toCompressed (key : VerifyingKey) : List UInt8 := key.toAffine.toCompressed

/-- The uncompressed form. -/
def toUncompressed (key : VerifyingKey) : List UInt8 := key.toAffine.toUncompressed

/-- The text `VerifyingKey { inner: … }`. -/
def describe (key : VerifyingKey) : String :=
  "VerifyingKey \x7b inner: " ++ key.toAffine.describe ++ " \x7d"

end VerifyingKey

end CurveSign
