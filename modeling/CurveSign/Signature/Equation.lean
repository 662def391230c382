import CurveSign.Point.Multiple
import CurveSign.Scalar.Euclid
import CurveSign.Signature.Basic
import CurveSign.Signature.RecoveryId

namespace CurveSign

/-!
# The signature equation

Signing with a given nonce and verifying without any policy on `s`.  For a secret `d`, a message
number `z` and a nonce `k`, a signature has `r` the x-coordinate of `k · G` and
`s = k⁻¹ · (z + r · d)`.  It is accepted under `Q = d · G` because
`s⁻¹ · z · G + s⁻¹ · r · Q = k · G`.  The comparison of x-coordinates needs no inversion: the
x-coordinate of the point is `r`, or `r + n` if that is below `p`.
-/

/-- A signature with the id of the point `R` that it was made with. -/
structure Signed where
  signature : Signature
  id : RecoveryId
deriving DecidableEq

/-- The low form of a signature, with the id turned over if `s` is negated. -/
def Signed.normalize (signed : Signed) : Signed :=
  if signed.signature.s.isHigh then
    ⟨signed.signature.negateS, ⟨!signed.id.yOdd, signed.id.xReduced⟩⟩
  else signed

/-- Signs the message number `z` with the secret `d` and the nonce `k`.  An x-coordinate of `k · G` that
is not below the order is reduced, and the id says so. -/
def signWithNonce (d : Scalar) (z : Word256) (k : Scalar) : Except Rejection Signed :=
  if k.isZero then .error .zeroNonce
  else
    let point := (JacobianPoint.multiplyBase k).toAffine
    let (r, reduced) := Scalar.ofCoordinate point.x
    if r.isZero then .error (.fault .unusableNonce)
    else
      match k.invert? with
      | none => .error .noInverse
      | some kInverse =>
        let s := kInverse * (r * d + Residue.reduce z)
        if s.isZero then .error .zeroS
        else .ok (Signed.normalize ⟨⟨r, s⟩, ⟨point.y.isOdd, reduced⟩⟩)

/-- The x-coordinate of a point is `r` or `r + n`. -/
def checkX (point : JacobianPoint) (r : Scalar) : Except Rejection Unit :=
  if point.isIdentity then .error .identityCombination
  else
    match r.toCoordinate? with
    | none => .error .notCoordinate
    | some x =>
      if point.hasX x then .ok ()
      else if x.compare FieldElement.primeLessOrder ≠ .lt then .error .xMismatch
      else if point.hasX (x + FieldElement.order) then .ok ()
      else .error .xMismatchBoth

/-- Checks a signature of the message number `z` under the public key `q`. -/
def checkEquation (q : AffinePoint) (z : Word256) (sig : Signature) : Except Rejection Unit :=
  if sig.r.isZero || sig.s.isZero then .error .zeroComponent
  else
    match sig.s.invertByEuclid? with
    | none => .error .noInverse
    | some sInverse =>
      checkX (JacobianPoint.combine (Residue.reduce z * sInverse) (sig.r * sInverse)
        (JacobianPoint.ofAffine q)) sig.r

end CurveSign
