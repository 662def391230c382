import CurveSign.Key.Signing

namespace CurveSign

/-!
# Sources of points, signatures and messages

The several forms in which a point, a signature or a message may be given.
-/

/-- A point by name or by its encoding. -/
inductive PointSource
  | identity
  | generator
  | sec1 (bytes : List UInt8)

namespace PointSource

/-- The point. -/
def toAffine : PointSource → Except Rejection AffinePoint
  | identity => .ok .identity
  | generator => .ok .generator
  | sec1 bytes => AffinePoint.ofSec1 bytes

/-- The verifying key of the point. -/
def toKey : PointSource → Except Rejection VerifyingKey
  | identity => VerifyingKey.ofAffine .identity
  | generator => VerifyingKey.ofAffine .generator
  | sec1 bytes => VerifyingKey.ofSec1 bytes

end PointSource

/-- A signature in its form of 64 bytes, in DER, or by its components modulo the order. -/
inductive SignatureSource
  | fixed (bytes : List UInt8)
  | der (bytes : List UInt8)
  | components (r s : Word256)

/-- The signature. -/
def SignatureSource.read : SignatureSource → Except Rejection Signature
  | fixed bytes => Signature.ofBytes bytes
  | der bytes => Signature.ofDer bytes
  | components r s => .ok ⟨Residue.reduce r, Residue.reduce s⟩

/-- A message, or the hash of one. -/
inductive MessageSource
  | message (bytes : List UInt8)
  | prehash (bytes : List UInt8)

namespace MessageSource

/-- Signs the message. -/
def sign (key : SigningKey) : MessageSource → Except Rejection Signed
  | message bytes => key.sign bytes
  | prehash bytes => key.signPrehash bytes

/-- Verifies a signature of the message. -/
def verify (key : VerifyingKey) (sig : Signature) : MessageSource → Except Rejection Unit
  | message bytes => key.verify bytes sig
  | prehash bytes => key.verifyPrehash bytes sig

/-- Recovers the key of a signature of the message. -/
def recover (sig : Signature) (id : RecoveryId) : MessageSource → Except Rejection VerifyingKey
  | message bytes => VerifyingKey.recover bytes sig id
  | prehash bytes => VerifyingKey.recoverPrehash bytes sig id

end MessageSource

end CurveSign
