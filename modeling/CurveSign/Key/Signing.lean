import CurveSign.Key.Verifying
import CurveSign.Nonce

namespace CurveSign

/-!
# Signing keys

A signing key is a secret scalar other than zero together with its verifying key.  It signs with
the nonce that a rule gives for the secret and the message, so the same message always has the same
signature.
-/

/-- The verifying key of a secret scalar. -/
def publicKey (secret : Scalar) : Except Rejection VerifyingKey :=
  VerifyingKey.ofAffine (JacobianPoint.multiplyBase secret).toAffine

/-- A secret scalar other than zero, and its verifying key. -/
structure SigningKey where
  secret : Scalar
  verifyingKey : VerifyingKey
  secret_ne_zero : secret.isZero = false
  publicKey_eq : publicKey secret = .ok verifyingKey
deriving DecidableEq

namespace SigningKey

/-- The key of a secret scalar. -/
def ofScalar (secret : Scalar) : Except Rejection SigningKey :=
  if hzero : secret.isZero = false then
    match hkey : publicKey secret with
    | .ok key => .ok ⟨secret, key, hzero, hkey⟩
    | .error e => .error e
  else .error .secretOutOfRange

/-- The key of a number in `[1, n)`. -/
def ofWord256 (secret : Word256) : Except Rejection SigningKey :=
  match (Residue.ofWord256? secret : Option Scalar) with
  | some secret => ofScalar secret
  | none => .error .secretOutOfRange

/-- The key of 32 bytes. -/
def ofBytes (bytes : List UInt8) : Except Rejection SigningKey :=
  match Word256.ofBytes? bytes with
  | some secret => ofWord256 secret
  | none => .error .secretLength

/-- The 32 bytes of the secret. -/
def toBytes (key : SigningKey) : List UInt8 := key.secret.toBytes

/-- The first key among random draws, and the draws left after it. -/
def random? : List Word256 → Option (SigningKey × List Word256)
  | [] => none
  | draw :: draws =>
    match ofWord256 draw with
    | .ok key => some (key, draws)
    | .error _ => random? draws

/-- The nonce for a message number. -/
def nonce (rule : NonceRule) (key : SigningKey) (z : Word256) : Except Rejection Scalar :=
  match Residue.ofWord256? (rule key.secret (Residue.reduce z)) with
  | some k => .ok k
  | none => .error .nonceOutOfRange

/-- Signs a hash, with the nonce of a rule. -/
def signPrehashWith (rule : NonceRule) (key : SigningKey) (prehash : List UInt8) :
    Except Rejection Signed := do
  let z ← messageNumber prehash
  let k ← key.nonce rule z
  signWithNonce key.secret z k

/-- Signs a hash, with the deterministic nonce. -/
def signPrehash (key : SigningKey) (prehash : List UInt8) : Except Rejection Signed :=
  key.signPrehashWith Nonce.deterministic prehash

/-- Signs a message. -/
def sign (key : SigningKey) (message : List UInt8) : Except Rejection Signed :=
  key.signPrehash (Sha256.digest message)

/-- The text `SigningKey { verifying_key: …, .. }`, which does not show the secret. -/
def describe (key : SigningKey) : String :=
  "SigningKey \x7b verifying_key: " ++ key.verifyingKey.describe ++ ", .. \x7d"

end SigningKey

end CurveSign
