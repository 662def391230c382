import CurveSign.Bytes.Hex
import CurveSign.Der.Writer

namespace CurveSign

/-!
# Signatures

A signature is any pair of scalars `(r, s)`, zeros included; whether it signs anything is decided
by verification.  It has a form of 64 bytes and a DER form, and a normal form whose `s` is low.
-/

/-- A pair of scalars. -/
structure Signature where
  r : Scalar
  s : Scalar
deriving DecidableEq

namespace Signature

instance : Inhabited Signature := ⟨⟨0, 0⟩⟩

/-- The 64 bytes of `r` and `s`. -/
def toBytes (sig : Signature) : List UInt8 := sig.r.toBytes ++ sig.s.toBytes

/-- The signature of 64 bytes; either component must be below the order. -/
def ofBytes (bytes : List UInt8) : Except Rejection Signature :=
  if bytes.length = 64 then
    match (Residue.ofBytes? (bytes.take 32) : Option Scalar),
      (Residue.ofBytes? (bytes.drop 32) : Option Scalar) with
    | some r, some s => .ok ⟨r, s⟩
    | _, _ => .error .componentOutOfRange
  else .error .signatureLength

/-- The DER form. -/
def toDer (sig : Signature) : Der.Encoded := Der.Encoded.ofScalars sig.r sig.s

/-- The DER form as bytes of its own. -/
def toDerBytes (sig : Signature) : List UInt8 := sig.toDer.bytes

/-- The signature of a DER form. -/
def ofDer (bytes : List UInt8) : Except Rejection Signature :=
  match Der.decode bytes with
  | .ok (r, s) => .ok ⟨r, s⟩
  | .error e => .error e

/-- The size of the DER form. -/
def derLength (sig : Signature) : Nat := Der.encodedLength sig.r sig.s

/-- Writes the DER form at the front of a buffer. -/
def writeDer (sig : Signature) (buffer : List UInt8) : Der.Written :=
  Der.writeInto buffer sig.r sig.s

/-- The signature with `-s` in place of `s`. -/
def negateS (sig : Signature) : Signature := ⟨sig.r, -sig.s⟩

/-- The signature with its components exchanged. -/
def swap (sig : Signature) : Signature := ⟨sig.s, sig.r⟩

/-- The low form of a signature whose `s` is high. -/
def normalize? (sig : Signature) : Option Signature :=
  if sig.s.isHigh then some sig.negateS else none

/-- The low form of the signature. -/
def normalize (sig : Signature) : Signature := sig.normalize?.getD sig

/-- The text `ecdsa::Signature<secp256k1>(…)` with the 64 bytes in upper case. -/
def describe (sig : Signature) : String :=
  "ecdsa::Signature<secp256k1>(" ++ Hex.upper sig.toBytes ++ ")"

end Signature

/-- The text `der::Signature(…)` with the bytes in lower case. -/
def Der.Encoded.describe (e : Der.Encoded) : String :=
  "der::Signature(" ++ Hex.lower e.bytes ++ ")"

end CurveSign
