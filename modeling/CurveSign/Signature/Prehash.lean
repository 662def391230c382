import CurveSign.Bytes.BigEndian
import CurveSign.Rejection

namespace CurveSign

/-!
# Message representatives

A signature is made on the hash of a message, of which 32 bytes are used: a longer hash is cut
after its first 32 bytes, a shorter one is a smaller number, and one below 16 bytes is refused.
-/

/-- The number that stands for a hash. -/
def messageNumber (prehash : List UInt8) : Except Rejection Word256 :=
  if prehash.length < 16 then .error (.prehashTooShort prehash.length)
  else .ok (Word256.ofNat (BigEndian.decode (prehash.take 32)))

end CurveSign
