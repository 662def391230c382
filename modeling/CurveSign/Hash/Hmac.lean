import CurveSign.Hash.Sha256

namespace CurveSign

/-!
# HMAC with SHA-256

The keyed hash of a byte string: the key, brought to one block of 64 bytes, enters an inner and an
outer hash.
-/

namespace Hmac

/-- A key as one block: a longer key is hashed first, a shorter one ends in zeros. -/
def blockOfKey (key : List UInt8) : List UInt8 :=
  let short := if key.length ≤ 64 then key else Sha256.digest key
  short ++ List.replicate (64 - short.length) 0

/-- The keyed hash of a message. -/
def digest (key message : List UInt8) : List UInt8 :=
  let block := blockOfKey key
  Sha256.digest (block.map (· ^^^ 0x5c) ++ Sha256.digest (block.map (· ^^^ 0x36) ++ message))

end Hmac

end CurveSign
