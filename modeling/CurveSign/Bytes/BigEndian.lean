import CurveSign.Word256.Lemmas

namespace CurveSign

/-!
# Big-endian byte strings

Numbers as byte strings with the most significant byte first.  `BigEndian.encode width n` is the
string of `width` bytes for `n`, and `BigEndian.decode` reads a string of any length; the 32-byte
form of a `Word256` is built on them.
-/

namespace BigEndian

/-- The number that a byte string stands for. -/
def decode (bytes : List UInt8) : Nat :=
  bytes.foldl (fun n b => 256 * n + b.toNat) 0

/-- The last `width` bytes of `n`. -/
def encode : Nat → Nat → List UInt8
  | 0, _ => []
  | width + 1, n => encode width (n / 256) ++ [UInt8.ofNat n]

/-- The width is the number of bytes, also where the number does not fit. -/
theorem length_encode (width n : Nat) : (encode width n).length = width := by
  induction width generalizing n with
  | zero => rfl
  | succ width ih => rw [encode, List.length_append, ih, List.length_singleton]

/-- A byte behind counts once, and shifts those in front. -/
theorem decode_append_singleton (bytes : List UInt8) (b : UInt8) :
    decode (bytes ++ [b]) = 256 * decode bytes + b.toNat := by
  simp [decode]

/-- A byte string with zeros in front up to `width` bytes; a longer one does not fit. -/
def padLeft? (width : Nat) (bytes : List UInt8) : Option (List UInt8) :=
  if bytes.length ≤ width then some (List.replicate (width - bytes.length) 0 ++ bytes) else none

end BigEndian

namespace Word256

/-- The 32 bytes of a number, most significant first. -/
def toBytes (a : Word256) : List UInt8 := BigEndian.encode 32 a.toNat

/-- The number that 32 bytes stand for; no other length is read. -/
def ofBytes? (bytes : List UInt8) : Option Word256 :=
  if bytes.length = 32 then some (ofNat (BigEndian.decode bytes)) else none

theorem length_toBytes (a : Word256) : a.toBytes.length = 32 := BigEndian.length_encode _ _

end Word256

end CurveSign
