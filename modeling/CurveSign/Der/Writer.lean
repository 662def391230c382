import CurveSign.Der.Reader

namespace CurveSign

/-!
# Writing DER

The encoding of two scalars as a sequence of two integers, each with as few bytes as its sign
allows.  It has at most 72 bytes, so every length in it is a single byte.
-/

namespace Der

/-- The largest size of an encoding: two integers of 33 bytes and three headers. -/
def maxLength : Nat := 72

/-- Drops zeros in front while the byte after them keeps the number from turning negative. -/
def stripZeros : List UInt8 → List UInt8
  | a :: b :: rest => if a = 0 ∧ b < 0x80 then stripZeros (b :: rest) else a :: b :: rest
  | bytes => bytes

/-- The shortest content of an integer with the scalar's value. -/
def integerContent (s : Scalar) : List UInt8 := stripZeros (0 :: s.toBytes)

/-- The size of the encoding of two scalars. -/
def encodedLength (r s : Scalar) : Nat :=
  6 + (integerContent r).length + (integerContent s).length

/-- A tag, the length of the content in one byte, and the content. -/
def tagged (tag : UInt8) (content : List UInt8) : List UInt8 :=
  tag :: UInt8.ofNat content.length :: content

/-- The encoding of two scalars. -/
def encode (r s : Scalar) : List UInt8 :=
  tagged sequenceTag (tagged integerTag (integerContent r) ++ tagged integerTag (integerContent s))

/-- A buffer cannot hold an encoding, which needs `required` bytes. -/
structure BufferTooSmall where
  required : Nat
deriving DecidableEq, Repr

namespace BufferTooSmall

/-- What is said about the buffer. -/
def message (e : BufferTooSmall) : String :=
  "buffer too small: " ++ toString e.required ++ " bytes required"

/-- The text `BufferTooSmall { required: … }`. -/
def describe (e : BufferTooSmall) : String :=
  "BufferTooSmall \x7b required: " ++ toString e.required ++ " \x7d"

end BufferTooSmall

/-- The size of what was written, and the buffer afterwards. -/
structure Written where
  outcome : Except BufferTooSmall Nat
  buffer : List UInt8

/-- Writes the encoding at the front of a buffer, or nothing into a buffer that is too small. -/
def writeInto (buffer : List UInt8) (r s : Scalar) : Written :=
  let required := encodedLength r s
  if buffer.length < required then
    { outcome := .error { required := required }, buffer := buffer }
  else { outcome := .ok required, buffer := encode r s ++ buffer.drop required }

/-! ### Sizes -/

/-- Stripping only takes bytes away. -/
theorem length_stripZeros_le (bytes : List UInt8) : (stripZeros bytes).length ≤ bytes.length := by
  fun_induction stripZeros bytes with
  | case1 a b rest _ ih => exact Nat.le_succ_of_le ih
  | case2 => exact Nat.le_refl _
  | case3 => exact Nat.le_refl _

/-- A scalar has 32 bytes, and at most one zero is kept in front of them. -/
theorem length_integerContent_le (s : Scalar) : (integerContent s).length ≤ 33 := by
  have h := length_stripZeros_le (0 :: s.toBytes)
  rwa [List.length_cons, Residue.toBytes, Word256.length_toBytes] at h

/-- The size that is counted is the size of the encoding. -/
theorem length_encode (r s : Scalar) : (encode r s).length = encodedLength r s := by
  simp only [encode, tagged, encodedLength, List.length_cons, List.length_append]
  omega

/-- The largest size has room for every encoding. -/
theorem length_encode_le (r s : Scalar) : (encode r s).length ≤ maxLength := by
  have hr := length_integerContent_le r
  have hs := length_integerContent_le s
  rw [length_encode, encodedLength, maxLength]
  omega

theorem encodedLength_le (r s : Scalar) : encodedLength r s ≤ maxLength :=
  Nat.le_trans (Nat.le_of_eq (length_encode r s).symm) (length_encode_le r s)

/-- What is written into a buffer that can hold it stands at its front. -/
theorem take_writeInto {buffer : List UInt8} {r s : Scalar} (h : encodedLength r s ≤ buffer.length) :
    (writeInto buffer r s).outcome = .ok (encodedLength r s)
      ∧ (writeInto buffer r s).buffer.take (encodedLength r s) = encode r s := by
  rw [writeInto, if_neg (Nat.not_lt.2 h)]
  exact ⟨rfl, List.take_left' (length_encode r s)⟩

/-- Writing changes no buffer's length. -/
theorem length_writeInto (buffer : List UInt8) (r s : Scalar) :
    (writeInto buffer r s).buffer.length = buffer.length := by
  unfold writeInto
  dsimp only
  split
  · rfl
  · rw [List.length_append, List.length_drop, length_encode]
    omega

/-! ### Stored encodings -/

/-- An encoded signature, at the front of a buffer of 72 bytes. -/
structure Encoded where
  buffer : List UInt8
  length : Nat
  length_buffer : buffer.length = maxLength
  length_le : length ≤ maxLength
deriving DecidableEq

namespace Encoded

/-- The bytes of the encoding. -/
def bytes (e : Encoded) : List UInt8 := e.buffer.take e.length

/-- The encoding of two scalars, written into 72 zeros. -/
def ofScalars (r s : Scalar) : Encoded where
  buffer := (writeInto (List.replicate maxLength 0) r s).buffer
  length := encodedLength r s
  length_buffer := (length_writeInto _ r s).trans List.length_replicate
  length_le := encodedLength_le r s

/-- 72 bytes have room for every encoding. -/
theorem bytes_ofScalars (r s : Scalar) : (ofScalars r s).bytes = encode r s := by
  have hroom : encodedLength r s ≤ (List.replicate maxLength (0 : UInt8)).length := by
    rw [List.length_replicate]
    exact encodedLength_le r s
  have h := (take_writeInto hroom).2
  simp only [bytes, ofScalars]
  exact h

/-- Any encoding that can be read, stored in its shortest form. -/
def ofBytes (bytes : List UInt8) : Except Rejection Encoded :=
  match decode bytes with
  | .ok (r, s) => .ok (ofScalars r s)
  | .error e => .error e

/-- The scalars read back. -/
def toScalars (e : Encoded) : Except Rejection (Scalar × Scalar) := decode e.bytes

end Encoded

end Der

end CurveSign
