import CurveSign.Residue.Lemmas
import CurveSign.Signature.Basic
import CurveSign.Signature.Prehash
import Mathlib.Algebra.Group.Nat.Defs
import Mathlib.Data.List.Induction

namespace CurveSign

/-!
# Byte strings read back

The bytes of a number spell it (`BigEndian.decode_encode`), so words, residues and signatures are
read back from the bytes that they are written as; and a byte string is written again for the number
that it spells, at its own width (`BigEndian.encode_decode`).  Zeros in front of a byte string change
nothing, neither when they are put there nor when they are dropped.
-/

namespace BigEndian

/-- The last `width` bytes of a number of at most `width` bytes spell it. -/
theorem decode_encode {width n : Nat} (h : n < 256 ^ width) : decode (encode width n) = n := by
  induction width generalizing n with
  | zero =>
    rw [Nat.pow_zero, Nat.lt_one_iff] at h
    rw [h]
    rfl
  | succ width ih =>
    -- The last byte is written last, so the bytes in front are those of `n / 256`.
    have hhigh : n / 256 < 256 ^ width := by
      rw [Nat.pow_succ, Nat.mul_comm] at h
      exact Nat.div_lt_of_lt_mul h
    rw [encode, decode_append_singleton, ih hhigh, UInt8.toNat_ofNat']
    omega

/-! ### The last byte -/

/-- Dividing by 256 drops the last byte. -/
theorem decode_append_singleton_div (front : List UInt8) (b : UInt8) :
    decode (front ++ [b]) / 256 = decode front := by
  have hb := b.toNat_lt
  rw [decode_append_singleton]
  omega

/-- The remainder by 256 is the last byte. -/
theorem ofNat_decode_append_singleton (front : List UInt8) (b : UInt8) :
    UInt8.ofNat (decode (front ++ [b])) = b := by
  apply UInt8.toNat_inj.1
  have hb := b.toNat_lt
  rw [decode_append_singleton, UInt8.toNat_ofNat']
  omega

/-- A byte string is that of its number, at its own width. -/
theorem encode_decode (bytes : List UInt8) : encode bytes.length (decode bytes) = bytes := by
  -- The last byte is written last, so the induction takes it off.
  induction bytes using List.reverseRecOn with
  | nil => rfl
  | append_singleton front b ih =>
    rw [List.length_append, List.length_singleton, encode, decode_append_singleton_div,
      ofNat_decode_append_singleton, ih]

/-! ### Zeros in front -/

theorem decode_zero_cons (bytes : List UInt8) : decode (0 :: bytes) = decode bytes := rfl

/-- Zeros in front change no number. -/
theorem decode_replicate_append (count : Nat) (bytes : List UInt8) :
    decode (List.replicate count 0 ++ bytes) = decode bytes := by
  induction count with
  | zero => rfl
  | succ count ih => rw [List.replicate_succ, List.cons_append, decode_zero_cons, ih]

/-- Nor does it change to take the zeros in front away. -/
theorem decode_dropWhile (bytes : List UInt8) :
    decode (bytes.dropWhile (· == 0)) = decode bytes := by
  induction bytes with
  | nil => rfl
  | cons b bytes ih =>
    by_cases hb : b = 0
    · rw [List.dropWhile_cons_of_pos (by simpa using hb), ih, hb, decode_zero_cons]
    · rw [List.dropWhile_cons_of_neg (by simpa using hb)]

/-- A short byte string is padded to the full width, and spells the same number. -/
theorem padLeft?_eq_some {width : Nat} {bytes : List UInt8} (h : bytes.length ≤ width) :
    ∃ padded, padLeft? width bytes = some padded ∧ padded.length = width ∧
      decode padded = decode bytes := by
  refine ⟨_, if_pos h, ?_, decode_replicate_append _ _⟩
  rw [List.length_append, List.length_replicate]
  omega

end BigEndian

/-! ### Words, residues and signatures -/

theorem Word256.decode_toBytes (a : Word256) : BigEndian.decode a.toBytes = a.toNat :=
  BigEndian.decode_encode a.toNat_lt

theorem Word256.ofBytes?_toBytes (a : Word256) : ofBytes? a.toBytes = some a := by
  rw [ofBytes?, if_pos a.length_toBytes, a.decode_toBytes, ofNat_toNat]

/-- A residue is read back from its bytes. -/
theorem Residue.ofBytes?_toBytes {m : Modulus} (a : Residue m) :
    (ofBytes? a.toBytes : Option (Residue m)) = some a := by
  rw [ofBytes?, toBytes, Word256.ofBytes?_toBytes, Option.bind_some, ofWord256?_eq_some_iff]

theorem Residue.decode_toBytes {m : Modulus} (a : Residue m) :
    BigEndian.decode a.toBytes = a.toNat :=
  a.word.decode_toBytes

theorem Residue.length_toBytes {m : Modulus} (a : Residue m) : a.toBytes.length = 32 :=
  a.word.length_toBytes

/-- The 64 bytes of a signature are read back as the signature. -/
theorem Signature.ofBytes_toBytes (sig : Signature) : ofBytes sig.toBytes = .ok sig := by
  have hr : sig.toBytes.take 32 = sig.r.toBytes := by
    rw [toBytes, List.take_left' sig.r.length_toBytes]
  have hs : sig.toBytes.drop 32 = sig.s.toBytes := by
    rw [toBytes, List.drop_left' sig.r.length_toBytes]
  have hlength : sig.toBytes.length = 64 := by
    rw [toBytes, List.length_append, sig.r.length_toBytes, sig.s.length_toBytes]
  rw [ofBytes, if_pos hlength, hr, hs, Residue.ofBytes?_toBytes, Residue.ofBytes?_toBytes]

/-- The bytes of a number are the hash that it stands for. -/
theorem messageNumber_toBytes (z : Word256) : messageNumber z.toBytes = .ok z := by
  have hlength := z.length_toBytes
  rw [messageNumber, if_neg (by omega), List.take_of_length_le (Nat.le_of_eq hlength), z.decode_toBytes,
    Word256.ofNat_toNat]

/-- Every hash of at least 16 bytes stands for a number. -/
theorem messageNumber_eq_ok {prehash : List UInt8} (h : 16 ≤ prehash.length) :
    messageNumber prehash = .ok (Word256.ofNat (BigEndian.decode (prehash.take 32))) :=
  if_neg (by omega)

end CurveSign
