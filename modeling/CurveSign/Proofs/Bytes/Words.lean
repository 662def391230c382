import CurveSign.Proofs.Bytes.RoundTrip
import CurveSign.Proofs.Bytes.Shortest
import Mathlib.Data.Nat.Bitwise

namespace CurveSign

/-!
# Words and their bytes

The 32 bytes of a number are those of its four words, the most significant word first and in each word
the most significant byte.  Reading shifts the bytes of a word in one after the other, and writing takes
each byte out by a shift; word by word they read and write the number that the 32 bytes spell
(`Word256.ofWordBytes_eq`, `Word256.toWordBytes_eq`).
-/

/-- The bytes of a number are its quotients by the powers of 256, the highest first. -/
theorem BigEndian.encode_eq_map (width n : ℕ) :
    encode width n = (List.range width).map fun i => UInt8.ofNat (n / 256 ^ (width - 1 - i)) := by
  induction width generalizing n with
  | zero => rfl
  | succ width ih =>
    rw [encode, ih, List.range_succ, List.map_append]
    -- The bytes in front are those of the quotient, one place further down.
    congr 1
    · refine List.map_congr_left fun i hi => ?_
      have hplace : width + 1 - 1 - i = (width - 1 - i) + 1 := by
        have hlt := List.mem_range.1 hi
        omega
      rw [hplace, pow_succ', Nat.div_div_eq_div_mul]
    · rw [List.map_singleton, Nat.add_sub_cancel, Nat.sub_self, pow_zero, Nat.div_one]

namespace Word

/-- The word of eight bytes: each byte goes in behind those before it. -/
def ofBytes (bytes : List UInt8) : UInt64 :=
  bytes.foldl (fun w b => (w <<< 8) ||| b.toUInt64) 0

/-- The eight bytes of a word, the most significant first. -/
def toBytes (w : UInt64) : List UInt8 :=
  (List.range 8).map fun i => (w >>> UInt64.ofNat (8 * (7 - i))).toUInt8

/-- One more byte shifts the word and goes into its lowest bits. -/
theorem ofBytes_append_singleton (front : List UInt8) (b : UInt8) :
    ofBytes (front ++ [b]) = (ofBytes front <<< 8) ||| b.toUInt64 := by
  simp [ofBytes]

/-- A byte goes in behind a value that leaves room for it. -/
theorem toNat_shiftLeft_or {w : UInt64} (h : w.toNat < 2 ^ 56) (b : UInt8) :
    ((w <<< 8) ||| b.toUInt64).toNat = 256 * w.toNat + b.toNat := by
  have hb := b.toNat_lt
  have hshift : (w <<< 8).toNat = w.toNat <<< 8 := by
    rw [UInt64.toNat_shiftLeft]
    refine Nat.mod_eq_of_lt ?_
    show w.toNat <<< 8 < _
    rw [Nat.shiftLeft_eq]
    omega
  -- The shift leaves eight zeros, which the byte fills.
  rw [UInt64.toNat_or, hshift, UInt8.toNat_toUInt64, ← Nat.shiftLeft_add_eq_or_of_lt hb,
    Nat.shiftLeft_eq]
  omega

/-- Up to eight bytes are read as the number that they spell. -/
theorem toNat_ofBytes {bytes : List UInt8} (h : bytes.length ≤ 8) :
    (ofBytes bytes).toNat = BigEndian.decode bytes := by
  -- The last byte goes in last, so the induction takes it off.
  induction bytes using List.reverseRecOn with
  | nil => rfl
  | append_singleton front b ih =>
    rw [List.length_append, List.length_singleton] at h
    have hfront := ih (Nat.le_of_succ_le h)
    have hlt : BigEndian.decode front < 2 ^ 56 := by
      calc BigEndian.decode front
          < 256 ^ front.length := BigEndian.decode_lt front
        _ ≤ 256 ^ 7 := Nat.pow_le_pow_right (by decide) (Nat.le_of_succ_le_succ h)
        _ = 2 ^ 56 := by norm_num
    rw [ofBytes_append_singleton, toNat_shiftLeft_or (hfront ▸ hlt), hfront,
      BigEndian.decode_append_singleton]

/-- A byte of a word is its quotient by the places below. -/
theorem toUInt8_shiftRight (w : UInt64) (place : ℕ) (h : place < 8) :
    (w >>> UInt64.ofNat (8 * place)).toUInt8 = UInt8.ofNat (w.toNat / 256 ^ place) := by
  have hplace : (UInt64.ofNat (8 * place)).toNat % 64 = 8 * place := by
    rw [UInt64.toNat_ofNat']
    omega
  rw [← UInt8.toNat_inj, UInt64.toNat_toUInt8, UInt64.toNat_shiftRight, hplace, UInt8.toNat_ofNat',
    Nat.shiftRight_eq_div_pow, pow_mul]
  rfl

/-- A word is written as the eight bytes of its number. -/
theorem toBytes_eq (w : UInt64) : toBytes w = BigEndian.encode 8 w.toNat := by
  rw [toBytes, BigEndian.encode_eq_map]
  exact List.map_congr_left fun i _ => toUInt8_shiftRight w (7 - i) (by omega)

end Word

namespace Word256

/-- The number of 32 bytes, read word by word. -/
def ofWordBytes (bytes : List UInt8) : Word256 where
  l0 := Word.ofBytes ((bytes.drop 24).take 8)
  l1 := Word.ofBytes ((bytes.drop 16).take 8)
  l2 := Word.ofBytes ((bytes.drop 8).take 8)
  l3 := Word.ofBytes (bytes.take 8)

/-- The 32 bytes of a number, written word by word. -/
def toWordBytes (a : Word256) : List UInt8 :=
  Word.toBytes a.l3 ++ Word.toBytes a.l2 ++ Word.toBytes a.l1 ++ Word.toBytes a.l0

/-- **The 32 bytes of a number** are those of its words, the most significant word first. -/
theorem toWordBytes_eq (a : Word256) : a.toWordBytes = a.toBytes := by
  have hword (w : UInt64) : (BigEndian.encode 8 w.toNat).length = 8 := BigEndian.length_encode _ _
  have hdecode (w : UInt64) : BigEndian.decode (BigEndian.encode 8 w.toNat) = w.toNat :=
    BigEndian.decode_encode w.toNat_lt
  have hlength : a.toWordBytes.length = 32 := by
    simp only [toWordBytes, Word.toBytes_eq, List.length_append, hword]
  have hvalue : BigEndian.decode a.toWordBytes = a.toNat := by
    simp only [toWordBytes, Word.toBytes_eq, BigEndian.decode_append, hdecode, hword]
    simp only [toNat, Word.base]
    ring
  rw [toBytes, ← hvalue, ← hlength, BigEndian.encode_decode]

/-- **Reading word by word** reads the number that the 32 bytes spell. -/
theorem ofWordBytes_eq {bytes : List UInt8} (h : bytes.length = 32) :
    ofBytes? bytes = some (ofWordBytes bytes) := by
  have hlt := BigEndian.decode_lt bytes
  rw [h] at hlt
  have hread (rest : List UInt8) :
      (Word.ofBytes (rest.take 8)).toNat = BigEndian.decode (rest.take 8) :=
    Word.toNat_ofBytes (List.length_take_le 8 rest)
  -- The first eight bytes are the highest word of what is left to read.
  have hstep (rest : List UInt8) : BigEndian.decode rest
      = (Word.ofBytes (rest.take 8)).toNat * 256 ^ (rest.length - 8)
        + BigEndian.decode (rest.drop 8) := by
    rw [hread, ← List.length_drop, ← BigEndian.decode_append, List.take_append_drop]
  have hvalue : BigEndian.decode bytes = (ofWordBytes bytes).toNat := by
    have hnone : bytes.drop 32 = [] := List.drop_of_length_le h.le
    rw [hstep bytes, hstep (bytes.drop 8), hstep ((bytes.drop 8).drop 8),
      hstep (((bytes.drop 8).drop 8).drop 8)]
    simp only [List.drop_drop, List.length_drop, h, hnone, Nat.reduceAdd, Nat.reduceSub, ofWordBytes,
      toNat, Word.base, BigEndian.decode_nil]
    ring
  rw [ofBytes?, if_pos h, hvalue, ofNat_toNat]

end Word256

end CurveSign
