import CurveSign.Proofs.Bytes.Shortest
import CurveSign.Proofs.Residue.Ring
import CurveSign.Session
import Mathlib.Data.Nat.Bitwise

namespace CurveSign

/-!
# Byte strings of fixed width

Residues and signatures are read exactly from 32 and from 64 bytes that spell them
(`Residue.ofBytes?_eq_some_iff`, `Signature.ofBytes_eq_ok_iff`).  Turning a bit of a byte string over
turns the same place of its number over (`BigEndian.decode_flipBit`), and so adds or takes away the
value of the place (`xor_two_pow_eq`).  The last 256 of the 512 bits of a signature belong to `s`, so
turning one of them over and reading again changes `s` in that place, if the number is still a scalar,
and nothing else (`Signature.ofBytes_flipBit_eq_ok_iff`).
-/

/-! ### Reading -/

/-- A residue is read exactly from 32 bytes that spell its number. -/
theorem Residue.ofBytes?_eq_some_iff {m : Modulus} {bytes : List UInt8} {a : Residue m} :
    ofBytes? bytes = some a ↔ bytes.length = 32 ∧ a.toNat = BigEndian.decode bytes := by
  rw [ofBytes?, Option.bind_eq_some_iff]
  constructor
  · rintro ⟨w, hw, ha⟩
    rw [ofWord256?_eq_some_iff] at ha
    rw [Word256.ofBytes?] at hw
    split_ifs at hw with hlength
    -- The 32 bytes fit a word, so reading them loses nothing.
    have hlt := BigEndian.decode_lt bytes
    rw [hlength] at hlt
    obtain rfl := Option.some.inj hw
    refine ⟨hlength, ?_⟩
    rw [toNat, ha, Word256.toNat_ofNat]
    exact Nat.mod_eq_of_lt hlt
  · rintro ⟨hlength, ha⟩
    refine ⟨a.word, ?_, ofWord256?_eq_some_iff.2 rfl⟩
    rw [Word256.ofBytes?, if_pos hlength, ← ha]
    exact congrArg some a.word.ofNat_toNat

/-- A residue is read from its own bytes and from no others. -/
theorem Residue.ofBytes?_eq_some_iff_toBytes {m : Modulus} {bytes : List UInt8} {a : Residue m} :
    ofBytes? bytes = some a ↔ bytes = a.toBytes := by
  constructor
  · intro h
    obtain ⟨hlength, ha⟩ := ofBytes?_eq_some_iff.1 h
    show bytes = BigEndian.encode 32 a.toNat
    rw [ha, ← hlength, BigEndian.encode_decode]
  · intro h
    rw [h, ofBytes?_toBytes]

/-- Every 32 bytes that spell a number below the modulus are those of a residue. -/
theorem Residue.exists_toBytes_eq {m : Modulus} {bytes : List UInt8} (hlength : bytes.length = 32)
    (hlt : BigEndian.decode bytes < m.toNat) :
    ∃ a : Residue m, a.toBytes = bytes ∧ a.toNat = BigEndian.decode bytes := by
  obtain ⟨a, ha⟩ := exists_toZMod_eq (BigEndian.decode bytes : ZMod m.toNat)
  have hvalue : a.toNat = BigEndian.decode bytes := by
    rw [← val_toZMod, ha, ZMod.val_natCast_of_lt hlt]
  exact ⟨a, (ofBytes?_eq_some_iff_toBytes.1 (ofBytes?_eq_some_iff.2 ⟨hlength, hvalue⟩)).symm, hvalue⟩

namespace Signature

/-- A signature is read exactly from 64 bytes whose halves spell its components. -/
theorem ofBytes_eq_ok_iff {bytes : List UInt8} {sig : Signature} :
    ofBytes bytes = .ok sig ↔ bytes.length = 64
      ∧ sig.r.toNat = BigEndian.decode (bytes.take 32)
      ∧ sig.s.toNat = BigEndian.decode (bytes.drop 32) := by
  obtain ⟨r, s⟩ := sig
  unfold ofBytes
  by_cases hlength : bytes.length = 64
  · have hfront : (bytes.take 32).length = 32 := by rw [List.length_take, hlength]; rfl
    have hback : (bytes.drop 32).length = 32 := by rw [List.length_drop, hlength]
    have hr : Residue.ofBytes? (bytes.take 32) = some r
        ↔ r.toNat = BigEndian.decode (bytes.take 32) :=
      Residue.ofBytes?_eq_some_iff.trans (and_iff_right hfront)
    have hs : Residue.ofBytes? (bytes.drop 32) = some s
        ↔ s.toNat = BigEndian.decode (bytes.drop 32) :=
      Residue.ofBytes?_eq_some_iff.trans (and_iff_right hback)
    -- Both halves are read before either is looked at; a refusal does not say which one failed.
    rw [if_pos hlength, and_iff_right hlength, ← hr, ← hs]
    cases (Residue.ofBytes? (bytes.take 32) : Option Scalar) <;>
      cases (Residue.ofBytes? (bytes.drop 32) : Option Scalar) <;>
        simp
  · rw [if_neg hlength]
    exact ⟨nofun, fun h => absurd h.1 hlength⟩

end Signature

/-! ### Places of a number -/

/-- High and low places are turned over apart. -/
theorem two_pow_mul_add_xor {width a b c d : ℕ} (hc : c < 2 ^ width) (hd : d < 2 ^ width) :
    (2 ^ width * a + c) ^^^ (2 ^ width * b + d) = 2 ^ width * (a ^^^ b) + (c ^^^ d) := by
  have hpos : 0 < 2 ^ width := Nat.two_pow_pos width
  have hhigh : ((2 ^ width * a + c) ^^^ (2 ^ width * b + d)) / 2 ^ width = a ^^^ b := by
    rw [Nat.xor_div_two_pow, Nat.mul_add_div hpos, Nat.mul_add_div hpos, Nat.div_eq_of_lt hc,
      Nat.div_eq_of_lt hd, Nat.add_zero, Nat.add_zero]
  have hlow : ((2 ^ width * a + c) ^^^ (2 ^ width * b + d)) % 2 ^ width = c ^^^ d := by
    rw [Nat.xor_mod_two_pow, Nat.mul_add_mod, Nat.mul_add_mod, Nat.mod_eq_of_lt hc,
      Nat.mod_eq_of_lt hd]
  rw [← hhigh, ← hlow, Nat.div_add_mod]

/-- Turning the lowest bit over adds one or takes one away. -/
theorem xor_one_eq (n : ℕ) : n ^^^ 1 = n + 1 ∨ (n ^^^ 1) + 1 = n := by
  rcases n.even_or_odd with heven | hodd
  · exact Or.inl (Nat.xor_one_of_even heven)
  · right
    rw [Nat.xor_one_of_odd hodd]
    obtain ⟨half, rfl⟩ := hodd
    rfl

/-- **One place turned over** adds its value or takes it away. -/
theorem xor_two_pow_eq (n place : ℕ) :
    n ^^^ 2 ^ place = n + 2 ^ place ∨ (n ^^^ 2 ^ place) + 2 ^ place = n := by
  -- Shifted down, the bit is the lowest one, and what is below it stays.
  have hlt := Nat.mod_lt n (Nat.two_pow_pos place)
  have hsplit := two_pow_mul_add_xor (a := n / 2 ^ place) (b := 1) hlt (Nat.two_pow_pos place)
  have hn := Nat.div_add_mod n (2 ^ place)
  rw [hn, Nat.mul_one, Nat.add_zero, Nat.xor_zero] at hsplit
  rw [hsplit]
  rcases xor_one_eq (n / 2 ^ place) with hone | hone
  · left
    rw [hone, Nat.mul_add, Nat.mul_one]
    omega
  · right
    rw [← hone, Nat.mul_add, Nat.mul_one] at hn
    omega

/-- A place turned over does not give the rest up to a number `4k + 1`, except that the lowest place
    takes the two middle numbers to each other. -/
theorem xor_two_pow_eq_sub_iff {total n place : ℕ} (htotal : total % 4 = 1) (hn : n ≤ total) :
    n ^^^ 2 ^ place = total - n
      ↔ place = 0 ∧ (n = (total - 1) / 2 ∨ n = (total + 1) / 2) := by
  constructor
  · intro h
    have hplace := xor_two_pow_eq n place
    rw [h] at hplace
    rcases place with _ | higher
    · rw [pow_zero] at hplace
      omega
    · -- A higher place has an even value, so the two numbers would have an even sum.
      rw [pow_succ] at hplace
      omega
  · rintro ⟨rfl, rfl | rfl⟩
    · rw [pow_zero, Nat.xor_one_of_even (Nat.even_iff.2 (by omega))]
      omega
    · rw [pow_zero, Nat.xor_one_of_odd (Nat.odd_iff.2 (by omega))]
      omega

/-- Turning a bit over always gives another number. -/
theorem xor_two_pow_ne (n place : ℕ) : n ^^^ 2 ^ place ≠ n := by
  have hpos := Nat.two_pow_pos place
  have hplace := xor_two_pow_eq n place
  omega

/-! ### Bits of a byte string -/

/-- A bit of the first byte is turned over by a mask. -/
theorem flipBit_cons {b : UInt8} {rest : List UInt8} {bit : ℕ} (h : bit < 8) :
    flipBit (b :: rest) bit = (b ^^^ ((0x80 : UInt8) >>> UInt8.ofNat bit)) :: rest := by
  rw [flipBit, Nat.div_eq_of_lt h, Nat.mod_eq_of_lt h, List.modify_zero_cons]

/-- Any other bit is in a later byte. -/
theorem flipBit_cons_add (b : UInt8) (rest : List UInt8) (bit : ℕ) :
    flipBit (b :: rest) (bit + 8) = b :: flipBit rest bit := by
  rw [flipBit, flipBit, Nat.add_div_right bit (by decide), Nat.add_mod_right, List.modify_succ_cons]

/-- Bits behind the front belong to the back. -/
theorem flipBit_append (front back : List UInt8) (bit : ℕ) :
    flipBit (front ++ back) (bit + 8 * front.length) = front ++ flipBit back bit := by
  induction front with
  | nil => rfl
  | cons b front ih =>
    rw [List.length_cons, Nat.mul_succ, ← Nat.add_assoc, List.cons_append, flipBit_cons_add, ih,
      List.cons_append]

theorem length_flipBit (bytes : List UInt8) (bit : ℕ) : (flipBit bytes bit).length = bytes.length :=
  List.length_modify _ _ _

theorem toNat_mask {bit : ℕ} (h : bit < 8) :
    ((0x80 : UInt8) >>> UInt8.ofNat bit).toNat = 2 ^ (7 - bit) := by
  decide +revert

namespace BigEndian

/-- The first byte counts in powers of two, where bits are looked for. -/
theorem decode_cons_two_pow (b : UInt8) (rest : List UInt8) :
    decode (b :: rest) = 2 ^ (8 * rest.length) * b.toNat + decode rest := by
  have hpow : 2 ^ (8 * rest.length) = 256 ^ rest.length := pow_mul 2 8 rest.length
  rw [decode_cons, hpow, Nat.mul_comm]

/-- The number of some bytes, in powers of two. -/
theorem decode_lt_two_pow (bytes : List UInt8) : decode bytes < 2 ^ (8 * bytes.length) := by
  rw [pow_mul]
  exact decode_lt bytes

/-- **A bit turned over** is a place of the number turned over, the last bit the lowest place. -/
theorem decode_flipBit {bytes : List UInt8} {bit : ℕ} (h : bit < 8 * bytes.length) :
    decode (flipBit bytes bit) = decode bytes ^^^ 2 ^ (8 * bytes.length - 1 - bit) := by
  induction bytes generalizing bit with
  | nil => exact absurd h (Nat.not_lt_zero bit)
  | cons b rest ih =>
    have hrest := decode_lt_two_pow rest
    rw [List.length_cons] at h ⊢
    rcases Nat.lt_or_ge bit 8 with hfirst | hlater
    · -- The place lies in the first byte, above all places of the rest.
      have hplace : 8 * (rest.length + 1) - 1 - bit = 8 * rest.length + (7 - bit) := by omega
      have hxor := two_pow_mul_add_xor (a := b.toNat) (b := 2 ^ (7 - bit)) hrest (Nat.two_pow_pos _)
      rw [Nat.add_zero, Nat.xor_zero, ← pow_add] at hxor
      rw [flipBit_cons hfirst, decode_cons_two_pow, decode_cons_two_pow, UInt8.toNat_xor,
        toNat_mask hfirst, hplace, hxor]
    · obtain ⟨later, rfl⟩ := Nat.exists_eq_add_of_le' hlater
      have hlt : later < 8 * rest.length := by omega
      have hplace : 8 * (rest.length + 1) - 1 - (later + 8) = 8 * rest.length - 1 - later := by omega
      have hsmall : 2 ^ (8 * rest.length - 1 - later) < 2 ^ (8 * rest.length) :=
        Nat.pow_lt_pow_right Nat.one_lt_two (by omega)
      have hxor := two_pow_mul_add_xor (a := b.toNat) (b := 0) hrest hsmall
      rw [Nat.mul_zero, Nat.zero_add, Nat.xor_zero] at hxor
      rw [flipBit_cons_add, decode_cons_two_pow, decode_cons_two_pow, length_flipBit, ih hlt, hplace,
        hxor]

-- The first bit of the second byte is place 7 of the number.
example : decode (flipBit [0x01, 0x83] 8) = decode [0x01, 0x83] ^^^ 2 ^ 7 := by
  decide

end BigEndian

/-! ### Bits of a signature -/

namespace Signature

/-- **A bit of `s` turned over** is a place of `s` turned over, if that gives a scalar. -/
theorem ofBytes_flipBit_eq_ok_iff {sig sig' : Signature} {bit : ℕ} (hlow : 256 ≤ bit)
    (hhigh : bit < 512) :
    ofBytes (flipBit sig.toBytes bit) = .ok sig'
      ↔ sig'.r = sig.r ∧ sig'.s.toNat = sig.s.toNat ^^^ 2 ^ (511 - bit) := by
  have hr := sig.r.length_toBytes
  have hs := sig.s.length_toBytes
  -- The bit lies in the back half.
  have hsplit : flipBit sig.toBytes bit = sig.r.toBytes ++ flipBit sig.s.toBytes (bit - 256) := by
    have hback := flipBit_append sig.r.toBytes sig.s.toBytes (bit - 256)
    rw [hr, Nat.sub_add_cancel hlow] at hback
    exact hback
  have hflip : BigEndian.decode (flipBit sig.s.toBytes (bit - 256))
      = sig.s.toNat ^^^ 2 ^ (511 - bit) := by
    rw [BigEndian.decode_flipBit (by omega), hs]
    have hplace : 8 * 32 - 1 - (bit - 256) = 511 - bit := by omega
    rw [hplace, sig.s.decode_toBytes]
  rw [ofBytes_eq_ok_iff, hsplit, List.take_left' hr, List.drop_left' hr, hflip,
    sig.r.decode_toBytes, Residue.toNat_inj, List.length_append, hr, length_flipBit, hs]
  exact and_iff_right rfl

end Signature

end CurveSign
