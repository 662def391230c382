import CurveSign.Proofs.Bytes.RoundTrip
import Mathlib.Data.List.Induction
import Mathlib.Tactic.Ring

namespace CurveSign

/-!
# Shortest byte strings

A byte string spells the number of its front shifted up, plus the number of its back
(`BigEndian.decode_append`), so its length bounds its number from above (`BigEndian.decode_lt`) and a
first byte other than zero bounds it from below (`BigEndian.pow_le_decode_cons`).  The byte strings
without a zero in front are the shortest ones of their numbers (`BigEndian.eq_shortest_iff`).
-/

namespace BigEndian

theorem decode_nil : decode [] = 0 := rfl

/-- Bytes behind shift the number of those in front. -/
theorem decode_append (front back : List UInt8) :
    decode (front ++ back) = decode front * 256 ^ back.length + decode back := by
  induction back using List.reverseRecOn with
  | nil =>
    rw [List.append_nil, List.length_nil, pow_zero, mul_one]
    rfl
  | append_singleton back b ih =>
    rw [← List.append_assoc, decode_append_singleton, decode_append_singleton, ih,
      List.length_append, List.length_singleton, pow_succ]
    ring

theorem decode_singleton (b : UInt8) : decode [b] = b.toNat := by
  rw [← List.nil_append [b], decode_append_singleton]
  exact Nat.zero_add _

/-- The first byte counts in the power of 256 that stands behind it. -/
theorem decode_cons (b : UInt8) (rest : List UInt8) :
    decode (b :: rest) = b.toNat * 256 ^ rest.length + decode rest := by
  rw [← List.singleton_append, decode_append, decode_singleton]

/-! ### Bounds -/

/-- A number has no more digits than bytes. -/
theorem decode_lt (bytes : List UInt8) : decode bytes < 256 ^ bytes.length := by
  induction bytes with
  | nil => exact Nat.one_pos
  | cons b rest ih =>
    have hb : b.toNat + 1 ≤ 256 := b.toNat_lt
    have hshift := Nat.mul_le_mul_right (256 ^ rest.length) hb
    rw [Nat.add_mul, Nat.one_mul] at hshift
    rw [decode_cons, List.length_cons, pow_succ']
    omega

/-- A first byte other than zero makes the number large. -/
theorem pow_le_decode_cons {b : UInt8} (hb : b ≠ 0) (rest : List UInt8) :
    256 ^ rest.length ≤ decode (b :: rest) := by
  have hpos : 0 < b.toNat := Nat.pos_of_ne_zero fun h => hb (UInt8.toNat_inj.1 h)
  have hshift := Nat.mul_le_mul_right (256 ^ rest.length) hpos
  rw [Nat.one_mul] at hshift
  rw [decode_cons]
  omega

/-! ### Shortest strings -/

/-- The bytes of a number without zeros in front; none for zero. -/
def shortest (n : Nat) : List UInt8 :=
  if n = 0 then [] else shortest (n / 256) ++ [UInt8.ofNat n]

theorem shortest_zero : shortest 0 = [] := by
  rw [shortest, if_pos rfl]

theorem shortest_of_ne_zero {n : ℕ} (h : n ≠ 0) :
    shortest n = shortest (n / 256) ++ [UInt8.ofNat n] := by
  rw [shortest, if_neg h]

/-- The shortest form spells the number. -/
theorem decode_shortest (n : ℕ) : decode (shortest n) = n := by
  fun_induction shortest n with
  | case1 => rfl
  | case2 n h ih =>
    rw [decode_append_singleton, ih, UInt8.toNat_ofNat']
    omega

/-- Only zero has no bytes. -/
theorem shortest_eq_nil_iff {n : ℕ} : shortest n = [] ↔ n = 0 := by
  refine ⟨fun h => ?_, fun h => ?_⟩
  · rw [← decode_shortest n, h]
    rfl
  · rw [h, shortest_zero]

/-- No zero stands in front. -/
theorem head?_shortest (n : ℕ) : (shortest n).head? ≠ some 0 := by
  fun_induction shortest n with
  | case1 => exact nofun
  | case2 n h ih =>
    cases hrest : (shortest (n / 256)).head? with
    | some b =>
      rw [List.head?_append, hrest]
      rw [hrest] at ih
      exact ih
    | none =>
      -- The number is its last byte, which is not zero then.
      rw [List.head?_eq_none_iff] at hrest
      have hsmall := shortest_eq_nil_iff.1 hrest
      rw [hrest]
      intro hzero
      have hbyte := congrArg UInt8.toNat (Option.some.inj hzero)
      rw [UInt8.toNat_ofNat', UInt8.toNat_zero] at hbyte
      omega

/-- A front part of bytes that start with no zero starts with none. -/
theorem head?_ne_zero_of_append {front back : List UInt8} (h : (front ++ back).head? ≠ some 0) :
    front.head? ≠ some 0 := by
  intro hfront
  rw [List.head?_append, hfront] at h
  exact h rfl

/-- A byte string without a zero in front is the shortest one of its number. -/
theorem shortest_decode {bytes : List UInt8} (h : bytes.head? ≠ some 0) :
    shortest (decode bytes) = bytes := by
  -- The recursion takes the last byte off, so the induction does.
  induction bytes using List.reverseRecOn with
  | nil => exact shortest_zero
  | append_singleton front b ih =>
    have hne : decode (front ++ [b]) ≠ 0 := by
      cases front with
      | nil =>
        intro hzero
        rw [List.nil_append, decode_singleton] at hzero
        exact h (congrArg some (UInt8.toNat_inj.1 hzero))
      | cons first rest =>
        have hfirst : first ≠ 0 := fun hzero => h (congrArg some hzero)
        have hle := pow_le_decode_cons hfirst (rest ++ [b])
        have hpos : 0 < 256 ^ (rest ++ [b]).length := Nat.pow_pos (by decide)
        rw [List.cons_append]
        omega
    rw [shortest_of_ne_zero hne, decode_append_singleton_div, ofNat_decode_append_singleton,
      ih (head?_ne_zero_of_append h)]

/-- **Shortest is without a zero in front.** -/
theorem eq_shortest_iff {bytes : List UInt8} {n : ℕ} :
    bytes = shortest n ↔ decode bytes = n ∧ bytes.head? ≠ some 0 := by
  constructor
  · rintro rfl
    exact ⟨decode_shortest n, head?_shortest n⟩
  · rintro ⟨rfl, h⟩
    exact (shortest_decode h).symm

/-- A number below a power of 256 takes no more bytes than its exponent. -/
theorem length_shortest_le {n width : ℕ} (h : n < 256 ^ width) : (shortest n).length ≤ width := by
  cases hbytes : shortest n with
  | nil => exact Nat.zero_le _
  | cons first rest =>
    have hfirst : first ≠ 0 := by
      rintro rfl
      exact head?_shortest n (by rw [hbytes]; rfl)
    have hle := pow_le_decode_cons hfirst rest
    rw [← hbytes, decode_shortest] at hle
    exact (Nat.pow_lt_pow_iff_right (by decide)).1 (hle.trans_lt h)

end BigEndian

end CurveSign
