import CurveSign.Proofs.Horner
import CurveSign.Recoding.Radix16
import Mathlib.Data.List.Basic

namespace CurveSign

/-!
# Signed digits of base 16 spell the scalar

The 64 hexadecimal digits spell the scalar (`digitSum_hexDigits`), recentring moves a multiple of 16
from each digit to the next and so keeps the number (`digitSum_recentre`), and every digit that
results lies in `[-8, 8]` (`mem_radix16_bounds`): the first 64 below 8, and the last, which is the carry
out of them, is 0 or 1 (`recentre_digits`).
-/

namespace Scalar

/-- The lowest `count` hexadecimal digits of a number spell it modulo `16 ^ count`. -/
theorem digitSum_map_range (n count : ℕ) :
    digitSum 16 ((List.range count).map fun i => Int.ofNat ((n >>> (4 * i)) % 16))
      = ((n % 16 ^ count : ℕ) : ℤ) := by
  -- The lowest digit is taken off, which leaves the digits of `n / 16`.
  induction count generalizing n with
  | zero => simp [Nat.mod_one]
  | succ count ih =>
    have hshift : ∀ i, n >>> (4 * (i + 1)) = (n / 16) >>> (4 * i) := by
      intro i
      rw [Nat.mul_succ, Nat.add_comm, Nat.shiftRight_add]
      simp [Nat.shiftRight_eq_div_pow]
    have hsplit := Nat.mod_mul (x := n) (a := 16) (b := 16 ^ count)
    rw [List.range_succ_eq_map, List.map_cons, List.map_map, digitSum_cons]
    simp only [Function.comp_def, Nat.succ_eq_add_one, hshift, ih]
    rw [pow_succ', hsplit]
    simp

/-- The 64 digits in base 16 spell the scalar. -/
theorem digitSum_hexDigits (s : Scalar) : digitSum 16 s.hexDigits = s.toNat := by
  have hlt : s.toNat < 16 ^ 64 := s.word.toNat_lt
  have h := digitSum_map_range s.toNat 64
  rw [Nat.mod_eq_of_lt hlt] at h
  simp only [hexDigits, Word256.bits_eq]
  exact h

/-- Recentring keeps the number, with the carry in front of it. -/
theorem digitSum_recentre (carry : ℤ) (ds : List ℤ) :
    digitSum 16 (recentre carry ds) = carry + digitSum 16 ds := by
  induction ds generalizing carry with
  | nil => simp [recentre]
  | cons d ds ih =>
    rw [recentre, digitSum_cons, ih, digitSum_cons]
    ring

/-- The 65 digits spell the scalar. -/
theorem digitSum_radix16 (s : Scalar) : digitSum 16 s.radix16 = s.toNat := by
  rw [radix16, digitSum_recentre, digitSum_hexDigits, zero_add]

/-- Hexadecimal digits and a carry of at most one are recentred into `[-8, 8]`. -/
theorem mem_recentre_bounds {carry : ℤ} {ds : List ℤ} (hcarry : 0 ≤ carry ∧ carry ≤ 1)
    (hds : ∀ d ∈ ds, 0 ≤ d ∧ d < 16) : ∀ d ∈ recentre carry ds, -8 ≤ d ∧ d ≤ 8 := by
  -- On the digits, for either carry, since each digit hands one to the next.
  induction ds generalizing carry with
  | nil =>
    intro d hd
    rw [recentre, List.mem_singleton] at hd
    omega
  | cons e ds ih =>
    rw [List.forall_mem_cons] at hds
    have he := hds.1
    rw [recentre, List.forall_mem_cons]
    exact ⟨by omega, ih (by omega) hds.2⟩

/-- They are digits in base 16. -/
theorem mem_hexDigits_bounds (s : Scalar) : ∀ d ∈ s.hexDigits, 0 ≤ d ∧ d < 16 := by
  intro d hd
  simp only [hexDigits, List.mem_map, Word256.bits_eq] at hd
  obtain ⟨i, _, rfl⟩ := hd
  have h := Nat.mod_lt (s.word.toNat >>> (4 * i)) (show 0 < 1 <<< 4 by decide)
  simp only [Int.ofNat_eq_natCast]
  omega

theorem mem_radix16_bounds (s : Scalar) : ∀ d ∈ s.radix16, -8 ≤ d ∧ d ≤ 8 :=
  mem_recentre_bounds (by norm_num) s.mem_hexDigits_bounds

/-! ### Digit by digit -/

/-- Recentring adds one digit for the last carry. -/
theorem length_recentre (carry : ℤ) (ds : List ℤ) : (recentre carry ds).length = ds.length + 1 := by
  induction ds generalizing carry with
  | nil => rfl
  | cons d ds ih => rw [recentre, List.length_cons, ih, List.length_cons]

theorem length_hexDigits (s : Scalar) : s.hexDigits.length = 64 := by
  rw [hexDigits, List.length_map, List.length_range]

theorem length_radix16 (s : Scalar) : s.radix16.length = 65 := by
  rw [radix16, length_recentre, length_hexDigits]

/-- The digits are those below the top one, and the top one. -/
theorem take_radix16_append (s : Scalar) :
    s.radix16.take 64 ++ [s.radix16.getD 64 0] = s.radix16 := by
  have htop : 64 < s.radix16.length := by
    rw [length_radix16]
    decide
  rw [List.getD_eq_getElem _ _ htop, ← List.take_succ_eq_append_getElem htop]
  exact List.take_of_length_le s.length_radix16.le

/-- **Each digit** is recentred into `[-8, 8)`, and the carry out of the last one is 0 or 1. -/
theorem recentre_digits {carry : ℤ} {ds : List ℤ} (hcarry : carry = 0 ∨ carry = 1)
    (hds : ∀ d ∈ ds, 0 ≤ d ∧ d < 16) :
    (∀ i < ds.length, -8 ≤ (recentre carry ds).getD i 0 ∧ (recentre carry ds).getD i 0 ≤ 7)
      ∧ ((recentre carry ds).getD ds.length 0 = 0 ∨ (recentre carry ds).getD ds.length 0 = 1) := by
  induction ds generalizing carry with
  | nil => exact ⟨fun i hi => absurd hi (Nat.not_lt_zero i), hcarry⟩
  | cons d ds ih =>
    rw [List.forall_mem_cons] at hds
    -- What a digit hands on is a carry again.
    have hup : (d + carry + 8) / 16 = 0 ∨ (d + carry + 8) / 16 = 1 := by omega
    obtain ⟨hdigits, htop⟩ := ih hup hds.2
    rw [recentre]
    refine ⟨?_, htop⟩
    rintro (_ | i) hi
    · rw [List.getD_cons_zero]
      omega
    · exact hdigits i (Nat.lt_of_succ_lt_succ hi)

end Scalar

end CurveSign
