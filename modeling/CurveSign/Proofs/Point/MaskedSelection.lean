import CurveSign.Proofs.Point.Selection
import CurveSign.Proofs.Recoding.InPlace

namespace CurveSign

/-!
# Selection by masks

The multiple by a signed byte is found by arithmetic on the byte and a scan of the whole table: the sign
bit, spread over the byte, gives the size of the digit without a branch (`Mask.size_eq`), every entry is
compared with the size (`Mask.scan_eq`), and the opposite is taken by the sign bit.  For digits in `[-8, 8]`
this is the selection of a multiple (`Mask.select_eq`), and the digits of base 16 that the loop over the
halves of the bytes ends with are such digits (`Scalar.radix16_exact`).
-/

namespace Mask

/-- The sign bit, in every place. -/
def sign (digit : Int8) : Int8 := digit >>> 7

/-- The size of the digit. -/
def size (digit : Int8) : UInt8 := ((digit + sign digit) ^^^ sign digit).toUInt8

/-- The entry of which the number, counted from one, is the size: every entry is looked at. -/
def scan (table : List JacobianPoint) (size : UInt8) (count : ℕ) : JacobianPoint :=
  (List.range count).foldl
    (fun found j => if size = UInt8.ofNat (j + 1) then table.getD j .identity else found) .identity

/-- The multiple by a digit, from the first eight multiples. -/
def select (table : List JacobianPoint) (digit : Int8) : JacobianPoint :=
  let found := scan table (size digit) 8
  if sign digit &&& 1 = 1 then -found else found

variable {digit : ℤ}

/-! ### Arithmetic on the byte -/

/-- The mask turns a digit into its absolute value. -/
theorem size_eq (h : -8 ≤ digit ∧ digit ≤ 8) :
    size (Int8.ofInt digit) = UInt8.ofNat digit.natAbs := by
  obtain ⟨hlow, hhigh⟩ := h
  interval_cases digit <;> decide

/-- The shifted digit is all ones if it is negative. -/
theorem sign_eq (h : -8 ≤ digit ∧ digit ≤ 8) :
    sign (Int8.ofInt digit) &&& 1 = 1 ↔ digit < 0 := by
  obtain ⟨hlow, hhigh⟩ := h
  interval_cases digit <;> decide

/-- The sum of the digit and its mask is not wrapped. -/
theorem toInt_add_sign (h : -8 ≤ digit ∧ digit ≤ 8) :
    (Int8.ofInt digit + sign (Int8.ofInt digit)).toInt
      = digit + (sign (Int8.ofInt digit)).toInt := by
  obtain ⟨hlow, hhigh⟩ := h
  interval_cases digit <;> decide

/-! ### The scan -/

/-- A scan finds the entry of a number, if it is one of those looked at. -/
theorem scan_eq (table : List JacobianPoint) {n count : ℕ} (hn : n < 256) (hcount : count < 256) :
    scan table (UInt8.ofNat n) count
      = if 0 < n ∧ n ≤ count then table.getD (n - 1) .identity else .identity := by
  -- On the number of entries looked at, the last of which may replace what was selected.
  induction count with
  | zero => exact (if_neg (by omega)).symm
  | succ count ih =>
    -- Both indices fit a byte, so comparing bytes is comparing them.
    have hmatch : UInt8.ofNat n = UInt8.ofNat (count + 1) ↔ n = count + 1 := by
      rw [← UInt8.toNat_inj, UInt8.toNat_ofNat', UInt8.toNat_ofNat', Nat.mod_eq_of_lt hn,
        Nat.mod_eq_of_lt hcount]
    have hscan : scan table (UInt8.ofNat n) (count + 1)
        = if UInt8.ofNat n = UInt8.ofNat (count + 1) then table.getD count .identity
          else scan table (UInt8.ofNat n) count := by
      rw [scan, List.range_succ, List.foldl_append]
      rfl
    rw [hscan, ih (Nat.lt_of_succ_lt hcount)]
    by_cases hlast : n = count + 1
    · rw [if_pos (hmatch.2 hlast), if_pos (by omega), hlast, Nat.add_sub_cancel]
    · have hrange : (0 < n ∧ n ≤ count + 1) ↔ 0 < n ∧ n ≤ count := by omega
      rw [if_neg (mt hmatch.1 hlast), if_congr hrange rfl rfl]

/-- **Selection by masks** is selection of the multiple by the digit. -/
theorem select_eq (table : List JacobianPoint) (h : -8 ≤ digit ∧ digit ≤ 8) :
    select table (Int8.ofInt digit) = JacobianPoint.selectMultiple table digit := by
  have hfound : scan table (size (Int8.ofInt digit)) 8
      = if digit = 0 then .identity else table.getD (digit.natAbs - 1) .identity := by
    have hzero : (0 < digit.natAbs ∧ digit.natAbs ≤ 8) ↔ ¬ digit = 0 := by omega
    rw [size_eq h, scan_eq table (by omega) (by decide), if_congr hzero rfl rfl, ite_not]
  rw [select, hfound, if_congr (sign_eq h) rfl rfl, JacobianPoint.selectMultiple,
    JacobianPoint.withSign]
  by_cases hdigit : digit = 0
  · rw [if_pos hdigit, if_pos hdigit, if_neg (by omega)]
  · rw [if_neg hdigit, if_neg hdigit]

end Mask

/-! ### The digits of base 16 of a scalar -/

/-- **The digits of base 16 of a scalar.** The loop over the halves of the bytes ends with 65 digits, and
    no sum, difference or shift on the way leaves a signed byte.  The digits spell the scalar as an integer,
    the first 64 of them lie in `[-8, 8)`, and the last is 0 or 1.  For these digits, and for 8 as well, the
    masked selection from the first eight multiples of a point on the curve is the multiple in the group,
    and the arithmetic on the digit does not wrap. -/
theorem Scalar.radix16_exact (s : Scalar) :
    s.radix16InPlace = .ok s.radix16
    ∧ s.radix16.length = 65
    ∧ ∑ j ∈ Finset.range 65, s.radix16.getD j 0 * 16 ^ j = (s.toNat : ℤ)
    ∧ (∀ j < 64, -8 ≤ s.radix16.getD j 0 ∧ s.radix16.getD j 0 ≤ 7)
    ∧ (s.radix16.getD 64 0 = 0 ∨ s.radix16.getD 64 0 = 1)
    ∧ ∀ p : JacobianPoint, p.OnCurve → ∀ digit : ℤ, -8 ≤ digit ∧ digit ≤ 8 →
      (Mask.select p.firstMultiples (Int8.ofInt digit)).OnCurve
      ∧ (Mask.select p.firstMultiples (Int8.ofInt digit)).toAffine.toGroup
        = digit • p.toAffine.toGroup
      ∧ (Int8.ofInt digit + Mask.sign (Int8.ofInt digit)).toInt
        = digit + (Mask.sign (Int8.ofInt digit)).toInt := by
  have hsum := digitSum_eq_sum 16 s.radix16
  rw [s.digitSum_radix16, s.length_radix16] at hsum
  have hdigits := recentre_digits (.inl rfl) s.mem_hexDigits_bounds
  rw [s.length_hexDigits] at hdigits
  refine ⟨s.radix16InPlace_eq, s.length_radix16, hsum.symm, hdigits.1, hdigits.2,
    fun p hp digit hdigit => ?_⟩
  have h := hp.stands.selectMultiple hdigit
  -- The masked scan selects the entry that the index would.
  rw [← Mask.select_eq p.firstMultiples hdigit] at h
  exact ⟨h.onCurve, h.toGroup_toAffine, Mask.toInt_add_sign hdigit⟩

/-- The largest scalar passes a carry into the last digit, and the base point has a multiple by -8 and one
    by 0, which is the identity. -/
theorem Scalar.radix16_exact_largest :
    (-1 : Scalar).radix16InPlace = .ok (-1 : Scalar).radix16
    ∧ (-1 : Scalar).radix16.getD 64 0 = 1
    ∧ (Mask.select JacobianPoint.generator.firstMultiples (Int8.ofInt (-8))).toAffine.toGroup
      = (-8 : ℤ) • basePoint
    ∧ (Mask.select JacobianPoint.generator.firstMultiples (Int8.ofInt 0)).toAffine.toGroup = 0 := by
  obtain ⟨hloop, -, -, -, -, hselect⟩ := radix16_exact (-1)
  have hgenerator := hselect _ JacobianPoint.stands_generator.onCurve
  rw [JacobianPoint.stands_generator.toGroup_toAffine] at hgenerator
  refine ⟨hloop, by decide +kernel, (hgenerator (-8) (by decide)).2.1, ?_⟩
  exact (hgenerator 0 (by decide)).2.1.trans (zero_zsmul _)

end CurveSign
