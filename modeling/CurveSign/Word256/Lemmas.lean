import CurveSign.Word256.Product

namespace CurveSign

/-!
# Values of four-word arithmetic

Each operation on `Word256` and `Word512` through the view `toNat`: exact sums and differences with
their outgoing bit, order and bits by value, the exact product, and the exact reduction step.
-/

namespace Word256

open Word (base)

/-! ### The view -/

/-- Four words are below 2 to the 256. -/
theorem toNat_lt (a : Word256) : a.toNat < size := by
  have h0 := Word.toNat_lt_base a.l0
  have h1 := Word.toNat_lt_base a.l1
  have h2 := Word.toNat_lt_base a.l2
  have h3 := Word.toNat_lt_base a.l3
  simp only [toNat, base, size] at *
  omega

/-- Different numbers have different words. -/
theorem toNat_inj {a b : Word256} : a.toNat = b.toNat ↔ a = b := by
  constructor
  · intro h
    have a0 := Word.toNat_lt_base a.l0
    have a1 := Word.toNat_lt_base a.l1
    have a2 := Word.toNat_lt_base a.l2
    have b0 := Word.toNat_lt_base b.l0
    have b1 := Word.toNat_lt_base b.l1
    have b2 := Word.toNat_lt_base b.l2
    obtain ⟨x0, x1, x2, x3⟩ := a
    obtain ⟨y0, y1, y2, y3⟩ := b
    simp only [toNat, base] at *
    -- Equal numbers have equal digits, each below the base.
    have h0 : x0 = y0 := UInt64.toNat_inj.1 (by omega)
    have h1 : x1 = y1 := UInt64.toNat_inj.1 (by omega)
    have h2 : x2 = y2 := UInt64.toNat_inj.1 (by omega)
    have h3 : x3 = y3 := UInt64.toNat_inj.1 (by omega)
    rw [h0, h1, h2, h3]
  · rintro rfl
    rfl

/-- Writing a number in four words keeps it modulo `2^256`. -/
theorem toNat_ofNat (n : Nat) : (ofNat n).toNat = n % size := by
  simp only [ofNat, toNat, base, size, UInt64.toNat_ofNat', Nat.reducePow]
  omega

theorem toNat_zero : zero.toNat = 0 := rfl

theorem toNat_one : one.toNat = 1 := rfl

theorem ofNat_toNat (a : Word256) : ofNat a.toNat = a :=
  toNat_inj.1 ((toNat_ofNat _).trans (Nat.mod_eq_of_lt a.toNat_lt))

/-- The lowest bit of the first word is the parity. -/
theorem isOdd_eq (a : Word256) : a.isOdd = decide (a.toNat % 2 = 1) := by
  have h : (a.l0 &&& 1).toNat = a.l0.toNat % 2 := by
    simp only [UInt64.toNat_and, UInt64.reduceToNat]
    exact Nat.and_two_pow_sub_one_eq_mod _ 1
  have hv : a.toNat % 2 = a.l0.toNat % 2 := by
    simp only [toNat, base]
    omega
  rw [hv, ← h, isOdd, Bool.eq_iff_iff]
  simp only [beq_iff_eq, decide_eq_true_eq, ← UInt64.toNat_inj, UInt64.reduceToNat]

/-! ### Sums, differences and halves -/

/-- The sum and its carry, word by word. -/
theorem addCarry_value (a b : Word256) (carry : Bool) :
    (addCarry a b carry).1.toNat + size * (addCarry a b carry).2.toNat
      = a.toNat + b.toNat + carry.toNat := by
  have h0 := Word.addCarry_value a.l0 b.l0 carry
  have h1 := Word.addCarry_value a.l1 b.l1 (Word.addCarry a.l0 b.l0 carry).bit
  have h2 := Word.addCarry_value a.l2 b.l2
    (Word.addCarry a.l1 b.l1 (Word.addCarry a.l0 b.l0 carry).bit).bit
  have h3 := Word.addCarry_value a.l3 b.l3
    (Word.addCarry a.l2 b.l2 (Word.addCarry a.l1 b.l1 (Word.addCarry a.l0 b.l0 carry).bit).bit).bit
  simp only [addCarry, toNat, base, size] at *
  omega

/-- The difference and its borrow, word by word. -/
theorem subBorrow_value (a b : Word256) :
    (subBorrow a b).1.toNat + b.toNat = a.toNat + size * (subBorrow a b).2.toNat := by
  have h0 := Word.subBorrow_value a.l0 b.l0 false
  have h1 := Word.subBorrow_value a.l1 b.l1 (Word.subBorrow a.l0 b.l0 false).bit
  have h2 := Word.subBorrow_value a.l2 b.l2
    (Word.subBorrow a.l1 b.l1 (Word.subBorrow a.l0 b.l0 false).bit).bit
  have h3 := Word.subBorrow_value a.l3 b.l3
    (Word.subBorrow a.l2 b.l2
      (Word.subBorrow a.l1 b.l1 (Word.subBorrow a.l0 b.l0 false).bit).bit).bit
  simp only [subBorrow, toNat, base, size, Bool.toNat_false] at *
  omega

/-- The borrow is set exactly when the difference would be negative. -/
theorem subBorrow_borrow (a b : Word256) : (subBorrow a b).2 = decide (a.toNat < b.toNat) := by
  have h := subBorrow_value a b
  have hd := (subBorrow a b).1.toNat_lt
  have ha := a.toNat_lt
  rw [Bool.eq_iff_iff, decide_eq_true_eq]
  cases hb : (subBorrow a b).2 <;>
    simp only [hb, Bool.toNat_true, Bool.toNat_false, Bool.false_eq_true, true_iff, false_iff,
      size] at * <;> omega

/-- Shifting right halves, with a new bit on top. -/
theorem shiftRightOne_value (a : Word256) (top : Bool) :
    (a.shiftRightOne top).toNat = (a.toNat + size * top.toNat) / 2 := by
  have h0 := Word.toNat_lt_base a.l0
  have h1 := Word.toNat_lt_base a.l1
  have h2 := Word.toNat_lt_base a.l2
  have h3 := Word.toNat_lt_base a.l3
  have ht := Word.bit_le_one top
  simp only [shiftRightOne, toNat, base, size, UInt64.toNat_add, UInt64.toNat_shiftLeft,
    UInt64.toNat_shiftRight, UInt64.reduceToNat, Nat.shiftRight_eq_div_pow, Nat.shiftLeft_eq,
    Nat.reducePow, Nat.reduceMod, Word.toNat_bit] at *
  omega

/-! ### Order and bits -/

/-- The order is the order of the values. -/
theorem compare_eq (a b : Word256) : a.compare b = compare a.toNat b.toNat := by
  rw [toNat, toNat, Word.compare_digit, Word.compare_digit, Word.compare_digit, ← Word.compare_eq,
    Ordering.then_assoc, Ordering.then_assoc, Word256.compare]

/-- Every word's bits stand at 64 places of their own. -/
theorem bit_eq_testBit (a : Word256) (i : Nat) : a.bit i = a.toNat.testBit i := by
  have hr : i % 64 < 64 := Nat.mod_lt i (by decide)
  rw [bit, Word.lowBit_shiftRight _ hr, toNat, Word.testBit_digit, Word.testBit_digit,
    Word.testBit_digit]
  -- The limb the bit lies in, or none of the four.
  obtain hq | hq | hq | hq | hq :
      i / 64 = 0 ∨ i / 64 = 1 ∨ i / 64 = 2 ∨ i / 64 = 3 ∨ 4 ≤ i / 64 := by
    omega
  · simp only [hq, limb]
    rw [if_pos (by omega), show i % 64 = i by omega]
  · simp only [hq, limb]
    rw [if_neg (by omega), if_pos (by omega), show i % 64 = i - 64 by omega]
  · simp only [hq, limb]
    rw [if_neg (by omega), if_neg (by omega), if_pos (by omega), show i % 64 = i - 64 - 64 by omega]
  · simp only [hq, limb]
    rw [if_neg (by omega), if_neg (by omega), if_neg (by omega),
      show i % 64 = i - 64 - 64 - 64 by omega]
  · obtain ⟨k, hk⟩ : ∃ k, i / 64 = k + 4 := ⟨i / 64 - 4, by omega⟩
    rw [hk, if_neg (by omega), if_neg (by omega), if_neg (by omega)]
    have h : a.l3.toNat.testBit (i - 64 - 64 - 64) = false :=
      Nat.testBit_lt_two_pow (Nat.lt_of_lt_of_le a.l3.toNat_lt
        (Nat.pow_le_pow_right (by decide) (by omega)))
    rw [h]
    simp only [limb, UInt64.toNat_zero, Nat.zero_testBit]

/-- A group of bits is the number that they spell, the first of them lowest. -/
theorem bits_eq (a : Word256) (offset count : Nat) :
    a.bits offset count = (a.toNat >>> offset) % (1 <<< count) := by
  induction count generalizing offset with
  | zero => simp only [bits, Nat.shiftLeft_zero, Nat.mod_one]
  | succ count ih =>
    have hb : (a.bit offset).toNat = (a.toNat >>> offset) % 2 := by
      rw [bit_eq_testBit, Nat.testBit_eq_decide_div_mod_eq, ← Nat.shiftRight_eq_div_pow]
      rcases Nat.mod_two_eq_zero_or_one (a.toNat >>> offset) with h | h <;> rw [h] <;> rfl
    rw [bits, ih, hb, Nat.shiftRight_succ, Nat.shiftLeft_succ, Nat.mod_mul]

/-! ### Products -/

/-- One row of a product, word by word. -/
theorem mulAddRow_value (acc : Word256) (x : UInt64) (b : Word256) :
    (mulAddRow acc x b).low.toNat + base * (mulAddRow acc x b).rest.toNat
      = acc.toNat + x.toNat * b.toNat := by
  -- One step for each limb of the row, each taking the carry of the one before.
  have h0 := Word.mulAdd_value acc.l0 x b.l0 0
  have h1 := Word.mulAdd_value acc.l1 x b.l1 (Word.mulAdd acc.l0 x b.l0 0).high
  have h2 := Word.mulAdd_value acc.l2 x b.l2
    (Word.mulAdd acc.l1 x b.l1 (Word.mulAdd acc.l0 x b.l0 0).high).high
  have h3 := Word.mulAdd_value acc.l3 x b.l3
    (Word.mulAdd acc.l2 x b.l2
      (Word.mulAdd acc.l1 x b.l1 (Word.mulAdd acc.l0 x b.l0 0).high).high).high
  simp only [mulAddRow, toNat, base, Nat.mul_add, Nat.mul_left_comm x.toNat,
    UInt64.toNat_zero] at *
  omega

/-- The product is exact: no carry is lost. -/
theorem mulWide_value (a b : Word256) : (mulWide a b).toNat = a.toNat * b.toNat := by
  have h0 := mulAddRow_value zero a.l0 b
  have h1 := mulAddRow_value (mulAddRow zero a.l0 b).rest a.l1 b
  have h2 := mulAddRow_value (mulAddRow (mulAddRow zero a.l0 b).rest a.l1 b).rest a.l2 b
  have h3 := mulAddRow_value
    (mulAddRow (mulAddRow (mulAddRow zero a.l0 b).rest a.l1 b).rest a.l2 b).rest a.l3 b
  -- The product row by row, one for each limb of the first factor.
  have ha : a.toNat * b.toNat = a.l0.toNat * b.toNat + base * (a.l1.toNat * b.toNat)
      + base * base * (a.l2.toNat * b.toNat) + base * base * base * (a.l3.toNat * b.toNat) := by
    rw [toNat]
    simp only [Nat.add_mul, Nat.mul_add, Nat.mul_assoc, Nat.add_assoc]
  rw [ha, Word512.toNat]
  simp only [mulWide]
  generalize mulAddRow (mulAddRow (mulAddRow (mulAddRow zero a.l0 b).rest a.l1 b).rest a.l2 b).rest
    a.l3 b = r3 at *
  generalize mulAddRow (mulAddRow (mulAddRow zero a.l0 b).rest a.l1 b).rest a.l2 b = r2 at *
  generalize mulAddRow (mulAddRow zero a.l0 b).rest a.l1 b = r1 at *
  generalize mulAddRow zero a.l0 b = r0 at *
  generalize hs0 : r0.rest.toNat = s0 at *
  generalize hs1 : r1.rest.toNat = s1 at *
  generalize hs2 : r2.rest.toNat = s2 at *
  generalize hs3 : r3.rest.toNat = s3 at *
  rw [toNat_zero] at h0
  simp only [toNat, base, size] at *
  omega

end Word256

namespace Word512

/-- The reduction step is exact: `lo + hi · c` always fits eight words. -/
theorem fold_value (w : Word512) (c : Word256) :
    (w.fold c).toNat = w.lo.toNat + w.hi.toNat * c.toNat := by
  have hp := Word256.mulWide_value w.hi c
  have hlo := Word256.addCarry_value (Word256.mulWide w.hi c).lo w.lo false
  have hhi := Word256.addCarry_value (Word256.mulWide w.hi c).hi Word256.zero
    ((Word256.mulWide w.hi c).lo.addCarry w.lo false).2
  -- The sum does not leave 512 bits, since the product is far enough below.
  have bound : w.hi.toNat * c.toNat ≤ (Word256.size - 1) * (Word256.size - 1) :=
    Nat.mul_le_mul (Nat.le_sub_one_of_lt w.hi.toNat_lt) (Nat.le_sub_one_of_lt c.toNat_lt)
  have hw := w.lo.toNat_lt
  rw [Word512.toNat] at hp
  rw [← hp] at bound ⊢
  have hbit := Word.bit_le_one
    ((Word256.mulWide w.hi c).hi.addCarry Word256.zero
      ((Word256.mulWide w.hi c).lo.addCarry w.lo false).2).2
  simp only [fold, Word512.toNat, Word256.toNat_zero, Word256.size, Bool.toNat_false] at *
  omega

end Word512

end CurveSign
