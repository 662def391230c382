import CurveSign.Proofs.Rejection
import CurveSign.Word
import Mathlib.Algebra.Group.Nat.Defs

namespace CurveSign

/-!
# Words by way of double words

Sums and products of words are also computed as numbers of two words, of which the low word is the result
and the high word is carried.  With a fault for every number on the way that two words do not hold, no sum
`a + b + carry` and no `a + b · c + carry` has one (`Word.addWide_eq`, `Word.mulAddWide_eq`): a product of
words is so far below `2 ^ 128` that two more words can be added.  A difference wraps around in two words
and carries its borrow as a word of equal bits (`Word.subWide_mask`).
-/

namespace DoubleWord

open Word (base)

/-- The number that two words stand for. -/
def value (d : DoubleWord) : ℕ := d.low.toNat + base * d.high.toNat

/-- The two words of a number, modulo `2 ^ 128`. -/
def ofNat (x : ℕ) : DoubleWord := ⟨UInt64.ofNat x, UInt64.ofNat (x / base)⟩

/-- A number of 128 bits is the value of its double word. -/
theorem value_ofNat {x : ℕ} (h : x < 2 ^ 128) : (ofNat x).value = x := by
  simp only [value, ofNat, base, UInt64.toNat_ofNat', Nat.reducePow] at *
  omega

/-- A double word is told by its value. -/
theorem ofNat_value (d : DoubleWord) : ofNat d.value = d := by
  have hlow := Word.toNat_lt_base d.low
  have hhigh := Word.toNat_lt_base d.high
  obtain ⟨low, high⟩ := d
  simp only [ofNat, value, DoubleWord.mk.injEq, ← UInt64.toNat_inj, UInt64.toNat_ofNat', base,
    Nat.reducePow] at *
  omega

/-- Different double words stand for different numbers. -/
theorem value_inj {d d' : DoubleWord} : d.value = d'.value ↔ d = d' := by
  constructor
  · intro h
    rw [← ofNat_value d, h, ofNat_value]
  · rintro rfl
    rfl

end DoubleWord

namespace Word

/-! ### Sums and products -/

/-- A number that two words must hold. -/
def double (x : ℕ) : Except Fault ℕ := if x < 2 ^ 128 then .ok x else .error .overflow

theorem double_eq_ok {x : ℕ} (h : x < 2 ^ 128) : double x = .ok x := if_pos h

/-- The sum `a + b + carry`. -/
def addWide (a b carry : UInt64) : Except Fault DoubleWord := do
  let sum ← double (a.toNat + b.toNat)
  let sum ← double (sum + carry.toNat)
  return .ofNat sum

/-- The value `a + b · c + carry`. -/
def mulAddWide (a b c carry : UInt64) : Except Fault DoubleWord := do
  let product ← double (b.toNat * c.toNat)
  let sum ← double (a.toNat + product)
  let sum ← double (sum + carry.toNat)
  return .ofNat sum

/-- A sum of three words is a number of two words. -/
theorem addWide_eq (a b carry : UInt64) :
    ∃ d, addWide a b carry = .ok d ∧ d.value = a.toNat + b.toNat + carry.toNat := by
  have ha := a.toNat_lt
  have hb := b.toNat_lt
  have hcarry := carry.toNat_lt
  refine ⟨.ofNat (a.toNat + b.toNat + carry.toNat), ?_, DoubleWord.value_ofNat (by omega)⟩
  rw [addWide, double_eq_ok (by omega), ok_bind, double_eq_ok (by omega), ok_bind]
  rfl

theorem value_mulAdd (a b c carry : UInt64) :
    (mulAdd a b c carry).value = a.toNat + b.toNat * c.toNat + carry.toNat :=
  mulAdd_value a b c carry

/-- **Two words hold it.** A product of words leaves room for two more words, so nothing is lost, and the
    sum is the one that the halves of the words give. -/
theorem mulAddWide_eq (a b c carry : UInt64) :
    mulAddWide a b c carry = .ok (mulAdd a b c carry) := by
  have ha := a.toNat_lt
  have hcarry := carry.toNat_lt
  have hproduct : b.toNat * c.toNat ≤ (2 ^ 64 - 1) * (2 ^ 64 - 1) :=
    Nat.mul_le_mul (Nat.le_sub_one_of_lt b.toNat_lt) (Nat.le_sub_one_of_lt c.toNat_lt)
  rw [mulAddWide, double_eq_ok (by omega), ok_bind, double_eq_ok (by omega), ok_bind,
    double_eq_ok (by omega), ok_bind, ← value_mulAdd, DoubleWord.ofNat_value]
  rfl

/-! ### Differences -/

/-- The difference `a - b - borrow`, which wraps around in two words.  Of the borrow only the top bit is
    read. -/
def subWide (a b borrow : UInt64) : Except Fault DoubleWord := do
  let subtrahend ← double (b.toNat + (borrow >>> 63).toNat)
  return .ofNat ((2 ^ 128 + a.toNat - subtrahend) % 2 ^ 128)

/-- A borrow as a word: all its bits are set, or none. -/
def mask (borrow : Bool) : UInt64 := if borrow then 0xFFFFFFFFFFFFFFFF else 0

theorem toNat_mask_shiftRight (borrow : Bool) : (mask borrow >>> 63).toNat = borrow.toNat := by
  cases borrow <;> decide

theorem mask_and_one (borrow : Bool) : mask borrow &&& 1 = 1 ↔ borrow = true := by
  cases borrow <;> decide

/-- Below a mask a word has wrapped around if its borrow is set. -/
theorem value_mask (word : UInt64) (borrow : Bool) :
    (DoubleWord.mk word (mask borrow)).value = word.toNat + (2 ^ 128 - 2 ^ 64) * borrow.toNat := by
  cases borrow <;> simp [DoubleWord.value, mask, base]

/-- **A wrapped difference** has the word of the difference, and above it the mask of the borrow. -/
theorem subWide_mask (a b : UInt64) (borrow : Bool) :
    subWide a b (mask borrow)
      = .ok ⟨(subBorrow a b borrow).word, mask (subBorrow a b borrow).bit⟩ := by
  have ha := a.toNat_lt
  have hb := b.toNat_lt
  have hbit := bit_le_one borrow
  have hword := (subBorrow a b borrow).word.toNat_lt
  have hborrow := bit_le_one (subBorrow a b borrow).bit
  have hvalue := subBorrow_value a b borrow
  rw [subWide, toNat_mask_shiftRight, double_eq_ok (by omega), ok_bind]
  -- Both are compared as numbers: the borrow fills the upper word with ones.
  refine congrArg Except.ok (DoubleWord.value_inj.1 ?_)
  rw [DoubleWord.value_ofNat (Nat.mod_lt _ (by decide)), value_mask]
  simp only [base] at hvalue
  omega

end Word

end CurveSign
