import CurveSign.Proofs.Words.InPlace
import CurveSign.Residue.Modulus
import CurveSign.Word256.Reduction
import Mathlib.Tactic.NormNum

namespace CurveSign

/-!
# Arithmetic of four words, in place

The product, the reduction step and the subtraction of a modulus, computed on arrays of four and eight words,
are those of `Word256` and `Word512`: both stand for the same number (`Word256.mul_words`,
`Word512.foldInPlace_eq`, `Word256.subModulusInPlace_eq`).  Of the reduction step nothing is carried out of
the eighth word, since `lo + hi · c` is below `2 ^ 512` for every `c` of four words.
-/

open Word (base mask)

namespace Word256

/-- The four words as an array. -/
def words (a : Word256) : Vector UInt64 4 := #v[a.l0, a.l1, a.l2, a.l3]

/-- The value of the four words is the number. -/
theorem value_words (a : Word256) : Words.value a.words = a.toNat := by
  rw [Words.value_eq_ofDigits]
  simp [words, toNat, Nat.ofDigits_cons]

end Word256

namespace Word512

/-- The eight words as an array. -/
def words (w : Word512) : Vector UInt64 8 :=
  #v[w.lo.l0, w.lo.l1, w.lo.l2, w.lo.l3, w.hi.l0, w.hi.l1, w.hi.l2, w.hi.l3]

/-- The value of the eight words is the number of the two halves. -/
theorem value_words (w : Word512) : Words.value w.words = w.toNat := by
  rw [Words.value_eq_ofDigits]
  simp only [words, toNat, Word256.toNat, Vector.toList_mk, List.map_cons, List.map_nil,
    Nat.ofDigits_cons, Nat.ofDigits_nil, base, Word256.size]
  ring

end Word512

/-! ### Products and reduction steps -/

/-- **The product in place** is the product. -/
theorem Word256.mul_words (a b : Word256) :
    Words.mul a.words b.words = .ok (a.mulWide b).words := by
  obtain ⟨w, hloop, hvalue⟩ := Words.mul_eq a.words b.words
  rw [value_words, value_words, ← mulWide_value, ← Word512.value_words] at hvalue
  rw [hloop, Words.value_inj.1 hvalue]

/-- The value `lo + hi · c` in place: the words of `lo` are added to the product, and then zeros, which take
    the carry through the words above. -/
def Word512.foldInPlace (w : Word512) (c : Word256) : Except Fault (Words.Carrying 8) := do
  let product ← Words.mul w.hi.words c.words
  let sum ← Words.add w.lo.words 0 (by decide) ⟨product, 0⟩
  Words.add (Vector.replicate 4 0) 4 (by decide) sum

/-- **The reduction step in place** is the reduction step, and no carry is left over. -/
theorem Word512.foldInPlace_eq (w : Word512) (c : Word256) :
    w.foldInPlace c = .ok ⟨(w.fold c).words, 0⟩ := by
  obtain ⟨product, hproduct, hvalue⟩ := Words.mul_eq w.hi.words c.words
  obtain ⟨sum, hsum, hlow⟩ := Words.add_eq w.lo.words 0 (by decide) ⟨product, 0⟩
  obtain ⟨last, hlast, hhigh⟩ := Words.add_eq (Vector.replicate 4 0) 4 (by decide) sum
  -- Zeros add nothing: the second sum only moves the carry, from the fifth place to behind the eighth.
  have htotal : last.valueAt 8 = Words.value (w.fold c).words := by
    calc last.valueAt (4 + 4)
        = sum.valueAt (0 + 4) := by rw [hhigh, Words.value_replicate_zero]; rfl
      _ = Words.value product + Words.value w.lo.words := by
          rw [hlow, pow_zero, one_mul, Words.Carrying.valueAt]; rfl
      _ = Words.value (w.fold c).words := by
          rw [hvalue, Word256.value_words, Word256.value_words, Word256.value_words,
            value_words, fold_value, add_comm]
  rw [foldInPlace, hproduct, ok_bind, hsum, ok_bind]
  exact hlast.trans (congrArg Except.ok (Words.Carrying.eq_of_valueAt htotal))

/-! ### Subtraction of a modulus -/

namespace Word256

/-- **The difference in place** is the difference, with its borrow as a mask. -/
theorem sub_words (a b : Word256) :
    Words.sub a.words b.words = .ok ⟨(a.subBorrow b).1.words, mask (a.subBorrow b).2⟩ := by
  obtain ⟨w, hloop, hvalue⟩ := Words.sub_eq a.words b.words
  have hsub := subBorrow_value a b
  have hsize : base ^ 4 = size := by norm_num
  rw [value_words, value_words, ← subBorrow_borrow] at hloop hvalue
  rw [hsize, ← hsub, Nat.add_right_cancel_iff, ← value_words] at hvalue
  rw [hloop, Words.value_inj.1 hvalue]

/-- The value `carry · 2 ^ 256 + a` less `m`, unless the borrow of the whole difference says that it was
    below `m` already. -/
def subModulusInPlace (a : Word256) (carry : UInt64) (m : Word256) :
    Except Fault (Vector UInt64 4) := do
  let difference ← Words.sub a.words m.words
  let last ← Word.subWide carry 0 difference.carry
  return if last.high &&& 1 = 1 then a.words else difference.words

theorem bne_zero_eq_decide (carry : UInt64) : (carry != 0) = decide (0 < carry.toNat) := by
  rw [Bool.eq_iff_iff, bne_iff_ne, decide_eq_true_eq, Nat.pos_iff_ne_zero, Ne, Ne,
    ← UInt64.toNat_inj, UInt64.toNat_zero]

/-- Nothing but the borrow is subtracted from the carry, so a borrow is left only if there is no carry. -/
theorem last_borrow (carry : UInt64) (borrow : Bool) :
    (Word.subBorrow carry 0 borrow).bit = (borrow && !(carry != 0)) := by
  have hbit : (Word.subBorrow carry 0 borrow).bit = decide (carry.toNat < borrow.toNat) := by
    simp [Word.subBorrow, UInt64.lt_iff_toNat_lt, Word.toNat_bit]
  rw [hbit, bne_zero_eq_decide]
  cases borrow <;> simp [Nat.pos_iff_ne_zero]

/-- **The subtraction in place** is the subtraction of the modulus. -/
theorem subModulusInPlace_eq (a : Word256) (carry : UInt64) (m : Word256) :
    a.subModulusInPlace carry m = .ok (a.subModulus (carry != 0) m).words := by
  have hbit : (Word.mask (Word.subBorrow carry 0 (a.subBorrow m).2).bit &&& 1 = 1)
      ↔ ((a.subBorrow m).2 && !(carry != 0)) = true := by
    rw [Word.mask_and_one, last_borrow]
  rw [subModulusInPlace, sub_words, ok_bind, Word.subWide_mask, ok_bind, subModulus]
  simp only [hbit]
  split_ifs <;> rfl

/-- A value below twice the modulus is reduced; its carry is a word that is 0 or 1. -/
theorem subModulus_word_value {a m : Word256} {carry : UInt64} (hm : 2 ^ 255 < m.toNat)
    (hlt : a.toNat + 2 ^ 256 * carry.toNat < 2 * m.toNat) :
    (a.subModulus (carry != 0) m).toNat = (a.toNat + 2 ^ 256 * carry.toNat) % m.toNat := by
  have hml := m.toNat_lt
  -- A carry of two or more would put the value at `2 ^ 257`, above twice the modulus.
  have hcarry : (carry != 0).toNat = carry.toNat := by
    rw [bne_zero_eq_decide]
    rcases Nat.eq_zero_or_pos carry.toNat with hzero | hpos
    · simp [hzero]
    · rw [decide_eq_true hpos, Bool.toNat_true]
      simp only [size] at hml
      omega
  have hvalue := subModulus_value a (carry != 0) m (by simp only [size]; omega)
  rw [hcarry] at hvalue
  exact hvalue hlt

/-- **Arithmetic of four words is exact.** No sum `a + b + carry` and no `a + b · c + carry` of words leaves two
    words on the way.  The product of two numbers of four words, computed row by row in an array, is their
    product.  The reduction step, computed in the array of the product, is `lo + hi · c` for every `c` of four
    words, and its last carry is zero.  A value `carry · 2 ^ 256 + a` below twice a modulus above `2 ^ 255` is
    reduced by the subtraction that a mask undoes. -/
theorem wideArithmetic_exact :
    (∀ a b carry : UInt64, ∃ d, Word.addWide a b carry = .ok d
      ∧ d.value = a.toNat + b.toNat + carry.toNat)
    ∧ (∀ a b c carry : UInt64, Word.mulAddWide a b c carry = .ok (Word.mulAdd a b c carry)
      ∧ (Word.mulAdd a b c carry).value = a.toNat + b.toNat * c.toNat + carry.toNat)
    ∧ (∀ a b : Word256, Words.mul a.words b.words = .ok (a.mulWide b).words
      ∧ (a.mulWide b).toNat = a.toNat * b.toNat)
    ∧ (∀ (w : Word512) (c : Word256), w.foldInPlace c = .ok ⟨(w.fold c).words, 0⟩
      ∧ (w.fold c).toNat = w.lo.toNat + w.hi.toNat * c.toNat)
    ∧ ∀ (a m : Word256) (carry : UInt64), 2 ^ 255 < m.toNat →
      a.toNat + 2 ^ 256 * carry.toNat < 2 * m.toNat →
      a.subModulusInPlace carry m = .ok (a.subModulus (carry != 0) m).words
      ∧ (a.subModulus (carry != 0) m).toNat = (a.toNat + 2 ^ 256 * carry.toNat) % m.toNat := by
  refine ⟨Word.addWide_eq, ?_, ?_, ?_, ?_⟩
  · exact fun a b c carry => ⟨Word.mulAddWide_eq a b c carry, Word.value_mulAdd a b c carry⟩
  · exact fun a b => ⟨mul_words a b, mulWide_value a b⟩
  · exact fun w c => ⟨w.foldInPlace_eq c, w.fold_value c⟩
  · exact fun a m carry hm hlt => ⟨subModulusInPlace_eq a carry m, subModulus_word_value hm hlt⟩

/-- The largest value below `2 n` has a carry and is reduced to `n - 1`. -/
theorem wideArithmetic_exact_carried :
    2 ^ 255 < Modulus.orderWord.toNat
    ∧ (⟨0x7FA4BD19A06C8281, 0x755DB9CD5E914077, 0xFFFFFFFFFFFFFFFD, 0xFFFFFFFFFFFFFFFF⟩ : Word256).toNat
      + 2 ^ 256 * (1 : UInt64).toNat = 2 * Modulus.orderWord.toNat - 1
    ∧ subModulusInPlace
        ⟨0x7FA4BD19A06C8281, 0x755DB9CD5E914077, 0xFFFFFFFFFFFFFFFD, 0xFFFFFFFFFFFFFFFF⟩ 1
        Modulus.orderWord
      = .ok (Modulus.orderWord.subBorrow one).1.words := by
  have hm : 2 ^ 255 < Modulus.orderWord.toNat := by decide
  have hvalue : (⟨0x7FA4BD19A06C8281, 0x755DB9CD5E914077, 0xFFFFFFFFFFFFFFFD, 0xFFFFFFFFFFFFFFFF⟩
      : Word256).toNat + 2 ^ 256 * (1 : UInt64).toNat = 2 * Modulus.orderWord.toNat - 1 := by decide
  obtain ⟨hloop, hreduced⟩ := wideArithmetic_exact.2.2.2.2 _ Modulus.orderWord 1 hm
    (hvalue.trans_lt (by decide))
  have hlast : _ = (Modulus.orderWord.subBorrow one).1 := toNat_inj.1 (hreduced.trans (by decide))
  exact ⟨hm, hvalue, hloop.trans (by rw [hlast])⟩

end Word256

end CurveSign
