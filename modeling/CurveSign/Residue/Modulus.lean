import CurveSign.Word256.Lemmas

namespace CurveSign

/-!
# Moduli just below `2^256`

Both moduli of the curve, the prime of its coordinates and the order of its group, lie so close
below `2^256` that reduction is cheap: `2^256` is congruent to a small complement, a few folding
steps bring any product below `2^256`, and one conditional subtraction finishes.
-/

/-- An odd modulus above `2^255` whose folding steps end. -/
structure Modulus where
  /-- The modulus itself. -/
  word : Word256
  /-- What the modulus lacks to `2^256`. -/
  complement : Word256
  /-- The number of folding steps that bring every product below `2^256`. -/
  rounds : Nat
  word_add_complement : word.toNat + complement.toNat = Word256.size
  size_lt : Word256.size < 2 * word.toNat
  odd : word.toNat % 2 = 1
  fold_hi : ∀ w : Word512, (w.foldTimes complement rounds).hi = Word256.zero

namespace Modulus

/-- The modulus as a natural number. -/
abbrev toNat (m : Modulus) : Nat := m.word.toNat

/-- The words of `p = 2^256 - 2^32 - 977`. -/
def coordinateWord : Word256 :=
  ⟨0xFFFFFFFEFFFFFC2F, 0xFFFFFFFFFFFFFFFF, 0xFFFFFFFFFFFFFFFF, 0xFFFFFFFFFFFFFFFF⟩

/-- The words of the group order `n`. -/
def orderWord : Word256 :=
  ⟨0xBFD25E8CD0364141, 0xBAAEDCE6AF48A03B, 0xFFFFFFFFFFFFFFFE, 0xFFFFFFFFFFFFFFFF⟩

/-- The complement `2^256 - p`, of 33 bits. -/
def coordinateComplement : Word256 := ⟨0x1000003D1, 0, 0, 0⟩

/-- The complement `2^256 - n`, of 129 bits. -/
def orderComplement : Word256 := ⟨0x402DA1732FC9BEBF, 0x4551231950B75FC4, 1, 0⟩

/-- Three steps suffice for `p`: the values stay below `2^290`, `2^257` and `2^256`. -/
theorem coordinate_fold_hi (w : Word512) :
    (w.foldTimes coordinateComplement 3).hi = Word256.zero := by
  have h1 := Word512.fold_value w coordinateComplement
  have h2 := Word512.fold_value (w.fold coordinateComplement) coordinateComplement
  have h3 := Word512.fold_value ((w.fold coordinateComplement).fold coordinateComplement)
    coordinateComplement
  have hc : coordinateComplement.toNat = 0x1000003D1 := by decide
  rw [hc] at h1 h2 h3
  -- Each fold leaves an upper half bounded by that of the one before it times the complement.
  have b0 := w.lo.toNat_lt
  have b1 := w.hi.toNat_lt
  have b2 := (w.fold coordinateComplement).lo.toNat_lt
  have b3 := ((w.fold coordinateComplement).fold coordinateComplement).lo.toNat_lt
  have b4 := (((w.fold coordinateComplement).fold coordinateComplement).fold
    coordinateComplement).lo.toNat_lt
  apply Word256.toNat_inj.1
  simp only [Word512.toNat, Word512.foldTimes, Word256.size, Word256.toNat_zero] at *
  omega

/-- Four steps suffice for `n`: the values stay below `2^386`, `2^260`, `2^256 + 2^133` and
`2^256`. -/
theorem order_fold_hi (w : Word512) :
    (w.foldTimes orderComplement 4).hi = Word256.zero := by
  have h1 := Word512.fold_value w orderComplement
  have h2 := Word512.fold_value (w.fold orderComplement) orderComplement
  have h3 := Word512.fold_value ((w.fold orderComplement).fold orderComplement) orderComplement
  have h4 := Word512.fold_value
    (((w.fold orderComplement).fold orderComplement).fold orderComplement) orderComplement
  have hc : orderComplement.toNat = 0x14551231950B75FC4402DA1732FC9BEBF := by decide
  rw [hc] at h1 h2 h3 h4
  -- The complement of the order has 129 bits, too long for three folds to be enough.
  have b0 := w.lo.toNat_lt
  have b1 := w.hi.toNat_lt
  have b2 := (w.fold orderComplement).lo.toNat_lt
  have b3 := ((w.fold orderComplement).fold orderComplement).lo.toNat_lt
  have b4 := (((w.fold orderComplement).fold orderComplement).fold orderComplement).lo.toNat_lt
  have b5 := ((((w.fold orderComplement).fold orderComplement).fold orderComplement).fold
    orderComplement).lo.toNat_lt
  apply Word256.toNat_inj.1
  simp only [Word512.toNat, Word512.foldTimes, Word256.size, Word256.toNat_zero] at *
  omega

/-- The prime `p` of the coordinates. -/
def coordinate : Modulus where
  word := coordinateWord
  complement := coordinateComplement
  rounds := 3
  word_add_complement := by decide
  size_lt := by decide
  odd := by decide
  fold_hi := coordinate_fold_hi

/-- The order `n` of the group of points. -/
def order : Modulus where
  word := orderWord
  complement := orderComplement
  rounds := 4
  word_add_complement := by decide
  size_lt := by decide
  odd := by decide
  fold_hi := order_fold_hi

end Modulus

end CurveSign
