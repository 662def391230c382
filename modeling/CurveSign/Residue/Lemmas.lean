import CurveSign.Residue.Basic

namespace CurveSign

/-!
# Values of residue arithmetic

Each operation on residues through the view `toNat`: sums, differences, products and halves are
those of the numbers modulo `m`, reduction keeps the number modulo `m` and flags exactly the
numbers that are not below it, and the tests read the number.
-/

namespace Residue

variable {m : Modulus}

/-! ### Constants and reduction -/

theorem modulus_pos (m : Modulus) : 0 < m.toNat :=
  Nat.lt_trans Nat.zero_lt_one (one_lt_modulus m)

theorem toNat_zero : (0 : Residue m).toNat = 0 := rfl

theorem toNat_one : (1 : Residue m).toNat = 1 := rfl

theorem toNat_ofWord (w : UInt64) : (ofWord w : Residue m).toNat = w.toNat := by
  simp only [toNat, ofWord, Word256.ofWord, Word256.toNat, UInt64.toNat_zero]
  omega

/-- One subtraction is enough below twice the modulus. -/
theorem toNat_ofCarried (a : Word256) (carry : Bool)
    (h : a.toNat + Word256.size * carry.toNat < 2 * m.toNat) :
    (ofCarried a carry h).toNat = (a.toNat + Word256.size * carry.toNat) % m.toNat :=
  Word256.subModulus_value a carry m.word m.size_lt h

/-- Reduction keeps the number modulo `m`. -/
theorem toNat_reduce (a : Word256) : (reduce a : Residue m).toNat = a.toNat % m.toNat := by
  have h := toNat_ofCarried a false (toNat_lt_double m a)
  rwa [Bool.toNat_false, Nat.mul_zero, Nat.add_zero] at h

/-- The flag is set exactly for the numbers that are not below the modulus. -/
theorem ofWord256_flag (a : Word256) :
    (ofWord256 a : Residue m × Bool).2 = decide (m.toNat ≤ a.toNat) := by
  simp only [ofWord256, Word256.subBorrow_borrow, ← decide_not, Nat.not_lt]

/-- The numbers below the modulus, and no others, are residues as they stand. -/
theorem ofWord256?_eq_some_iff {a : Word256} {x : Residue m} :
    ofWord256? a = some x ↔ x.word = a := by
  have hflag := ofWord256_flag (m := m) a
  unfold ofWord256?
  constructor
  · intro h
    split at h
    · exact absurd h (by simp)
    · rename_i hlow
      rw [hflag, decide_eq_true_eq, Nat.not_le] at hlow
      obtain rfl := Option.some.inj h
      exact Word256.toNat_inj.1 ((toNat_reduce a).trans (Nat.mod_eq_of_lt hlow))
  · rintro rfl
    have hlow : ¬ (ofWord256 x.word : Residue m × Bool).2 = true := by
      rw [hflag, decide_eq_true_eq, Nat.not_le]
      exact x.word_lt
    rw [if_neg hlow]
    exact congrArg some (toNat_inj.1 ((toNat_reduce x.word).trans (Nat.mod_eq_of_lt x.word_lt)))

/-- A number below the modulus is read as it stands, any other as zero. -/
theorem toNat_getD_ofWord256? (w : Word256) :
    ((ofWord256? w : Option (Residue m)).getD 0).toNat = if w.toNat < m.toNat then w.toNat else 0 := by
  by_cases hlt : w.toNat < m.toNat
  · have hsome : (ofWord256? w : Option (Residue m)) = some ⟨w, hlt⟩ :=
      ofWord256?_eq_some_iff.2 rfl
    rw [hsome, if_pos hlt]
    rfl
  · have hnone : (ofWord256? w : Option (Residue m)) = none := by
      rw [ofWord256?, ofWord256_flag, if_pos (decide_eq_true (Nat.not_lt.1 hlt))]
    rw [hnone, if_neg hlt]
    rfl

/-! ### Tests -/

theorem isZero_iff {a : Residue m} : a.isZero = true ↔ a = 0 := by
  simp only [isZero, beq_iff_eq]

theorem isOdd_eq (a : Residue m) : a.isOdd = decide (a.toNat % 2 = 1) := Word256.isOdd_eq a.word

/-! ### Ring operations -/

/-- Addition is modulo the modulus. -/
theorem toNat_add (a b : Residue m) : (a + b).toNat = (a.toNat + b.toNat) % m.toNat := by
  have h := Word256.addCarry_value a.word b.word false
  have hadd : (a + b).toNat = (Residue.add a b).toNat := rfl
  rw [hadd, Residue.add, toNat_ofCarried, h, Bool.toNat_false, Nat.add_zero]
  rfl

/-- Subtraction adds the modulus back after a borrow. -/
theorem toNat_sub (a b : Residue m) :
    (a - b).toNat = (a.toNat + (m.toNat - b.toNat)) % m.toNat := by
  have hd := Word256.subBorrow_value a.word b.word
  have hs := Word256.addCarry_value (a.word.subBorrow b.word).1 m.word false
  have ha := a.word_lt
  have hb := b.word_lt
  have hl := (a.word.subBorrow b.word).1.toNat_lt
  have hr := ((a.word.subBorrow b.word).1.addCarry m.word false).1.toNat_lt
  have hm := m.word.toNat_lt
  have hbit := Word.bit_le_one ((a.word.subBorrow b.word).1.addCarry m.word false).2
  have hsub : (a - b).toNat = (Residue.sub a b).toNat := rfl
  rw [hsub, Residue.sub]
  -- A borrow is made good by adding the modulus once.
  by_cases h : (a.word.subBorrow b.word).2 = true
  · rw [dif_pos h]
    rw [h] at hd
    rw [Nat.mod_eq_of_lt] <;>
      simp only [toNat, Modulus.toNat, Bool.toNat_true, Bool.toNat_false, Word256.size] at * <;>
      omega
  · rw [dif_neg h]
    rw [Bool.eq_false_iff.2 h] at hd
    rw [Nat.mod_eq_sub_mod, Nat.mod_eq_of_lt] <;>
      simp only [toNat, Modulus.toNat, Bool.toNat_false, Word256.size] at * <;>
      omega

/-- The opposite is what is missing from the modulus. -/
theorem toNat_neg (a : Residue m) : (-a).toNat = (m.toNat - a.toNat) % m.toNat := by
  have h : (-a).toNat = (0 - a : Residue m).toNat := rfl
  rw [h, toNat_sub, toNat_zero, Nat.zero_add]

/-- Of a residue other than zero the opposite is the rest up to the modulus. -/
theorem toNat_neg_of_ne_zero {a : Residue m} (h : a ≠ 0) : (-a).toNat = m.toNat - a.toNat := by
  have hne : a.toNat ≠ 0 := fun hzero => h (toNat_inj.1 hzero)
  have hlt := a.toNat_lt
  rw [toNat_neg]
  exact Nat.mod_eq_of_lt (by omega)

/-- A folding step keeps the value modulo `m`. -/
theorem fold_mod (w : Word512) : (w.fold m.complement).toNat % m.toNat = w.toNat % m.toNat := by
  have hc := m.word_add_complement
  have hsplit : w.toNat = (w.lo.toNat + w.hi.toNat * m.complement.toNat)
      + w.hi.toNat * m.toNat := by
    rw [Word512.toNat, Modulus.toNat, Nat.add_assoc, ← Nat.mul_add, Nat.add_comm m.complement.toNat,
      hc, Nat.mul_comm]
  rw [Word512.fold_value, hsplit, Nat.add_mul_mod_self_right]

/-- Folding keeps the remainder, however often. -/
theorem foldTimes_mod (rounds : Nat) (w : Word512) :
    (w.foldTimes m.complement rounds).toNat % m.toNat = w.toNat % m.toNat := by
  induction rounds generalizing w with
  | zero => rfl
  | succ rounds ih => rw [Word512.foldTimes, ih, fold_mod]

/-- Multiplication is modulo the modulus: after the rounds of folding the upper half is zero. -/
theorem toNat_mul (a b : Residue m) : (a * b).toNat = a.toNat * b.toNat % m.toNat := by
  have hvalue := foldTimes_mod (m := m) m.rounds (a.word.mulWide b.word)
  rw [Word512.toNat, m.fold_hi, Word256.toNat_zero, Nat.mul_zero, Nat.add_zero,
    Word256.mulWide_value] at hvalue
  have hmul : (a * b).toNat = (Residue.mul a b).toNat := rfl
  rw [hmul, Residue.mul, toNat_ofCarried, Bool.toNat_false, Nat.mul_zero, Nat.add_zero, hvalue]
  rfl

/-- Twice the half is the residue. -/
theorem halve_add_halve (a : Residue m) : a.halve + a.halve = a := by
  have hv := Word256.shiftRightOne_value
    (if a.isOdd then a.word.addCarry m.word false else (a.word, false)).1
    (if a.isOdd then a.word.addCarry m.word false else (a.word, false)).2
  have hs := Word256.addCarry_value a.word m.word false
  have hodd := m.odd
  have ha := a.word_lt
  have hh : a.halve.toNat = _ := hv
  rw [← toNat_inj, toNat_add, hh]
  -- An odd residue is made even by the modulus, which is odd.
  by_cases h : a.toNat % 2 = 1
  · have hflag : a.isOdd = true := by rw [isOdd_eq, decide_eq_true_eq]; exact h
    simp only [hflag, if_true, Bool.toNat_false, Nat.add_zero] at *
    rw [hs, Nat.mod_eq_sub_mod, Nat.mod_eq_of_lt] <;>
      simp only [toNat, Modulus.toNat] at * <;> omega
  · have hflag : a.isOdd = false := by rw [isOdd_eq, decide_eq_false_iff_not]; exact h
    simp only [hflag, Bool.false_eq_true, if_false, Bool.toNat_false, Nat.mul_zero,
      Nat.add_zero] at *
    rw [Nat.mod_eq_of_lt] <;> simp only [toNat, Modulus.toNat] at * <;> omega

end Residue

end CurveSign
