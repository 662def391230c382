import CurveSign.Proofs.Residue.Power
import CurveSign.Proofs.Words.FourWords

namespace CurveSign

/-!
# Powers of scalars

The exponent of a power is read word by word, the most significant word first, and in each word from the top
bit.  What is kept from turn to turn, inside a word and from one word to the next, is that the power so far
has for its exponent the number that the bits read so far spell (`Residue.toZMod_powWord`), so exponents of
any number of words are read, below the modulus or not (`Residue.toZMod_powWords`).  Since the order `n` is
prime, powers of a scalar other than zero only depend on the exponent modulo `n - 1` (`Scalar.pow_exact`).
-/

namespace Residue

open Word (base)

variable {m : Modulus} {n : ℕ}

/-- The bits of a word, read from the top behind the words above. -/
def powWord (a : Residue m) (power : Residue m) (w : UInt64) : Residue m :=
  (List.range 64).reverse.foldl
    (fun power i => if (w >>> UInt64.ofNat i) &&& 1 == 1 then power.square * a else power.square) power

/-- The power, with an exponent of any number of words, read from the top. -/
def powWords (a : Residue m) (exponent : Vector UInt64 n) : Residue m :=
  exponent.toList.reverse.foldl (powWord a) 1

/-- **A word** goes behind the exponent that is read already. -/
theorem toZMod_powWord {a power : Residue m} {above : ℕ} (h : power.toZMod = a.toZMod ^ above)
    (w : UInt64) : (a.powWord power w).toZMod = a.toZMod ^ (w.toNat + base * above) := by
  have hbits : a.powWord power w = (List.range 64).foldr
      (fun i power => if w.toNat.testBit i then power.square * a else power.square) power := by
    rw [powWord, List.foldl_reverse]
    refine List.foldr_ext _ _ _ fun i hi power => ?_
    rw [Word.lowBit_shiftRight w (List.mem_range.1 hi)]
  rw [hbits]
  exact foldr_range_testBit_from (fun n (power : Residue m) => power.toZMod = a.toZMod ^ n)
    (fun bit power => if bit then power.square * a else power.square)
    (fun _ bit _ hpower => toZMod_bitStep hpower bit) h w.toNat_lt

/-- **Words from the top** are read as the number that they stand for. -/
theorem toZMod_powWords (a : Residue m) (exponent : Vector UInt64 n) :
    (a.powWords exponent).toZMod = a.toZMod ^ Words.value exponent := by
  rw [powWords, List.foldl_reverse, Words.value_eq_ofDigits]
  -- The least significant word is the head of the list, and it is read last.
  induction exponent.toList with
  | nil => exact toZMod_one.trans (pow_zero _).symm
  | cons w ws ih => exact toZMod_powWord ih w

/-- The loop over words and their bits is the loop over all bits. -/
theorem powWords_words (a : Residue m) (exponent : Word256) :
    a.powWords exponent.words = a.pow exponent := by
  rw [← toZMod_inj, toZMod_powWords, toZMod_pow, Word256.value_words]

/-- Powers, on the natural numbers. -/
theorem toNat_pow (a : Residue m) (exponent : Word256) :
    (a.pow exponent).toNat = a.toNat ^ exponent.toNat % m.toNat := by
  apply Eq.symm
  rw [pow_mod_eq_toNat_iff, toZMod_pow]
  rfl

/-- The power with the exponent zero is one, also that of zero. -/
theorem pow_zero_eq_one (a : Residue m) : a.pow Word256.zero = 1 := by
  rw [← toZMod_inj, toZMod_pow, Word256.toNat_zero, pow_zero, toZMod_one]

/-! ### Prime moduli -/

variable [Fact m.toNat.Prime]

/-- **Fermat.**  The power with the modulus for its exponent is the residue itself. -/
theorem pow_modulus (a : Residue m) : a.pow m.word = a := by
  rw [← toZMod_inj, toZMod_pow]
  exact ZMod.pow_card a.toZMod

/-- Exponents that agree modulo `m - 1` give the same power, of every residue but zero. -/
theorem pow_eq_pow_of_mod_eq {a : Residue m} (ha : a ≠ 0) {e e' : Word256}
    (h : e.toNat % (m.toNat - 1) = e'.toNat % (m.toNat - 1)) : a.pow e = a.pow e' := by
  have hone := ZMod.pow_card_sub_one_eq_one (mt toZMod_eq_zero_iff.1 ha)
  rw [← toZMod_inj, toZMod_pow, toZMod_pow, pow_eq_pow_mod _ hone, h, ← pow_eq_pow_mod _ hone]

end Residue

namespace Scalar

/-- **Powers of scalars.** For every exponent of four words, below the order or not, reading its words and
    their bits from the top ends with the power modulo `n`.  The power with the exponent zero is one, also that
    of zero, and the power with the exponent `n` is the scalar.  Of a scalar other than zero the power is the
    one for the exponent modulo `n - 1`. -/
theorem pow_exact (a : Scalar) :
    (∀ e : Word256, a.powWords e.words = a.pow e
      ∧ (a.pow e).toNat = a.toNat ^ e.toNat % Modulus.order.toNat)
    ∧ a.pow Word256.zero = 1
    ∧ a.pow Modulus.orderWord = a
    ∧ (a ≠ 0 → ∀ e : Word256,
      a.pow e = a.pow (Word256.ofNat (e.toNat % (Modulus.order.toNat - 1)))) := by
  refine ⟨fun e => ⟨a.powWords_words e, a.toNat_pow e⟩, a.pow_zero_eq_one, a.pow_modulus, ?_⟩
  intro ha e
  -- The reduced exponent is a word, so nothing is lost in writing it as one.
  have hsize : e.toNat % (Modulus.order.toNat - 1) < Word256.size :=
    (Nat.mod_le _ _).trans_lt e.toNat_lt
  refine Residue.pow_eq_pow_of_mod_eq ha ?_
  rw [Word256.toNat_ofNat, Nat.mod_eq_of_lt hsize, Nat.mod_mod]

/-- The largest exponent is `2 ^ 256 - n` modulo `n - 1`. -/
theorem pow_exact_largest :
    (-1 : Scalar) ≠ 0
    ∧ (-1 : Scalar).pow (Word256.zero.subBorrow Word256.one).1
      = (-1 : Scalar).pow Modulus.orderComplement := by
  have hne : (-1 : Scalar) ≠ 0 := by decide
  have hpower := (pow_exact (-1)).2.2.2 hne (Word256.zero.subBorrow Word256.one).1
  have hexponent : Word256.ofNat ((Word256.zero.subBorrow Word256.one).1.toNat
      % (Modulus.order.toNat - 1)) = Modulus.orderComplement := by decide
  rw [hexponent] at hpower
  exact ⟨hne, hpower⟩

end Scalar

end CurveSign
