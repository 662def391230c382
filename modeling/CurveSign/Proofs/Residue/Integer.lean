import CurveSign.Proofs.Bytes.FixedWidth

namespace CurveSign

/-!
# Residues as integers

The view `toInt` takes a residue to its integer between zero and the modulus.  A residue that is in
the ring what an integer is has the remainder of that integer for its view (`Residue.toInt_eq_emod`),
so equations in the ring are equations between remainders, and the tests on residues are those on
integers.  Every 32 bytes are read by their number (`Residue.ofWord256_of_bytes`).

In a product the folding steps bring the value down step by step; the bound after each step follows
from the bound of the high half before it (`Word512.fold_lt`).
-/

namespace Residue

variable {m : Modulus}

/-- The integer between zero and the modulus. -/
def toInt (a : Residue m) : ℤ := a.toNat

@[simp] theorem toInt_zero : (0 : Residue m).toInt = 0 := rfl

theorem toInt_nonneg (a : Residue m) : 0 ≤ a.toInt := Int.natCast_nonneg _

theorem toInt_lt (a : Residue m) : a.toInt < m.toNat := Int.ofNat_lt.2 a.toNat_lt

@[simp] theorem toNat_toInt (a : Residue m) : a.toInt.toNat = a.toNat := Int.toNat_natCast _

theorem toInt_inj {a b : Residue m} : a.toInt = b.toInt ↔ a = b := by
  rw [toInt, toInt, Int.ofNat_inj, toNat_inj]

@[simp] theorem intCast_toInt (a : Residue m) : (a.toInt : ZMod m.toNat) = a.toZMod :=
  Int.cast_natCast _

/-- **The class of an integer** is represented by its remainder. -/
theorem toInt_eq_emod {a : Residue m} {k : ℤ} (h : a.toZMod = (k : ZMod m.toNat)) :
    a.toInt = k % m.toNat := by
  rw [← intCast_toInt, ZMod.intCast_eq_intCast_iff'] at h
  rw [← h, Int.emod_eq_of_lt a.toInt_nonneg a.toInt_lt]

/-! ### Tests -/

theorem isZero_eq_decide (a : Residue m) : a.isZero = decide (a.toInt = 0) := by
  rw [Bool.eq_iff_iff, isZero_iff, decide_eq_true_eq, ← toInt_zero (m := m), toInt_inj]

theorem beq_eq_decide (a b : Residue m) : (a == b) = decide (a.toInt = b.toInt) := by
  rw [Bool.eq_iff_iff, beq_iff_eq, decide_eq_true_eq, toInt_inj]

theorem isOdd_eq_decide (a : Residue m) : a.isOdd = decide (a.toInt % 2 = 1) := by
  rw [isOdd_eq, decide_eq_decide, toInt]
  omega

/-- The order is that of the integers. -/
theorem compare_eq_toInt (a b : Residue m) : a.compare b = compare a.toInt b.toInt := by
  rw [Residue.compare, Word256.compare_eq]
  show compare a.toNat b.toNat = compare (a.toNat : ℤ) b.toNat
  rcases Nat.lt_trichotomy a.toNat b.toNat with h | h | h
  · rw [Nat.compare_eq_lt.2 h, compare_lt_iff_lt.2 (Int.ofNat_lt.2 h)]
  · rw [Nat.compare_eq_eq.2 h, compare_eq_iff_eq.2 (congrArg Nat.cast h)]
  · rw [Nat.compare_eq_gt.2 h, compare_gt_iff_gt.2 (Int.ofNat_lt.2 h)]

/-! ### Reading -/

/-- A residue is read from 32 bytes exactly if they spell a number below the modulus. -/
theorem exists_ofBytes?_eq_some_iff {bytes : List UInt8} (hlength : bytes.length = 32) :
    (∃ a : Residue m, ofBytes? bytes = some a) ↔ BigEndian.decode bytes < m.toNat := by
  constructor
  · rintro ⟨a, ha⟩
    rw [← (ofBytes?_eq_some_iff.1 ha).2]
    exact a.toNat_lt
  · intro hlt
    obtain ⟨a, rfl, _⟩ := exists_toBytes_eq hlength hlt
    exact ⟨a, a.ofBytes?_toBytes⟩

/-- What is read from bytes spells them, and is written as them. -/
theorem toInt_of_ofBytes? {bytes : List UInt8} {a : Residue m} (h : ofBytes? bytes = some a) :
    a.toInt = BigEndian.decode bytes ∧ a.toBytes = bytes :=
  ⟨congrArg Nat.cast (ofBytes?_eq_some_iff.1 h).2, (ofBytes?_eq_some_iff_toBytes.1 h).symm⟩

/-- **Reduction** of 32 bytes keeps their number modulo `m`, and flags what is not below `m`. -/
theorem ofWord256_of_bytes {bytes : List UInt8} (hlength : bytes.length = 32) :
    ∃ w, Word256.ofBytes? bytes = some w
      ∧ (reduce w : Residue m).toNat = BigEndian.decode bytes % m.toNat
      ∧ (ofWord256 w : Residue m × Bool).1 = reduce w
      ∧ (ofWord256 w : Residue m × Bool).2 = decide (m.toNat ≤ BigEndian.decode bytes) := by
  have hlt := BigEndian.decode_lt bytes
  rw [hlength] at hlt
  -- Of 32 bytes the word keeps the whole number.
  have hvalue : (Word256.ofNat (BigEndian.decode bytes)).toNat = BigEndian.decode bytes := by
    rw [Word256.toNat_ofNat]
    exact Nat.mod_eq_of_lt hlt
  refine ⟨_, if_pos hlength, ?_, rfl, ?_⟩
  · rw [toNat_reduce, hvalue]
  · rw [ofWord256_flag, hvalue]

end Residue

/-! ### Folding steps -/

/-- A product is what folding leaves below `2 ^ 256`, less the modulus where needed. -/
theorem Residue.word_mul {m : Modulus} (a b : Residue m) :
    (a * b).word
      = ((a.word.mulWide b.word).foldTimes m.complement m.rounds).lo.subModulus false m.word :=
  rfl

namespace Word512

/-- A bound on the number bounds its upper half. -/
theorem hi_le_of_lt {w : Word512} {k : ℕ} (h : w.toNat < Word256.size * (k + 1)) :
    w.hi.toNat ≤ k := by
  rw [toNat] at h
  exact Nat.le_of_lt_succ (Nat.lt_of_mul_lt_mul_left (Nat.lt_of_le_of_lt (Nat.le_add_left _ _) h))

/-- One folding step, from a bound of the high half. -/
theorem fold_lt {w : Word512} {c : Word256} {k : ℕ} (h : w.hi.toNat ≤ k) :
    (w.fold c).toNat < Word256.size + k * c.toNat := by
  rw [fold_value]
  exact Nat.add_lt_add_of_lt_of_le w.lo.toNat_lt (Nat.mul_le_mul_right _ h)

end Word512

namespace Modulus

/-- The values after one and two steps modulo `p`, before the third ends them. -/
theorem foldTimes_coordinate_lt (w : Word512) :
    (w.foldTimes coordinate.complement 1).toNat < 2 ^ 290
      ∧ (w.foldTimes coordinate.complement 2).toNat < 2 ^ 257 := by
  have hc : coordinate.complement.toNat = 0x1000003D1 := by decide
  have h1 := Word512.fold_lt (c := coordinate.complement) (Nat.le_sub_one_of_lt w.hi.toNat_lt)
  -- The second fold starts from a small upper half, which is what makes its bound smaller.
  have hhi : (w.fold coordinate.complement).hi.toNat ≤ 2 ^ 34 - 1 := by
    apply Word512.hi_le_of_lt
    rw [hc] at h1
    norm_num at h1 ⊢
    omega
  have h2 := Word512.fold_lt (c := coordinate.complement) hhi
  rw [hc] at h1 h2
  simp only [Word512.foldTimes]
  norm_num at h1 h2 ⊢
  omega

/-- The values after one, two and three steps modulo `n`, before the fourth ends them. -/
theorem foldTimes_order_lt (w : Word512) :
    (w.foldTimes order.complement 1).toNat < 2 ^ 386
      ∧ (w.foldTimes order.complement 2).toNat < 2 ^ 260
      ∧ (w.foldTimes order.complement 3).toNat < 2 ^ 256 + 2 ^ 133 := by
  have hc : order.complement.toNat = 0x14551231950B75FC4402DA1732FC9BEBF := by decide
  have h1 := Word512.fold_lt (c := order.complement) (Nat.le_sub_one_of_lt w.hi.toNat_lt)
  -- The complement of the order is longer, so the upper half shrinks less at each fold.
  have hhi : (w.fold order.complement).hi.toNat ≤ 2 ^ 130 - 1 := by
    apply Word512.hi_le_of_lt
    rw [hc] at h1
    norm_num at h1 ⊢
    omega
  have h2 := Word512.fold_lt (c := order.complement) hhi
  have hhi' : ((w.fold order.complement).fold order.complement).hi.toNat ≤ 2 ^ 4 - 1 := by
    apply Word512.hi_le_of_lt
    rw [hc] at h2
    norm_num at h2 ⊢
    omega
  have h3 := Word512.fold_lt (c := order.complement) hhi'
  rw [hc] at h1 h2 h3
  simp only [Word512.foldTimes]
  norm_num at h1 h2 h3 ⊢
  omega

end Modulus

end CurveSign
