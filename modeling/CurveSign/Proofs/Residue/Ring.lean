import CurveSign.Proofs.Prime
import CurveSign.Residue.Lemmas
import Mathlib.Data.ZMod.Basic

namespace CurveSign

/-!
# Residues as elements of `ZMod`

The view `toZMod` takes a residue modulo `m` to the ring of integers modulo `m`.  It is injective
(`toZMod_inj`), every number has a residue (`toZMod_reduce`), and every operation on residues is
the ring operation of its name, so equations between residues are proved in the ring.
-/

namespace Residue

variable {m : Modulus}

/-- The residue as an element of the ring of integers modulo `m`. -/
def toZMod (a : Residue m) : ZMod m.toNat := (a.toNat : ZMod m.toNat)

instance (m : Modulus) : NeZero m.toNat := ⟨(modulus_pos m).ne'⟩

/-! ### Residues and ring elements -/

theorem val_toZMod (a : Residue m) : a.toZMod.val = a.toNat :=
  ZMod.val_natCast_of_lt a.toNat_lt

/-- Residues are told apart by their classes. -/
theorem toZMod_inj {a b : Residue m} : a.toZMod = b.toZMod ↔ a = b := by
  constructor
  · intro h
    rw [← toNat_inj, ← val_toZMod, ← val_toZMod, h]
  · rintro rfl
    rfl

@[simp] theorem toZMod_zero : (0 : Residue m).toZMod = 0 := Nat.cast_zero

@[simp] theorem toZMod_one : (1 : Residue m).toZMod = 1 := Nat.cast_one

theorem toZMod_ofWord (w : UInt64) : (ofWord w : Residue m).toZMod = (w.toNat : ZMod m.toNat) := by
  rw [toZMod, toNat_ofWord]

/-- Reduction keeps the class of a number. -/
theorem toZMod_reduce (a : Word256) : (reduce a : Residue m).toZMod = (a.toNat : ZMod m.toNat) := by
  rw [toZMod, toNat_reduce, ZMod.natCast_mod]

/-- Words have one residue if they agree modulo the modulus. -/
theorem reduce_eq_reduce_iff {a b : Word256} : (reduce a : Residue m) = reduce b
    ↔ (a.toNat : ZMod m.toNat) = b.toNat := by
  rw [← toZMod_inj, toZMod_reduce, toZMod_reduce]

theorem toZMod_eq_zero_iff {a : Residue m} : a.toZMod = 0 ↔ a = 0 := by
  rw [← toZMod_zero, toZMod_inj]

/-- Every number modulo the modulus is that of a residue. -/
theorem exists_toZMod_eq (x : ZMod m.toNat) : ∃ a : Residue m, a.toZMod = x := by
  refine ⟨reduce (Word256.ofNat x.val), ?_⟩
  have hsize : x.val < Word256.size := (ZMod.val_lt x).trans m.word.toNat_lt
  rw [toZMod_reduce, Word256.toNat_ofNat, Nat.mod_eq_of_lt hsize, ZMod.natCast_zmod_val]

theorem isZero_iff_toZMod {a : Residue m} : a.isZero = true ↔ a.toZMod = 0 := by
  rw [isZero_iff, toZMod_eq_zero_iff]

theorem isZero_eq_false_iff {a : Residue m} : a.isZero = false ↔ a.toZMod ≠ 0 := by
  rw [← Bool.not_eq_true, isZero_iff_toZMod]

theorem beq_iff_toZMod {a b : Residue m} : (a == b) = true ↔ a.toZMod = b.toZMod := by
  rw [beq_iff_eq, toZMod_inj]

/-- Two is not zero: both moduli are larger. -/
theorem two_ne_zero (m : Modulus) : (2 : ZMod m.toNat) ≠ 0 := by
  have h : (ofWord 2 : Residue m).toZMod = 2 := toZMod_ofWord 2
  intro hzero
  have hword := congrArg toNat (toZMod_eq_zero_iff.1 (h.trans hzero))
  rw [toNat_ofWord, toNat_zero] at hword
  exact absurd hword (by decide)

/-! ### Ring operations -/

@[simp] theorem toZMod_add (a b : Residue m) : (a + b).toZMod = a.toZMod + b.toZMod := by
  rw [toZMod, toNat_add, ZMod.natCast_mod, Nat.cast_add]
  rfl

/-- Subtraction adds what is missing from the modulus. -/
@[simp] theorem toZMod_sub (a b : Residue m) : (a - b).toZMod = a.toZMod - b.toZMod := by
  rw [toZMod, toNat_sub, ZMod.natCast_mod, Nat.cast_add, Nat.cast_sub b.toNat_lt.le,
    ZMod.natCast_self, zero_sub, ← sub_eq_add_neg]
  rfl

@[simp] theorem toZMod_neg (a : Residue m) : (-a).toZMod = -a.toZMod := by
  rw [toZMod, toNat_neg, ZMod.natCast_mod, Nat.cast_sub a.toNat_lt.le, ZMod.natCast_self, zero_sub]
  rfl

theorem neg_eq_zero_iff {a : Residue m} : -a = 0 ↔ a = 0 := by
  rw [← toZMod_eq_zero_iff, toZMod_neg, neg_eq_zero, toZMod_eq_zero_iff]

@[simp] theorem toZMod_mul (a b : Residue m) : (a * b).toZMod = a.toZMod * b.toZMod := by
  rw [toZMod, toNat_mul, ZMod.natCast_mod, Nat.cast_mul]
  rfl

@[simp] theorem toZMod_double (a : Residue m) : a.double.toZMod = 2 * a.toZMod := by
  rw [double, toZMod_add, two_mul]

@[simp] theorem toZMod_square (a : Residue m) : a.square.toZMod = a.toZMod ^ 2 := by
  rw [square, toZMod_mul, sq]

/-- Halving undoes doubling. -/
theorem two_mul_toZMod_halve (a : Residue m) : 2 * a.halve.toZMod = a.toZMod := by
  rw [two_mul, ← toZMod_add, halve_add_halve]

/-! ### Numbers and their remainders -/

/-- A number is in the ring what a residue is if the residue is its remainder. -/
theorem natCast_eq_toZMod_iff {n : ℕ} {a : Residue m} :
    (n : ZMod m.toNat) = a.toZMod ↔ n % m.toNat = a.toNat := by
  rw [toZMod, ZMod.natCast_eq_natCast_iff', Nat.mod_eq_of_lt a.toNat_lt]

/-- The power of a number, in the ring. -/
theorem pow_mod_eq_toNat_iff {n k : ℕ} {a : Residue m} :
    n ^ k % m.toNat = a.toNat ↔ (n : ZMod m.toNat) ^ k = a.toZMod := by
  rw [← natCast_eq_toZMod_iff, Nat.cast_pow]

/-- The product with a number, in the ring. -/
theorem mul_mod_eq_one_iff {n : ℕ} {a : Residue m} :
    a.toNat * n % m.toNat = 1 ↔ a.toZMod * (n : ZMod m.toNat) = 1 := by
  have hone := natCast_eq_toZMod_iff (n := a.toNat * n) (a := (1 : Residue m))
  rw [Nat.cast_mul, toZMod_one, toNat_one] at hone
  exact hone.symm

/-! ### Powers -/

/-- Squaring several times raises to a power of two. -/
@[simp] theorem toZMod_squareTimes (a : Residue m) (times : ℕ) :
    (a.squareTimes times).toZMod = a.toZMod ^ 2 ^ times := by
  induction times generalizing a with
  | zero => rw [squareTimes, pow_zero, pow_one]
  | succ times ih => rw [squareTimes, ih, toZMod_square, ← pow_mul, pow_succ, mul_comm]

/-- One bit more of an exponent: a squaring, and a multiplication where the bit is set. -/
theorem toZMod_bitStep {a power : Residue m} {n : ℕ} (h : power.toZMod = a.toZMod ^ n) (bit : Bool) :
    (if bit then power.square * a else power.square).toZMod = a.toZMod ^ (2 * n + bit.toNat) := by
  have hsquare : power.square.toZMod = a.toZMod ^ (2 * n) := by
    rw [toZMod_square, h, ← pow_mul, mul_comm]
  cases bit
  · exact hsquare
  · rw [if_pos rfl, toZMod_mul, hsquare, Bool.toNat_true, pow_succ]

/-- Reading the bits of the exponent from the top computes the power. -/
theorem toZMod_pow (a : Residue m) (exponent : Word256) :
    (a.pow exponent).toZMod = a.toZMod ^ exponent.toNat := by
  simp only [pow, Word256.bit_eq_testBit]
  exact foldr_range_testBit (fun n (power : Residue m) => power.toZMod = a.toZMod ^ n)
    (fun bit power => if bit then power.square * a else power.square)
    (by rw [toZMod_one, pow_zero]) (fun _ bit _ hpower => toZMod_bitStep hpower bit)
    (by simpa [Word256.size] using exponent.toNat_lt)

end Residue

end CurveSign
