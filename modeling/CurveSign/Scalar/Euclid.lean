import CurveSign.Scalar.Basic

namespace CurveSign

/-!
# Inverses by halving and subtracting

A second way to the inverse of a scalar `s`: the extended Euclidean algorithm with halving in
place of division.  It keeps `u ≡ s · x` and `v ≡ s · y` modulo `n` while `u` and `v` shrink from
`s` and `n` to 1, halving an even one and otherwise subtracting the smaller from the larger.
-/

namespace Scalar

theorem toNat_pos {a : Word256} (h : a ≠ Word256.zero) : 0 < a.toNat :=
  Nat.pos_of_ne_zero fun hz => h (Word256.toNat_inj.1 (hz.trans Word256.toNat_zero.symm))

/-- Halving a number other than zero makes it smaller. -/
theorem toNat_shiftRightOne_lt {a : Word256} (h : a ≠ Word256.zero) :
    (a.shiftRightOne false).toNat < a.toNat := by
  have hpos := toNat_pos h
  rw [Word256.shiftRightOne_value]
  simp only [Bool.toNat_false, Nat.mul_zero, Nat.add_zero]
  omega

/-- Subtracting a number other than zero, without a borrow, makes a number smaller. -/
theorem toNat_subBorrow_lt {a b : Word256} (hb : b ≠ Word256.zero)
    (h : (a.subBorrow b).2 = false) : (a.subBorrow b).1.toNat < a.toNat := by
  have hpos := toNat_pos hb
  have hv := Word256.subBorrow_value a b
  rw [h] at hv
  simp only [Bool.toNat_false, Nat.mul_zero, Nat.add_zero] at hv
  omega

/-- Of two numbers one can be subtracted from the other without a borrow. -/
theorem subBorrow_of_borrow {a b : Word256} (h : (a.subBorrow b).2 ≠ false) :
    (b.subBorrow a).2 = false := by
  rw [Word256.subBorrow_borrow] at *
  simp only [ne_eq, decide_eq_false_iff_not] at *
  omega

/-- The steps from `u`, `v`, `x` and `y` on, until `u` or `v` is 1.  A zero, which two numbers
without a common factor never reach, ends them without a result. -/
def euclidSteps (u v : Word256) (x y : Scalar) : Option Scalar :=
  if u = Word256.one then some x
  else if v = Word256.one then some y
  else if u = Word256.zero then none
  else if v = Word256.zero then none
  else if u.isOdd = false then euclidSteps (u.shiftRightOne false) v x.halve y
  else if v.isOdd = false then euclidSteps u (v.shiftRightOne false) x y.halve
  else if (u.subBorrow v).2 = false then euclidSteps (u.subBorrow v).1 v (x - y) y
  else euclidSteps u (v.subBorrow u).1 x (y - x)
termination_by u.toNat + v.toNat
decreasing_by
  · exact Nat.add_lt_add_right (toNat_shiftRightOne_lt (by assumption)) _
  · exact Nat.add_lt_add_left (toNat_shiftRightOne_lt (by assumption)) _
  · exact Nat.add_lt_add_right (toNat_subBorrow_lt (by assumption) (by assumption)) _
  · exact Nat.add_lt_add_left
      (toNat_subBorrow_lt (by assumption) (subBorrow_of_borrow (by assumption))) _

/-- The inverse of every scalar but zero, by halving and subtracting. -/
def invertByEuclid? (s : Scalar) : Option Scalar :=
  if s.isZero then none else euclidSteps s.word Modulus.orderWord 1 0

end Scalar

end CurveSign
