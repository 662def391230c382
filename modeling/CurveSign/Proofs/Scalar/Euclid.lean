import CurveSign.Proofs.Residue.Ring
import CurveSign.Scalar.Euclid
import Mathlib.Tactic.LinearCombination

namespace CurveSign

/-!
# Halving and subtracting inverts

`EuclidInvariant` is what the two pairs `(u, x)` and `(v, y)` keep while `u` and `v` shrink: `u` and
`v` have no common factor, `u` is `s · x` and `v` is `s · y` modulo the order.  Each of the four
ways to go on keeps it, neither number turns zero before the other is one, and the companion of
the number that reaches one is the inverse (`euclidSteps_eq_some`).
-/

namespace Scalar

/-- No common factor, and `u ≡ s · x`, `v ≡ s · y`. -/
structure EuclidInvariant (s : Scalar) (u v : Word256) (x y : Scalar) : Prop where
  coprime : u.toNat.Coprime v.toNat
  left : (u.toNat : ZMod Modulus.order.toNat) = s.toZMod * x.toZMod
  right : (v.toNat : ZMod Modulus.order.toNat) = s.toZMod * y.toZMod

namespace EuclidInvariant

variable {s x y : Scalar} {u v : Word256}

theorem symm (h : EuclidInvariant s u v x y) : EuclidInvariant s v u y x :=
  ⟨h.coprime.symm, h.right, h.left⟩

/-- An even number may be halved together with its companion. -/
theorem halve (h : EuclidInvariant s u v x y) (heven : u.isOdd = false) :
    EuclidInvariant s (u.shiftRightOne false) v x.halve y := by
  have hvalue : 2 * (u.shiftRightOne false).toNat = u.toNat := by
    rw [Word256.isOdd_eq, decide_eq_false_iff_not] at heven
    rw [Word256.shiftRightOne_value, Bool.toNat_false]
    omega
  refine ⟨?_, ?_, h.right⟩
  · have hcoprime := h.coprime
    rw [← hvalue] at hcoprime
    exact hcoprime.coprime_mul_left
  · -- Two is invertible, so the congruence may be compared after doubling.
    apply mul_left_cancel₀ (Residue.two_ne_zero Modulus.order)
    have hcast := congrArg (Nat.cast : ℕ → ZMod Modulus.order.toNat) hvalue
    rw [Nat.cast_mul, Nat.cast_ofNat] at hcast
    rw [hcast, h.left, ← Residue.two_mul_toZMod_halve x]
    ring

/-- The smaller number may be subtracted from the larger, and its companion alike. -/
theorem sub (h : EuclidInvariant s u v x y) (hborrow : (u.subBorrow v).2 = false) :
    EuclidInvariant s (u.subBorrow v).1 v (x - y) y := by
  have hvalue : (u.subBorrow v).1.toNat + v.toNat = u.toNat := by
    rw [Word256.subBorrow_value, hborrow, Bool.toNat_false, Nat.mul_zero, Nat.add_zero]
  refine ⟨?_, ?_, h.right⟩
  · have hcoprime := h.coprime
    rwa [← hvalue, Nat.coprime_add_self_left] at hcoprime
  · have hcast := congrArg (Nat.cast : ℕ → ZMod Modulus.order.toNat) hvalue
    rw [Nat.cast_add] at hcast
    rw [Residue.toZMod_sub]
    linear_combination hcast + h.left - h.right

/-- A zero leaves only one for the other number. -/
theorem eq_one_of_left_eq_zero (h : EuclidInvariant s Word256.zero v x y) : v = Word256.one := by
  have hcoprime := h.coprime
  rw [Word256.toNat_zero, Nat.coprime_zero_left] at hcoprime
  exact Word256.toNat_inj.1 hcoprime

end EuclidInvariant

/-- **Termination with the inverse.**  From numbers without a common factor the steps end in a
    scalar `t` with `s · t = 1`. -/
theorem euclidSteps_eq_some {s x y : Scalar} {u v : Word256} (h : EuclidInvariant s u v x y) :
    ∃ t : Scalar, euclidSteps u v x y = some t ∧ s.toZMod * t.toZMod = 1 := by
  have hone : (Word256.one.toNat : ZMod Modulus.order.toNat) = 1 := by
    rw [Word256.toNat_one, Nat.cast_one]
  -- One case for each way to stop, and one for each way to go on, which keeps the invariant.
  fun_induction euclidSteps u v x y with
  | case1 => exact ⟨_, rfl, h.left.symm.trans hone⟩
  | case2 => exact ⟨_, rfl, h.right.symm.trans hone⟩
  | case3 v x y hv _ => exact absurd h.eq_one_of_left_eq_zero hv
  | case4 u x y hu _ _ => exact absurd h.symm.eq_one_of_left_eq_zero hu
  | case5 u v x y _ _ _ _ heven ih => exact ih (h.halve heven)
  | case6 u v x y _ _ _ _ _ heven ih => exact ih (h.symm.halve heven).symm
  | case7 u v x y _ _ _ _ _ _ hborrow ih => exact ih (h.sub hborrow)
  | case8 u v x y _ _ _ _ _ _ hborrow ih =>
    exact ih (h.symm.sub (subBorrow_of_borrow hborrow)).symm

/-- A scalar other than zero has no common factor with the order. -/
theorem euclidInvariant_start {s : Scalar} (hs : s.toZMod ≠ 0) :
    EuclidInvariant s s.word Modulus.orderWord 1 0 := by
  refine ⟨?_, ?_, ?_⟩
  · have hpos : s.toNat ≠ 0 := fun h => hs (by rw [Residue.toZMod, h, Nat.cast_zero])
    exact (Nat.coprime_of_lt_prime hpos s.toNat_lt order_prime).symm
  · rw [Residue.toZMod_one, mul_one]
    rfl
  · rw [Residue.toZMod_zero, mul_zero]
    exact ZMod.natCast_self _

/-- Every scalar but zero is inverted by halving and subtracting. -/
theorem invertByEuclid?_eq_some {s : Scalar} (hs : s.toZMod ≠ 0) :
    ∃ t : Scalar, s.invertByEuclid? = some t ∧ t.toZMod = s.toZMod⁻¹ := by
  obtain ⟨t, ht, hinverse⟩ := euclidSteps_eq_some (euclidInvariant_start hs)
  refine ⟨t, ?_, eq_inv_of_mul_eq_one_right hinverse⟩
  rw [invertByEuclid?, if_neg (by rwa [Residue.isZero_iff_toZMod]), ht]

end Scalar

end CurveSign
