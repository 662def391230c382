import CurveSign.Proofs.Residue.Ring
import CurveSign.Scalar.Basic
import Mathlib.FieldTheory.Finite.Basic

namespace CurveSign

/-!
# Inverses and square roots as powers

Modulo a prime `m` the power `a ^ (m - 2)` is the inverse of `a`, and modulo the coordinate prime
`p`, which leaves the remainder 3 modulo 4, the power `a ^ ((p + 1) / 4)` is a square root of every
square `a`.  The addition chain of the field reaches both exponents through powers `a ^ (2^k - 1)`.

* `FieldElement.invert?_eq_some`, `Scalar.invert?_eq_some` — every element but zero is inverted;
* `FieldElement.sqrt?_eq_some_iff` — what is returned is a root, and every square has one.
-/

/-- **Fermat.**  Inverses modulo a prime are powers; zero goes to zero. -/
theorem ZMod_pow_sub_two {m : Modulus} [Fact m.toNat.Prime] (x : ZMod m.toNat) :
    x ^ (m.toNat - 2) = x⁻¹ := by
  have hm : 2 < m.toNat := by
    have h := m.size_lt
    simp only [Modulus.toNat, Word256.size] at *
    omega
  by_cases hx : x = 0
  · rw [hx, inv_zero, zero_pow (by omega)]
  · refine eq_inv_of_mul_eq_one_left ?_
    rw [← pow_succ, show m.toNat - 2 + 1 = m.toNat - 1 by omega]
    exact ZMod.pow_card_sub_one_eq_one hx

namespace FieldElement

/-! ### The addition chain -/

/-- Two blocks of ones side by side are a block of ones. -/
theorem toZMod_joinOnes {a x y : FieldElement} {i k : ℕ}
    (hx : x.toZMod = a.toZMod ^ (2 ^ i - 1)) (hy : y.toZMod = a.toZMod ^ (2 ^ k - 1)) :
    (joinOnes x k y).toZMod = a.toZMod ^ (2 ^ (i + k) - 1) := by
  rw [joinOnes, Residue.toZMod_mul, Residue.toZMod_squareTimes, hx, hy, ← pow_mul, ← pow_add]
  congr 1
  have hi := Nat.one_le_two_pow (n := i)
  have hk := Nat.one_le_two_pow (n := k)
  have hle := Nat.le_mul_of_pos_left (2 ^ k) hi
  rw [Nat.sub_mul, pow_add]
  omega

/-- The exponents of the chain are rows of ones, joined from shorter rows. -/
theorem toZMod_onesPowers (a : FieldElement) :
    a.onesPowers.ones2.toZMod = a.toZMod ^ (2 ^ 2 - 1) ∧
      a.onesPowers.ones22.toZMod = a.toZMod ^ (2 ^ 22 - 1) ∧
      a.onesPowers.ones223.toZMod = a.toZMod ^ (2 ^ 223 - 1) := by
  -- Each line joins two runs of ones into a run of their joint length.
  have h1 : a.toZMod = a.toZMod ^ (2 ^ 1 - 1) := (pow_one _).symm
  have h2 := toZMod_joinOnes h1 h1
  have h3 := toZMod_joinOnes h2 h1
  have h6 := toZMod_joinOnes h3 h3
  have h9 := toZMod_joinOnes h6 h3
  have h11 := toZMod_joinOnes h9 h2
  have h22 := toZMod_joinOnes h11 h11
  have h44 := toZMod_joinOnes h22 h22
  have h88 := toZMod_joinOnes h44 h44
  have h176 := toZMod_joinOnes h88 h88
  have h220 := toZMod_joinOnes h176 h44
  exact ⟨h2, h22, toZMod_joinOnes h220 h3⟩

/-- **The chain ends in the inverse**: its exponent is `p - 2`. -/
theorem toZMod_inversePower (a : FieldElement) : a.inversePower.toZMod = a.toZMod⁻¹ := by
  obtain ⟨h2, h22, h223⟩ := toZMod_onesPowers a
  have hexponent : ((((2 ^ 223 - 1) * 2 ^ 23 + (2 ^ 22 - 1)) * 2 ^ 5 + 1) * 2 ^ 3
      + (2 ^ 2 - 1)) * 2 ^ 2 + 1 = Modulus.coordinate.toNat - 2 := by
    rw [Modulus.toNat_coordinate]
    norm_num
  simp only [inversePower, Residue.toZMod_mul, Residue.toZMod_squareTimes, h2, h22, h223,
    ← pow_mul, ← pow_add, ← pow_succ]
  rw [hexponent, ZMod_pow_sub_two]

/-- The exponent of a root: `(p + 1) / 4`. -/
theorem toZMod_rootPower (a : FieldElement) :
    a.rootPower.toZMod = a.toZMod ^ ((Modulus.coordinate.toNat + 1) / 4) := by
  obtain ⟨h2, h22, h223⟩ := toZMod_onesPowers a
  have hexponent : (((2 ^ 223 - 1) * 2 ^ 23 + (2 ^ 22 - 1)) * 2 ^ 6 + (2 ^ 2 - 1)) * 2 ^ 2
      = (Modulus.coordinate.toNat + 1) / 4 := by
    rw [Modulus.toNat_coordinate]
    norm_num
  simp only [rootPower, Residue.toZMod_mul, Residue.toZMod_squareTimes, h2, h22, h223,
    ← pow_mul, ← pow_add]
  rw [hexponent]

/-! ### Inverses and roots -/

theorem invert?_eq_none {a : FieldElement} (ha : a.toZMod = 0) : a.invert? = none := by
  rw [invert?, if_pos (Residue.isZero_iff_toZMod.2 ha)]

/-- Every element but zero is inverted. -/
theorem invert?_eq_some {a : FieldElement} (ha : a.toZMod ≠ 0) :
    ∃ b : FieldElement, a.invert? = some b ∧ b.toZMod = a.toZMod⁻¹ := by
  refine ⟨a.inversePower, ?_, toZMod_inversePower a⟩
  rw [invert?, if_neg (by rwa [Residue.isZero_iff_toZMod])]

/-- The candidate for a root of a square is a root. -/
theorem rootPower_sq_of_isSquare {a : FieldElement} (ha : IsSquare a.toZMod) :
    a.rootPower.toZMod ^ 2 = a.toZMod := by
  obtain ⟨c, hc⟩ := ha
  have hexponent : (Modulus.coordinate.toNat + 1) / 4 * 2 + (Modulus.coordinate.toNat + 1) / 4 * 2
      = Modulus.coordinate.toNat + 1 := by
    rw [Modulus.toNat_coordinate]
  rw [toZMod_rootPower, ← pow_mul, hc, mul_pow, ← pow_add, hexponent, pow_succ, ZMod.pow_card]

/-- What is returned is a root, and every square has one. -/
theorem sqrt?_eq_some_iff {a b : FieldElement} :
    a.sqrt? = some b ↔ b = a.rootPower ∧ IsSquare a.toZMod := by
  have hcheck : (a.rootPower.square == a) = true ↔ IsSquare a.toZMod := by
    rw [Residue.beq_iff_toZMod, Residue.toZMod_square]
    exact ⟨fun h => ⟨a.rootPower.toZMod, by rw [← h, sq]⟩, rootPower_sq_of_isSquare⟩
  unfold sqrt?
  by_cases h : IsSquare a.toZMod
  · rw [if_pos (hcheck.2 h), Option.some_inj]
    exact ⟨fun hb => ⟨hb.symm, h⟩, fun hb => hb.1.symm⟩
  · rw [if_neg (mt hcheck.1 h)]
    exact ⟨fun hb => by simp at hb, fun hb => absurd hb.2 h⟩

end FieldElement

namespace Scalar

theorem toNat_orderLessTwo : orderLessTwo.toNat = Modulus.order.toNat - 2 := by
  decide

/-- Every scalar but zero is inverted by the power. -/
theorem invert?_eq_some {s : Scalar} (hs : s.toZMod ≠ 0) :
    ∃ t : Scalar, s.invert? = some t ∧ t.toZMod = s.toZMod⁻¹ := by
  refine ⟨s.pow orderLessTwo, ?_, ?_⟩
  · rw [invert?, if_neg (by rwa [Residue.isZero_iff_toZMod])]
  · rw [Residue.toZMod_pow, toNat_orderLessTwo, ZMod_pow_sub_two]

end Scalar

end CurveSign
