import CurveSign.Proofs.Residue.Power

namespace CurveSign

/-!
# Inverses of field elements

The addition chain computes the power with the exponent `p - 2`, of every element
(`FieldElement.toNat_inversePower`).  Since `p` is prime, the product of an element other than zero with
that power is one, and with any other number below `p` it is not
(`FieldElement.mul_mod_eq_one_iff_inversePower`).  Zero is the one element without an inverse
(`FieldElement.invert?_exact`).
-/

namespace FieldElement

variable {a b : FieldElement}

/-- The addition chain computes the power, also that of zero. -/
theorem toNat_inversePower (a : FieldElement) : a.inversePower.toNat
    = a.toNat ^ (Modulus.coordinate.toNat - 2) % Modulus.coordinate.toNat := by
  apply Eq.symm
  rw [Residue.pow_mod_eq_toNat_iff, toZMod_inversePower]
  exact ZMod_pow_sub_two a.toZMod

/-- There is an inverse for every residue but zero, and it is the power. -/
theorem invert?_eq_some_iff : a.invert? = some b ↔ a ≠ 0 ∧ b = a.inversePower := by
  unfold invert?
  split_ifs with hzero
  · exact ⟨nofun, fun h => absurd (Residue.isZero_iff.1 hzero) h.1⟩
  · rw [Option.some_inj, and_iff_right (mt Residue.isZero_iff.2 hzero), eq_comm]

/-- **There is one inverse** below the prime, and the addition chain computes it. -/
theorem mul_mod_eq_one_iff_inversePower (ha : a ≠ 0) {c : ℕ} (hc : c < Modulus.coordinate.toNat) :
    a.toNat * c % Modulus.coordinate.toNat = 1 ↔ c = a.inversePower.toNat := by
  have ha' : a.toZMod ≠ 0 := mt Residue.toZMod_eq_zero_iff.1 ha
  have hvalue : (c : ZMod Modulus.coordinate.toNat) = a.toZMod⁻¹ ↔ c = a.inversePower.toNat := by
    rw [← toZMod_inversePower, Residue.natCast_eq_toZMod_iff, Nat.mod_eq_of_lt hc]
  rw [Residue.mul_mod_eq_one_iff, ← hvalue, mul_comm, mul_eq_one_iff_eq_inv₀ ha']

/-- An inverse is not zero. -/
theorem one_le_inversePower (ha : a ≠ 0) : 1 ≤ a.inversePower.toNat := by
  have hproduct := (mul_mod_eq_one_iff_inversePower ha a.inversePower.toNat_lt).2 rfl
  rw [Nat.one_le_iff_ne_zero]
  intro hzero
  rw [hzero, mul_zero, Nat.zero_mod] at hproduct
  exact zero_ne_one hproduct

/-- **Inverses of field elements.** Zero has none.  That of any other element is its power with the exponent
    `p - 2`, and it is the one number in `[1, p)` whose product with the element is one modulo `p`. -/
theorem invert?_exact :
    (0 : FieldElement).invert? = none
    ∧ ∀ a : FieldElement, a ≠ 0 → ∃ b, a.invert? = some b
      ∧ b.toNat = a.toNat ^ (Modulus.coordinate.toNat - 2) % Modulus.coordinate.toNat
      ∧ ∀ c : ℕ, (1 ≤ c ∧ c < Modulus.coordinate.toNat
        ∧ a.toNat * c % Modulus.coordinate.toNat = 1) ↔ c = b.toNat := by
  refine ⟨invert?_eq_none Residue.toZMod_zero, ?_⟩
  intro a ha
  refine ⟨a.inversePower, invert?_eq_some_iff.2 ⟨ha, rfl⟩, toNat_inversePower a, ?_⟩
  intro c
  constructor
  · -- The lower bound is not needed, since zero is no inverse.
    rintro ⟨-, hlt, hproduct⟩
    exact (mul_mod_eq_one_iff_inversePower ha hlt).1 hproduct
  · intro hc
    have hlt := a.inversePower.toNat_lt
    rw [hc]
    exact ⟨one_le_inversePower ha, hlt, (mul_mod_eq_one_iff_inversePower ha hlt).2 rfl⟩

/-- The inverse of two is the half of one, and `p - 1` is its own inverse. -/
theorem invert?_exact_two :
    (Residue.ofWord 2 : FieldElement) ≠ 0
    ∧ invert? (Residue.ofWord 2) = some (Residue.halve 1)
    ∧ (-1 : FieldElement) ≠ 0 ∧ invert? (-1) = some (-1) := by
  have htwo : (Residue.ofWord 2 : FieldElement) ≠ 0 := by decide
  have hlast : (-1 : FieldElement) ≠ 0 := by decide
  obtain ⟨b, hb, -, hunique⟩ := invert?_exact.2 _ htwo
  obtain ⟨b', hb', -, hunique'⟩ := invert?_exact.2 _ hlast
  obtain rfl := Residue.toNat_inj.1 ((hunique (Residue.halve 1 : FieldElement).toNat).1 (by decide +kernel))
  obtain rfl := Residue.toNat_inj.1 ((hunique' (-1 : FieldElement).toNat).1 (by decide +kernel))
  exact ⟨htwo, hb, hlast, hb'⟩

end FieldElement

end CurveSign
