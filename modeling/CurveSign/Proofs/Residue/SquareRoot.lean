import CurveSign.Proofs.Residue.Power
import Mathlib.NumberTheory.LegendreSymbol.Basic

namespace CurveSign

/-!
# Square roots of field elements

A field element has a square root exactly if its number is a square modulo `p`, and what is returned is
one of the only two roots (`FieldElement.sqrt?_exact`).  Half of `p` is odd, so by Euler's criterion the
squares are told from their negations: of a number other than zero and its negation exactly one is a
square (`FieldElement.isSquare_iff_not_isSquare_neg`).
-/

namespace Residue

variable {m : Modulus}

/-- A residue is a square in the ring if some number has it for the remainder of its square. -/
theorem isSquare_toZMod_iff {a : Residue m} :
    IsSquare a.toZMod ↔ ∃ c : ℕ, c ^ 2 % m.toNat = a.toNat := by
  simp only [pow_mod_eq_toNat_iff, isSquare_iff_exists_sq]
  constructor
  · rintro ⟨x, hx⟩
    refine ⟨x.val, ?_⟩
    rw [ZMod.natCast_zmod_val, hx]
  · rintro ⟨c, hc⟩
    exact ⟨c, hc.symm⟩

end Residue

namespace FieldElement

/-! ### Squares and their negations -/

theorem odd_half_coordinate : Odd (Modulus.coordinate.toNat / 2) := by
  rw [Modulus.toNat_coordinate, Nat.odd_iff]

/-- **Euler.** Of a number other than zero and its negation exactly one is a square modulo `p`. -/
theorem isSquare_iff_not_isSquare_neg {x : ZMod Modulus.coordinate.toNat} (hx : x ≠ 0) :
    IsSquare x ↔ ¬ IsSquare (-x) := by
  have hsign : (-1 : ZMod Modulus.coordinate.toNat) ≠ 1 := by
    rw [Ne, neg_eq_iff_add_eq_zero, one_add_one_eq_two]
    exact Residue.two_ne_zero Modulus.coordinate
  rw [ZMod.euler_criterion _ hx, ZMod.euler_criterion _ (neg_ne_zero.2 hx),
    odd_half_coordinate.neg_pow]
  rcases ZMod.pow_div_two_eq_neg_one_or_one _ hx with hpower | hpower
  · simp [hpower, hsign]
  · simp [hpower, hsign]

/-! ### Roots -/

variable {a b c : FieldElement}

theorem exists_sqrt?_eq_some_iff : (∃ b, a.sqrt? = some b) ↔ IsSquare a.toZMod := by
  simp [sqrt?_eq_some_iff]

/-- A root that is returned is the power of the number. -/
theorem toNat_of_sqrt? (h : a.sqrt? = some b) :
    a.toNat ^ ((Modulus.coordinate.toNat + 1) / 4) % Modulus.coordinate.toNat = b.toNat := by
  obtain ⟨rfl, -⟩ := sqrt?_eq_some_iff.1 h
  rw [Residue.pow_mod_eq_toNat_iff, toZMod_rootPower]
  rfl

/-- A root that is found is a root. -/
theorem toZMod_sq_of_sqrt? (h : a.sqrt? = some b) : b.toZMod ^ 2 = a.toZMod := by
  obtain ⟨rfl, hsquare⟩ := sqrt?_eq_some_iff.1 h
  exact rootPower_sq_of_isSquare hsquare

/-- The roots of a square are the one that is returned and its negation. -/
theorem sq_eq_iff_of_sqrt? (h : a.sqrt? = some b) :
    c.toNat ^ 2 % Modulus.coordinate.toNat = a.toNat ↔ c = b ∨ c = -b := by
  rw [Residue.pow_mod_eq_toNat_iff, ← toZMod_sq_of_sqrt? h, ← Residue.toZMod_inj,
    ← Residue.toZMod_inj, Residue.toZMod_neg]
  exact sq_eq_sq_iff_eq_or_eq_neg

/-- **Square roots.** A root is returned for exactly the squares modulo `p`.  It is the power with the
    exponent `(p + 1) / 4`, its square is the number, and it and its negation are all the roots.  Of an
    element other than zero and its negation exactly one has a root. -/
theorem sqrt?_exact (a : FieldElement) :
    ((∃ b, a.sqrt? = some b) ↔ ∃ c : ℕ, c ^ 2 % Modulus.coordinate.toNat = a.toNat)
    ∧ (∀ b, a.sqrt? = some b →
      b.toNat = a.toNat ^ ((Modulus.coordinate.toNat + 1) / 4) % Modulus.coordinate.toNat
      ∧ b.square = a
      ∧ ∀ c : FieldElement, c.toNat ^ 2 % Modulus.coordinate.toNat = a.toNat ↔ c = b ∨ c = -b)
    ∧ (a ≠ 0 → ((∃ b, a.sqrt? = some b) ↔ ¬ ∃ b, (-a).sqrt? = some b)) := by
  refine ⟨?_, ?_, ?_⟩
  · rw [exists_sqrt?_eq_some_iff, Residue.isSquare_toZMod_iff]
  · intro b hb
    refine ⟨(toNat_of_sqrt? hb).symm, ?_, fun c => sq_eq_iff_of_sqrt? hb⟩
    rw [← Residue.toZMod_inj, Residue.toZMod_square, toZMod_sq_of_sqrt? hb]
  · intro ha
    rw [exists_sqrt?_eq_some_iff, exists_sqrt?_eq_some_iff, Residue.toZMod_neg]
    -- The prime is three modulo four, so -1 is not a square.
    exact isSquare_iff_not_isSquare_neg (mt Residue.toZMod_eq_zero_iff.1 ha)

/-- Four has a root, which is two or its negation, and the negation of four has none. -/
theorem sqrt?_exact_four :
    (Residue.ofWord 4 : FieldElement) ≠ 0
    ∧ (∃ b, sqrt? (Residue.ofWord 4) = some b ∧ b.square = Residue.ofWord 4
      ∧ (Residue.ofWord 2 = b ∨ Residue.ofWord 2 = -b))
    ∧ ¬ ∃ b, sqrt? (-Residue.ofWord 4) = some b := by
  have hne : (Residue.ofWord 4 : FieldElement) ≠ 0 := by decide
  have htwo : (Residue.ofWord 2 : FieldElement).toNat ^ 2 % Modulus.coordinate.toNat
      = (Residue.ofWord 4 : FieldElement).toNat := by decide
  obtain ⟨hexists, hroots, hneg⟩ := sqrt?_exact (Residue.ofWord 4)
  obtain ⟨b, hb⟩ := hexists.2 ⟨_, htwo⟩
  obtain ⟨-, hsquare, hall⟩ := hroots b hb
  exact ⟨hne, ⟨b, hb, hsquare, (hall _).1 htwo⟩, (hneg hne).1 ⟨b, hb⟩⟩

end FieldElement

end CurveSign
