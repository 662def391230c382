import CurveSign.Proofs.Residue.Ring
import Mathlib.AlgebraicGeometry.EllipticCurve.Affine.Point
import Mathlib.FieldTheory.Finite.Basic
import Mathlib.SetTheory.Cardinal.Finite

namespace CurveSign

/-!
# The curve and its group

`curve` is `y² = x³ + 7` over the integers modulo `p`, and `CurvePoint` is the group of its points
under the chord-and-tangent law.  Two facts about it are not visible in the equation: no point has
`y = 0`, since `-7` is not a cube (`y_ne_zero`), and a point is determined by its x-coordinate and
the parity of its y-coordinate (`compressed_injective`).  The second bounds the number of points
(`card_curvePoint_le`).
-/

open WeierstrassCurve.Affine

/-- The field of coordinates, the integers modulo `p`. -/
abbrev Coordinate := ZMod Modulus.coordinate.toNat

/-- The coefficient 7 is the same numeral wherever it is written. -/
instance atLeastTwo_seven : Nat.AtLeastTwo 7 := ⟨by decide⟩

/-- The curve `y² = x³ + 7`. -/
def curve : WeierstrassCurve.Affine Coordinate where
  a₁ := 0
  a₂ := 0
  a₃ := 0
  a₄ := 0
  a₆ := 7

/-- The group of points of the curve. -/
abbrev CurvePoint := curve.Point

/-! ### The equation -/

theorem negY_eq (x y : Coordinate) : curve.negY x y = -y := by
  simp [WeierstrassCurve.Affine.negY, curve]

theorem equation_iff_sq_eq {x y : Coordinate} : curve.Equation x y ↔ y ^ 2 = x ^ 3 + 7 := by
  simp [WeierstrassCurve.Affine.equation_iff, curve]

/-- The number `-7` is not a cube modulo `p`: its power `(p - 1) / 3` is not one. -/
theorem not_cube_neg_seven (x : Coordinate) : x ^ 3 ≠ -7 := by
  intro hx
  have hne : x ≠ 0 := by
    rintro rfl
    have hseven : (Residue.ofWord 7 : Residue Modulus.coordinate).toZMod = 0 := by
      rw [Residue.toZMod_ofWord]
      simpa [eq_comm] using hx
    exact absurd (congrArg Residue.toNat (Residue.toZMod_eq_zero_iff.1 hseven)) (by decide)
  -- The power of a cube is a power by `p - 1`.
  have hfermat : (-7 : Coordinate) ^ ((Modulus.coordinate.toNat - 1) / 3) = 1 := by
    have hdiv : 3 * ((Modulus.coordinate.toNat - 1) / 3) = Modulus.coordinate.toNat - 1 := by
      rw [Modulus.toNat_coordinate]
    rw [← hx, ← pow_mul, hdiv]
    exact ZMod.pow_card_sub_one_eq_one hne
  have hcast : (-7 : Coordinate) = ((Modulus.coordinate.toNat - 7 : ℕ) : Coordinate) := by
    rw [Nat.cast_sub (by rw [Modulus.toNat_coordinate]; norm_num), ZMod.natCast_self]
    simp
  rw [hcast, natCast_pow_eq_one_iff (by rw [Modulus.toNat_coordinate]; norm_num),
    ← powMod_eq _ _ (by rw [Modulus.toNat_coordinate]; norm_num), Modulus.toNat_coordinate] at hfermat
  exact absurd hfermat (by decide +kernel)

/-- No point of the curve lies on the x-axis. -/
theorem y_ne_zero {x y : Coordinate} (h : y ^ 2 = x ^ 3 + 7) : y ≠ 0 := by
  rintro rfl
  refine not_cube_neg_seven x ?_
  rw [zero_pow (by norm_num)] at h
  exact eq_neg_of_add_eq_zero_left h.symm

/-- Only zero is its own opposite, since the characteristic is not two. -/
theorem neg_ne_self {y : Coordinate} (hy : y ≠ 0) : y ≠ -y := by
  intro h
  have htwo : 2 * y = 0 := by
    rw [two_mul]
    exact eq_neg_iff_add_eq_zero.1 h
  rcases mul_eq_zero.1 htwo with h2 | h2
  · exact Residue.two_ne_zero Modulus.coordinate h2
  · exact hy h2

/-- The curve is smooth: the tangent at any of its points is well defined. -/
theorem nonsingular_iff_sq_eq {x y : Coordinate} : curve.Nonsingular x y ↔ y ^ 2 = x ^ 3 + 7 := by
  rw [WeierstrassCurve.Affine.nonsingular_iff, equation_iff_sq_eq]
  refine ⟨fun h => h.1, fun h => ⟨h, Or.inr ?_⟩⟩
  simpa [curve] using neg_ne_self (y_ne_zero h)

/-- On this curve the opposite point has the opposite second coordinate. -/
theorem neg_some_eq {x y : Coordinate} (h : curve.Nonsingular x y) :
    -(Point.some x y h : CurvePoint)
      = .some x (-y) (by rw [nonsingular_iff_sq_eq] at *; rwa [neg_sq]) := by
  rw [Point.neg_some]
  congr 1
  exact negY_eq x y

/-- No point is its own opposite, the identity apart. -/
theorem neg_ne_self_of_ne_zero {g : CurvePoint} (hg : g ≠ 0) : -g ≠ g := by
  rcases g with _ | ⟨x, y, h⟩
  · exact absurd rfl hg
  · intro heq
    rw [neg_some_eq, Point.some.injEq] at heq
    exact neg_ne_self (y_ne_zero (nonsingular_iff_sq_eq.1 h)) heq.2.symm

/-! ### Points by x-coordinate and parity -/

/-- The parity of a number is turned over by negation, since the modulus is odd. -/
theorem val_neg_mod_two {y : Coordinate} (hy : y ≠ 0) : (-y).val % 2 ≠ y.val % 2 := by
  have hlt := ZMod.val_lt y
  have hodd := Modulus.coordinate.odd
  have hneg := ZMod.neg_val y
  rw [if_neg hy] at hneg
  simp only [Modulus.toNat] at *
  omega

/-- What a compressed form keeps of a point: x, and whether y is odd. -/
def compressed : CurvePoint → Option (Coordinate × Bool)
  | .zero => none
  | .some x y _ => some (x, decide (y.val % 2 = 1))

/-- Two roots of one number with the same parity are equal. -/
theorem eq_of_sq_eq_of_parity {y y' : Coordinate} (hsq : y ^ 2 = y' ^ 2) (hy : y ≠ 0)
    (hparity : decide (y.val % 2 = 1) = decide (y'.val % 2 = 1)) : y = y' := by
  rcases sq_eq_sq_iff_eq_or_eq_neg.1 hsq with h | h
  · exact h
  · -- The opposite root has the other parity.
    exfalso
    have hne := val_neg_mod_two hy
    rw [h, neg_neg] at hne
    rw [decide_eq_decide, h] at hparity
    omega

/-- **Compression loses nothing.** -/
theorem compressed_injective : Function.Injective compressed := by
  intro g g' h
  rcases g with _ | ⟨x, y, hxy⟩ <;> rcases g' with _ | ⟨x', y', hxy'⟩
  · rfl
  · simp [compressed] at h
  · simp [compressed] at h
  · simp only [compressed, Option.some.injEq, Prod.mk.injEq] at h
    obtain ⟨rfl, hparity⟩ := h
    rw [nonsingular_iff_sq_eq] at hxy hxy'
    obtain rfl := eq_of_sq_eq_of_parity (hxy.trans hxy'.symm) (y_ne_zero hxy) hparity
    rfl

instance : Finite CurvePoint := Finite.of_injective _ compressed_injective

/-- There are at most two points for each x-coordinate, and the identity. -/
theorem card_curvePoint_le : Nat.card CurvePoint ≤ 2 * Modulus.coordinate.toNat + 1 := by
  calc Nat.card CurvePoint
      ≤ Nat.card (Option (Coordinate × Bool)) :=
        Nat.card_le_card_of_injective _ compressed_injective
    _ = 2 * Modulus.coordinate.toNat + 1 := by
        rw [Finite.card_option, Nat.card_prod, Nat.card_zmod, Nat.card_eq_fintype_card,
          Fintype.card_bool, mul_comm]

end CurveSign
