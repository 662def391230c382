import CurveSign.Proofs.Point.Value
import Mathlib.Tactic.LinearCombination

namespace CurveSign

/-!
# Triples of one point

A triple is on the curve if its last coordinate is zero, or if its coordinates satisfy the equation
over the common denominator (`JacobianPoint.OnCurve`).  Those are the triples that stand for a point
(`JacobianPoint.OnCurve.stands`, `JacobianPoint.Stands.onCurve`), and multiplying through by a factor
gives another triple for the same point (`JacobianPoint.Stands.rescale`).  Comparing triples compares
the points, whatever the triples (`JacobianPoint.beq_iff`).
-/

namespace JacobianPoint

variable {p q : JacobianPoint} {g g' : CurvePoint}

/-- The triple stands for the identity, or its coordinates satisfy `y² = x³ + 7 · z⁶` modulo `p`. -/
inductive OnCurve (p : JacobianPoint) : Prop
  | identity (h : p.z.toZMod = 0) : OnCurve p
  | finite (h : p.y.toZMod ^ 2 = p.x.toZMod ^ 3 + 7 * p.z.toZMod ^ 6) : OnCurve p

/-- A triple that is not of the identity satisfies the equation. -/
theorem OnCurve.equation (h : p.OnCurve) (hz : p.z.toZMod ≠ 0) :
    p.y.toZMod ^ 2 = p.x.toZMod ^ 3 + 7 * p.z.toZMod ^ 6 := by
  cases h with
  | identity h => exact absurd h hz
  | finite h => exact h

/-- A triple on the curve stands for the point with its coordinates. -/
theorem OnCurve.stands (h : p.OnCurve) : p.Stands p.toAffine.toGroup := by
  by_cases hz : p.z.toZMod = 0
  · rw [toAffine_of_z_eq_zero hz]
    exact ⟨hz⟩
  · obtain ⟨x, y, hxy, hx, hy⟩ := toAffine_of_z_ne_zero hz
    have hequation := h.equation hz
    rw [hx, hy] at hequation
    have hcurve : y.toZMod ^ 2 = x.toZMod ^ 3 + 7 := by
      -- The equation of the triple is that of the affine point times the sixth power of z.
      apply mul_right_cancel₀ (pow_ne_zero 6 hz)
      linear_combination hequation
    rw [hxy, AffinePoint.toGroup_finite (.finite hcurve)]
    exact ⟨hz, hx, hy⟩

namespace Stands

/-- A triple that stands for a point is on the curve. -/
theorem onCurve (h : p.Stands g) : p.OnCurve := by
  rcases g with _ | ⟨x, y, hxy⟩
  · exact .identity h.toTriple
  · obtain ⟨_, hx, hy⟩ := h.toTriple
    change p.x.toZMod = x * p.z.toZMod ^ 2 at hx
    change p.y.toZMod = y * p.z.toZMod ^ 3 at hy
    refine .finite ?_
    rw [hx, hy]
    linear_combination p.z.toZMod ^ 6 * nonsingular_iff_sq_eq.1 hxy

end Stands

/-! ### Rescaling -/

/-- The triple for the same point with `z` multiplied by a factor. -/
def rescale (c : FieldElement) (p : JacobianPoint) : JacobianPoint :=
  ⟨p.x * c.square, p.y * c.square * c, p.z * c⟩

/-- Multiplying through by a factor other than zero keeps the point. -/
theorem Stands.rescale (h : p.Stands g) {c : FieldElement} (hc : c ≠ 0) :
    (rescale c p).Stands g := by
  have hc' : c.toZMod ≠ 0 := mt Residue.toZMod_eq_zero_iff.1 hc
  -- For the identity only z matters; otherwise x and y are scaled with the powers of z.
  rcases g with _ | ⟨x, y, hxy⟩
  · have hz : p.z.toZMod = 0 := h.toTriple
    refine ⟨?_⟩
    show (p.z * c).toZMod = 0
    rw [Residue.toZMod_mul, hz, zero_mul]
  · obtain ⟨hz, hx, hy⟩ := h.toTriple
    change p.x.toZMod = x * p.z.toZMod ^ 2 at hx
    change p.y.toZMod = y * p.z.toZMod ^ 3 at hy
    refine ⟨?_, ?_, ?_⟩
    · show (p.z * c).toZMod ≠ 0
      rw [Residue.toZMod_mul]
      exact mul_ne_zero hz hc'
    · show (p.x * c.square).toZMod = x * (p.z * c).toZMod ^ 2
      rw [Residue.toZMod_mul, Residue.toZMod_mul, Residue.toZMod_square, hx]
      ring
    · show (p.y * c.square * c).toZMod = y * (p.z * c).toZMod ^ 3
      rw [Residue.toZMod_mul, Residue.toZMod_mul, Residue.toZMod_mul, Residue.toZMod_square, hy]
      ring

/-! ### Comparing -/

/-- Two elements with a factor in common are compared by what it multiplies. -/
theorem beq_iff_of_mul {a b x x' : FieldElement} {s : Coordinate} (hs : s ≠ 0)
    (ha : a.toZMod = x.toZMod * s) (hb : b.toZMod = x'.toZMod * s) : (a == b) = true ↔ x = x' := by
  rw [Residue.beq_iff_toZMod, ha, hb, mul_left_inj' hs, Residue.toZMod_inj]

/-- **Comparing triples** by multiplying across compares the affine points. -/
theorem beq_iff : p.beq q = true ↔ p.toAffine = q.toAffine := by
  by_cases hz : p.z.toZMod = 0 <;> by_cases hz' : q.z.toZMod = 0
  · have hid := toAffine_of_z_eq_zero hz
    have hid' := toAffine_of_z_eq_zero hz'
    simp [JacobianPoint.beq, isIdentity_iff.2 hid, isIdentity_iff.2 hid', hid, hid']
  · obtain ⟨x', y', hq, _⟩ := toAffine_of_z_ne_zero hz'
    have hid : p.isIdentity = true := Residue.isZero_iff_toZMod.2 hz
    have hid' : q.isIdentity = false := Residue.isZero_eq_false_iff.2 hz'
    simp [JacobianPoint.beq, hid, hid', toAffine_of_z_eq_zero hz, hq]
  · obtain ⟨x, y, hp, _⟩ := toAffine_of_z_ne_zero hz
    have hid : p.isIdentity = false := Residue.isZero_eq_false_iff.2 hz
    have hid' : q.isIdentity = true := Residue.isZero_iff_toZMod.2 hz'
    simp [JacobianPoint.beq, hid, hid', toAffine_of_z_eq_zero hz', hp]
  · obtain ⟨x, y, hp, hx, hy⟩ := toAffine_of_z_ne_zero hz
    obtain ⟨x', y', hq, hx', hy'⟩ := toAffine_of_z_ne_zero hz'
    have hid : p.isIdentity = false := Residue.isZero_eq_false_iff.2 hz
    have hid' : q.isIdentity = false := Residue.isZero_eq_false_iff.2 hz'
    -- Multiplied across, the coordinates get the same power of both denominators.
    have hsameX : (p.x * q.z.square == q.x * p.z.square) = true ↔ x = x' := by
      apply beq_iff_of_mul (pow_ne_zero 2 (mul_ne_zero hz hz'))
      · rw [Residue.toZMod_mul, Residue.toZMod_square, hx]
        ring
      · rw [Residue.toZMod_mul, Residue.toZMod_square, hx']
        ring
    have hsameY : (p.y * q.z.square * q.z == q.y * p.z.square * p.z) = true ↔ y = y' := by
      apply beq_iff_of_mul (pow_ne_zero 3 (mul_ne_zero hz hz'))
      · rw [Residue.toZMod_mul, Residue.toZMod_mul, Residue.toZMod_square, hy]
        ring
      · rw [Residue.toZMod_mul, Residue.toZMod_mul, Residue.toZMod_square, hy']
        ring
    rw [JacobianPoint.beq, hp, hq, AffinePoint.finite.injEq, ← hsameX, ← hsameY]
    simp [hid, hid']

/-- Triples on the curve are equal if they stand for one point. -/
theorem Stands.beq_iff (h : p.Stands g) (h' : q.Stands g') : p.beq q = true ↔ g = g' := by
  rw [JacobianPoint.beq_iff, ← AffinePoint.toGroup_inj h.onCurve_toAffine h'.onCurve_toAffine,
    h.toGroup_toAffine, h'.toGroup_toAffine]

end JacobianPoint

end CurveSign
