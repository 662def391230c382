import CurveSign.Proofs.Curve.Triple
import CurveSign.Proofs.Residue.Power
import CurveSign.Point.Jacobian

namespace CurveSign

/-!
# What points stand for

An affine point that is the identity or satisfies the equation (`AffinePoint.OnCurve`) is a point of
the curve's group (`AffinePoint.toGroup`), and different affine points are different there
(`AffinePoint.toGroup_inj`).  A triple of field elements stands for a point of the group as its
residues do (`JacobianPoint.Stands`), and inverting the last coordinate finds that point
(`JacobianPoint.Stands.toGroup_toAffine`).
-/

open WeierstrassCurve.Affine

/-! ### Affine points -/

namespace AffinePoint

/-- The point is the identity, or its coordinates satisfy `y² = x³ + 7` modulo `p`. -/
inductive OnCurve : AffinePoint → Prop
  | identity : OnCurve identity
  | finite {x y : FieldElement} (h : y.toZMod ^ 2 = x.toZMod ^ 3 + 7) : OnCurve (finite x y)

/-- Coordinates are on the curve if they satisfy the equation. -/
theorem onCurve_finite_iff {x y : FieldElement} :
    (finite x y).OnCurve ↔ y.toZMod ^ 2 = x.toZMod ^ 3 + 7 := by
  refine ⟨fun h => ?_, OnCurve.finite⟩
  cases h with
  | finite h => exact h

/-- The point of the group with the given coordinates; the identity for a pair off the curve. -/
def toGroup : AffinePoint → CurvePoint
  | identity => 0
  | finite x y =>
    if h : y.toZMod ^ 2 = x.toZMod ^ 3 + 7 then
      .some x.toZMod y.toZMod (nonsingular_iff_sq_eq.2 h)
    else 0

/-- A point of the curve is the point of the group with its coordinates. -/
theorem toGroup_finite {x y : FieldElement} (h : (finite x y).OnCurve) :
    (finite x y).toGroup
      = .some x.toZMod y.toZMod (nonsingular_iff_sq_eq.2 (onCurve_finite_iff.1 h)) :=
  dif_pos (onCurve_finite_iff.1 h)

/-- Only the identity is zero in the group. -/
theorem toGroup_eq_zero_iff {q : AffinePoint} (h : q.OnCurve) : q.toGroup = 0 ↔ q = identity := by
  rcases q with _ | ⟨x, y⟩
  · exact ⟨fun _ => rfl, fun _ => rfl⟩
  · rw [toGroup_finite h]
    exact ⟨fun hg => absurd hg (Point.some_ne_zero _), fun hq => nomatch hq⟩

/-- Affine points of the curve are told apart by the points of the group. -/
theorem toGroup_inj {q q' : AffinePoint} (h : q.OnCurve) (h' : q'.OnCurve) :
    q.toGroup = q'.toGroup ↔ q = q' := by
  refine ⟨fun heq => ?_, congrArg toGroup⟩
  rcases q with _ | ⟨x, y⟩
  · exact ((toGroup_eq_zero_iff h').1 heq.symm).symm
  rcases q' with _ | ⟨x', y'⟩
  · exact (toGroup_eq_zero_iff h).1 heq
  · rw [toGroup_finite h, toGroup_finite h', Point.some.injEq] at heq
    obtain rfl := Residue.toZMod_inj.1 heq.1
    obtain rfl := Residue.toZMod_inj.1 heq.2
    rfl

/-- The opposite of a point of the curve lies on the curve. -/
theorem OnCurve.neg {q : AffinePoint} (h : q.OnCurve) : (-q).OnCurve := by
  rcases q with _ | ⟨x, y⟩
  · exact .identity
  · refine .finite ?_
    rw [Residue.toZMod_neg, neg_sq]
    exact onCurve_finite_iff.1 h

/-- The opposite point is the opposite in the group. -/
theorem toGroup_neg {q : AffinePoint} (h : q.OnCurve) : (-q).toGroup = -q.toGroup := by
  rcases q with _ | ⟨x, y⟩
  · rfl
  · have hneg : (finite x (-y)).OnCurve := h.neg
    show (finite x (-y)).toGroup = _
    rw [toGroup_finite hneg, toGroup_finite h, neg_some_eq, Point.some.injEq]
    exact ⟨rfl, Residue.toZMod_neg y⟩

/-- Only the identity is the opposite of the identity. -/
@[simp] theorem neg_eq_identity_iff {q : AffinePoint} : -q = identity ↔ q = identity := by
  rcases q with _ | ⟨x, y⟩
  · exact ⟨fun _ => rfl, fun _ => rfl⟩
  · exact ⟨nofun, nofun⟩

@[simp] theorem x_neg (q : AffinePoint) : (-q).x = q.x := by
  cases q <;> rfl

/-- Every point of the group has affine coordinates. -/
theorem exists_toGroup_eq (g : CurvePoint) : ∃ q : AffinePoint, q.OnCurve ∧ q.toGroup = g := by
  rcases g with _ | ⟨x, y, hxy⟩
  · exact ⟨identity, .identity, rfl⟩
  · obtain ⟨x', rfl⟩ := Residue.exists_toZMod_eq x
    obtain ⟨y', rfl⟩ := Residue.exists_toZMod_eq y
    have hcurve := OnCurve.finite (nonsingular_iff_sq_eq.1 hxy)
    exact ⟨finite x' y', hcurve, toGroup_finite hcurve⟩

end AffinePoint

/-! ### Triples -/

namespace JacobianPoint

/-- The residues of a triple. -/
def toTriple (p : JacobianPoint) : Triple := ⟨p.x.toZMod, p.y.toZMod, p.z.toZMod⟩

/-- The triple stands for the point of the group. -/
structure Stands (p : JacobianPoint) (g : CurvePoint) : Prop where
  toTriple : p.toTriple.Stands g

/-- A triple with nothing to invert is converted to the identity. -/
theorem toAffine_of_z_eq_zero {p : JacobianPoint} (hz : p.z.toZMod = 0) :
    p.toAffine = .identity := by
  simp only [toAffine, FieldElement.invert?_eq_none hz]

/-- The coordinates are the quotients by the square and the cube of `z`. -/
theorem toAffine_of_z_ne_zero {p : JacobianPoint} (hz : p.z.toZMod ≠ 0) :
    ∃ x y, p.toAffine = .finite x y ∧ p.x.toZMod = x.toZMod * p.z.toZMod ^ 2 ∧
      p.y.toZMod = y.toZMod * p.z.toZMod ^ 3 := by
  obtain ⟨i, hi, hval⟩ := FieldElement.invert?_eq_some hz
  refine ⟨p.x * i.square, p.y * i.square * i, ?_, ?_, ?_⟩
  · simp only [toAffine, hi]
  · simp only [Residue.toZMod_mul, Residue.toZMod_square, hval]
    field_simp
  · simp only [Residue.toZMod_mul, Residue.toZMod_square, hval]
    field_simp

/-- A triple stands for the identity if it is converted to it. -/
theorem isIdentity_iff {p : JacobianPoint} : p.isIdentity = true ↔ p.toAffine = .identity := by
  rw [isIdentity, Residue.isZero_iff_toZMod]
  refine ⟨toAffine_of_z_eq_zero, fun h => ?_⟩
  by_contra hz
  obtain ⟨x, y, hxy, _⟩ := toAffine_of_z_ne_zero hz
  exact AffinePoint.noConfusion (h.symm.trans hxy)

/-- Comparing `x · z²` with the first of the triple is comparing x-coordinates. -/
theorem hasX_iff {p : JacobianPoint} {x : FieldElement} :
    p.hasX x = true ↔ p.toAffine ≠ .identity ∧ p.toAffine.x = x := by
  by_cases hz : p.z.toZMod = 0
  · have hid := toAffine_of_z_eq_zero hz
    simp [hasX, isIdentity_iff.2 hid, hid]
  · obtain ⟨x', y', hxy, hx, _⟩ := toAffine_of_z_ne_zero hz
    have hid : p.isIdentity = false := Residue.isZero_eq_false_iff.2 hz
    rw [hasX, hid, if_neg Bool.false_ne_true, Residue.beq_iff_toZMod, Residue.toZMod_mul,
      Residue.toZMod_square, hx, mul_left_inj' (pow_ne_zero 2 hz), Residue.toZMod_inj, hxy]
    exact ⟨fun h => ⟨nofun, h.symm⟩, fun h => h.2.symm⟩

namespace Stands

variable {p : JacobianPoint} {g : CurvePoint}

/-- A triple is told to be of the identity by its last coordinate. -/
theorem isIdentity_iff (h : p.Stands g) : p.isIdentity = true ↔ g = 0 := by
  rw [JacobianPoint.isIdentity, Residue.isZero_iff_toZMod]
  exact h.toTriple.z_eq_zero_iff

/-- **Converting to coordinates** finds the point of the curve that the triple stands for. -/
theorem toAffine (h : p.Stands g) : p.toAffine.OnCurve ∧ p.toAffine.toGroup = g := by
  rcases g with _ | ⟨x, y, hxy⟩
  · rw [toAffine_of_z_eq_zero h.toTriple]
    exact ⟨.identity, rfl⟩
  · obtain ⟨hz, hx, hy⟩ := h.toTriple
    obtain ⟨x', y', heq, hx', hy'⟩ := toAffine_of_z_ne_zero hz
    obtain rfl := mul_right_cancel₀ (pow_ne_zero 2 hz) (hx'.symm.trans hx)
    obtain rfl := mul_right_cancel₀ (pow_ne_zero 3 hz) (hy'.symm.trans hy)
    have hcurve := AffinePoint.OnCurve.finite (nonsingular_iff_sq_eq.1 hxy)
    rw [heq]
    exact ⟨hcurve, AffinePoint.toGroup_finite hcurve⟩

theorem onCurve_toAffine (h : p.Stands g) : p.toAffine.OnCurve := h.toAffine.1

/-- Converting to coordinates keeps the point. -/
theorem toGroup_toAffine (h : p.Stands g) : p.toAffine.toGroup = g := h.toAffine.2

/-- Triples of opposite points have opposite coordinates. -/
theorem toAffine_eq_neg {q : JacobianPoint} (h : p.Stands g) (h' : q.Stands (-g)) :
    q.toAffine = -p.toAffine := by
  have hcurve := h.onCurve_toAffine
  rw [← AffinePoint.toGroup_inj h'.onCurve_toAffine hcurve.neg, AffinePoint.toGroup_neg hcurve,
    h'.toGroup_toAffine, h.toGroup_toAffine]

end Stands

theorem stands_identity : identity.Stands 0 := ⟨Residue.toZMod_zero⟩

/-- The triple of an affine point stands for it. -/
theorem stands_ofAffine {q : AffinePoint} (h : q.OnCurve) : (ofAffine q).Stands q.toGroup := by
  rcases q with _ | ⟨x, y⟩
  · exact stands_identity
  · rw [AffinePoint.toGroup_finite h]
    refine ⟨?_, ?_, ?_⟩ <;> simp [ofAffine, JacobianPoint.toTriple]

end JacobianPoint

end CurveSign
