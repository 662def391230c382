import CurveSign.Proofs.Point.Value

namespace CurveSign

/-!
# Adding points

The residues of a double, an opposite and a raw sum are the double, the opposite and the formula's
sum of the residues.  Both additions are complete (`Stands.add`, `Stands.addByCases`): the one that
looks first follows `Triple.sum`, and the one that selects differs from it for opposite points only,
where the formula itself gives a triple with `z = 0`.
-/

namespace JacobianPoint

@[simp] theorem toTriple_double (p : JacobianPoint) : p.double.toTriple = p.toTriple.double := by
  ext <;> simp [double, toTriple, Triple.double] <;> ring

/-- The opposite triple, in the field. -/
@[simp] theorem toTriple_neg (p : JacobianPoint) : (-p).toTriple = p.toTriple.neg := by
  show (JacobianPoint.neg p).toTriple = _
  ext <;> simp [JacobianPoint.neg, toTriple, Triple.neg]

@[simp] theorem toTriple_identity : identity.toTriple = ⟨0, 1, 0⟩ := by
  simp [identity, toTriple]

/-! ### The formula -/

/-- The scaled difference of the first coordinates, in the field. -/
theorem toZMod_xDifference (p q : JacobianPoint) :
    (addRaw p q).xDifference.toZMod = p.toTriple.xDifference q.toTriple := by
  simp [addRaw, toTriple, Triple.xDifference]

/-- The scaled difference of the second coordinates, in the field. -/
theorem toZMod_yDifference (p q : JacobianPoint) :
    (addRaw p q).yDifference.toZMod = p.toTriple.yDifference q.toTriple := by
  simp only [addRaw, toTriple, Triple.yDifference, Residue.toZMod_double, Residue.toZMod_sub,
    Residue.toZMod_mul, Residue.toZMod_square]
  ring

/-- The addition formula computes the formula over the field. -/
theorem toTriple_addRaw (p q : JacobianPoint) :
    (addRaw p q).sum.toTriple = p.toTriple.add q.toTriple := by
  ext <;>
    simp only [addRaw, toTriple, Triple.add, Triple.xDifference, Triple.yDifference,
      Residue.toZMod_double, Residue.toZMod_sub, Residue.toZMod_add, Residue.toZMod_mul,
      Residue.toZMod_square] <;>
    ring

/-- Looking first is the complete addition of residues. -/
theorem toTriple_addByCases (p q : JacobianPoint) :
    (p.addByCases q).toTriple = p.toTriple.sum q.toTriple := by
  simp only [addByCases, Triple.sum, isIdentity, Residue.isZero_iff_toZMod, toZMod_xDifference,
    toZMod_yDifference, apply_ite toTriple, toTriple_double, toTriple_identity, toTriple_addRaw]
  rfl

/-! ### Both additions -/

namespace Stands

variable {p q : JacobianPoint} {g g' : CurvePoint}

/-- The opposite triple stands for the opposite point. -/
theorem neg (h : p.Stands g) : (-p).Stands (-g) := by
  refine ⟨?_⟩
  rw [toTriple_neg]
  exact h.toTriple.neg

/-- Doubling a triple doubles its point. -/
theorem double (h : p.Stands g) : p.double.Stands (g + g) := by
  refine ⟨?_⟩
  rw [toTriple_double]
  exact h.toTriple.double

/-- The sum by cases stands for the sum, with no exception. -/
theorem addByCases (hp : p.Stands g) (hq : q.Stands g') : (p.addByCases q).Stands (g + g') := by
  refine ⟨?_⟩
  rw [toTriple_addByCases]
  exact hp.toTriple.sum hq.toTriple

/-- **The selecting addition is complete**, too. -/
theorem add (hp : p.Stands g) (hq : q.Stands g') : (p + q).Stands (g + g') := by
  show (JacobianPoint.add p q).Stands (g + g')
  unfold JacobianPoint.add
  dsimp only
  split_ifs with hid' hid hdiff
  · rwa [hq.isIdentity_iff.1 hid', add_zero]
  · rwa [hp.isIdentity_iff.1 hid, zero_add]
  -- Neither point is the identity from here on.
  all_goals
    have hg := mt hp.isIdentity_iff.2 hid
    have hg' := mt hq.isIdentity_iff.2 hid'
    rw [Bool.and_eq_true, Residue.isZero_iff_toZMod, Residue.isZero_iff_toZMod,
      toZMod_xDifference, toZMod_yDifference] at hdiff
  · rw [← hp.toTriple.eq_of_differences hq.toTriple hg hg' hdiff.1 hdiff.2]
    exact hp.double
  · refine ⟨?_⟩
    rw [toTriple_addRaw]
    by_cases hx : p.toTriple.xDifference q.toTriple = 0
    · -- The points are opposite, and the formula multiplies z by the difference.
      rw [hp.toTriple.add_eq_zero_of_differences hq.toTriple hg hg' hx fun hy => hdiff ⟨hx, hy⟩]
      show 2 * p.toTriple.z * q.toTriple.z * p.toTriple.xDifference q.toTriple = 0
      rw [hx, mul_zero]
    · exact hp.toTriple.add_of_xDifference_ne hq.toTriple hg hg' hx

end Stands

end JacobianPoint

end CurveSign
