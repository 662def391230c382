import CurveSign.Proofs.Point.GroupLaw

namespace CurveSign

/-!
# Multiples by selection from a table

A table of the first eight multiples serves the digits up to 8 in size and no others.  Written with a
test in front of each selection, multiplication is a run that can stop in the middle (`multiply?`).  No
digit of a scalar stops it (`multiply?_eq_some`), whatever the triple, and for a triple on the curve it
ends in the multiple in the group (`multiply_exact`).
-/

namespace JacobianPoint

/-! ### Selections with a test -/

/-- The multiple by the digit, unless the digit lies outside `[-8, 8]`. -/
def selectMultiple? (table : List JacobianPoint) (digit : ℤ) : Option JacobianPoint :=
  if -8 ≤ digit ∧ digit ≤ 8 then some (selectMultiple table digit) else none

/-- One step of base 16, with the test. -/
def radix16Step? (table : List JacobianPoint) (digit : ℤ) (sum : JacobianPoint) :
    Option JacobianPoint := do
  let multiple ← selectMultiple? table digit
  return sum.double.double.double.double + multiple

/-- The multiple `k · p`, unless a digit outside `[-8, 8]` is met on the way. -/
def multiply? (p : JacobianPoint) (k : Scalar) : Option JacobianPoint := do
  let top ← selectMultiple? p.firstMultiples (k.radix16.getD 64 0)
  (k.radix16.take 64).foldrM (radix16Step? p.firstMultiples) top

variable {table : List JacobianPoint} {digit : ℤ}

theorem selectMultiple?_eq_some (hdigit : -8 ≤ digit ∧ digit ≤ 8) :
    selectMultiple? table digit = some (selectMultiple table digit) := if_pos hdigit

/-- A digit that the table serves does not stop a step. -/
theorem radix16Step?_eq_some (hdigit : -8 ≤ digit ∧ digit ≤ 8) (sum : JacobianPoint) :
    radix16Step? table digit sum = some (radix16Step table digit sum) := by
  rw [radix16Step?, selectMultiple?_eq_some hdigit]
  rfl

/-- **No digit of a scalar stops the multiplication.** -/
theorem multiply?_eq_some (p : JacobianPoint) (k : Scalar) :
    p.multiply? k = some (p.multiply k) := by
  have hbounds := k.mem_radix16_bounds
  rw [← k.take_radix16_append, List.forall_mem_append, List.forall_mem_singleton] at hbounds
  obtain ⟨hbelow, htop⟩ := hbounds
  have hsteps : ∀ digit ∈ k.radix16.take 64, ∀ sum, radix16Step? p.firstMultiples digit sum
      = some (radix16Step p.firstMultiples digit sum) :=
    fun digit hdigit => radix16Step?_eq_some (hbelow digit hdigit)
  rw [multiply?, selectMultiple?_eq_some htop, Option.bind_eq_bind, Option.bind_some,
    foldrM_eq_some hsteps, multiply]

/-! ### Multiples in the group -/

/-- **Multiplication by a scalar** is repeated addition in the group, of any triple for a point and of the
    base point, and every selection on the way is one that the table serves. -/
theorem multiply_exact :
    (∀ p : JacobianPoint, p.OnCurve → ∀ k : Scalar,
      (p.multiply k).OnCurve
      ∧ (p.multiply k).toAffine.toGroup = k.toNat • p.toAffine.toGroup)
    ∧ (∀ k : Scalar, (multiplyBase k).OnCurve
      ∧ (multiplyBase k).toAffine.toGroup = k.toNat • AffinePoint.generator.toGroup)
    ∧ ∀ (p : JacobianPoint) (k : Scalar),
      p.multiply? k = some (p.multiply k) ∧ ∀ digit ∈ k.radix16, -8 ≤ digit ∧ digit ≤ 8 := by
  refine ⟨?_, ?_, ?_⟩
  · intro p hp k
    have h := hp.stands.multiply k
    rw [Residue.toZMod, natCast_smul] at h
    exact ⟨h.onCurve, h.toGroup_toAffine⟩
  · intro k
    have h := stands_multiplyBase k
    rw [Residue.toZMod, natCast_smul, ← toGroup_generator] at h
    exact ⟨h.onCurve, h.toGroup_toAffine⟩
  · intro p k
    exact ⟨multiply?_eq_some p k, k.mem_radix16_bounds⟩

/-- The largest scalar times the base point in another triple is the opposite of the base point, and times
    the identity in an unusual triple it is the identity. -/
theorem multiply_exact_largest :
    (rescale FieldElement.seven generator).OnCurve
    ∧ ((rescale FieldElement.seven generator).multiply (-1)).toAffine = -AffinePoint.generator
    ∧ OnCurve ⟨FieldElement.seven, FieldElement.seven, 0⟩
    ∧ (multiply ⟨FieldElement.seven, FieldElement.seven, 0⟩ (-1)).toAffine = .identity := by
  obtain ⟨hcurve, hgroup⟩ := onCurve_rescale_generator (c := FieldElement.seven) (by decide)
  have hid : OnCurve ⟨FieldElement.seven, FieldElement.seven, 0⟩ := .identity Residue.toZMod_zero
  have hidentity : toAffine ⟨FieldElement.seven, FieldElement.seven, 0⟩ = .identity :=
    toAffine_of_z_eq_zero Residue.toZMod_zero
  obtain ⟨hmultiple, hvalue⟩ := multiply_exact.1 _ hcurve (-1)
  obtain ⟨hmultiple', hvalue'⟩ := multiply_exact.1 _ hid (-1)
  refine ⟨hcurve, ?_, hid, ?_⟩
  · have hneg := onCurve_generator.neg
    -- The multiple by n - 1 is the opposite, since the order annihilates the group.
    rw [hgroup, ← Residue.val_toZMod, val_nsmul, Residue.toZMod_neg, Residue.toZMod_one, neg_smul,
      one_smul, ← toGroup_generator, ← AffinePoint.toGroup_neg onCurve_generator] at hvalue
    exact (AffinePoint.toGroup_inj hmultiple.stands.onCurve_toAffine hneg).1 hvalue
  · rw [hidentity, AffinePoint.toGroup, nsmul_zero] at hvalue'
    exact (AffinePoint.toGroup_eq_zero_iff hmultiple'.stands.onCurve_toAffine).1 hvalue'

end JacobianPoint

end CurveSign
