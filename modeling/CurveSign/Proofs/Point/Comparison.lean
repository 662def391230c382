import CurveSign.Proofs.Point.Representation

namespace CurveSign

/-!
# Comparing points without inversions

Triples are compared by multiplying across, told from the identity by their last coordinate, and asked for
an x-coordinate, all without an inversion; `toAffine` makes one.  Both ways give the same answers
(`JacobianPoint.comparison_exact`).  Apart from the triples of the identity, which all compare equal, the
triples of a point are the multiples of each other (`JacobianPoint.beq_iff_rescale`).
-/

namespace JacobianPoint

variable {p q : JacobianPoint}

/-! ### Affine points as triples -/

/-- The triple of an affine point has the coordinates of the point over the denominator one. -/
theorem toAffine_ofAffine (a : AffinePoint) : (ofAffine a).toAffine = a := by
  rcases a with _ | ⟨x, y⟩
  · exact toAffine_of_z_eq_zero Residue.toZMod_zero
  · have hone : (ofAffine (.finite x y)).z.toZMod = 1 := Residue.toZMod_one
    have hz : (ofAffine (.finite x y)).z.toZMod ≠ 0 := by
      rw [hone]
      exact one_ne_zero
    obtain ⟨x', y', haffine, hx, hy⟩ := toAffine_of_z_ne_zero hz
    -- With z = 1 the division by its powers changes nothing.
    rw [hone, one_pow, mul_one] at hx hy
    obtain rfl : x = x' := Residue.toZMod_inj.1 hx
    obtain rfl : y = y' := Residue.toZMod_inj.1 hy
    exact haffine

theorem beq_ofAffine_toAffine (p : JacobianPoint) : (ofAffine p.toAffine).beq p = true := by
  rw [beq_iff, toAffine_ofAffine]

/-! ### Triples of one point -/

/-- A factor of the coordinate and of its denominator cancels. -/
theorem eq_of_mul_pow {x x' : FieldElement} {u z c : Coordinate} {k : ℕ} (hz : z ≠ 0) (hc : c ≠ 0)
    (h : u = x.toZMod * z ^ k) (h' : u * c ^ k = x'.toZMod * (z * c) ^ k) : x' = x := by
  apply Residue.toZMod_inj.1
  apply mul_right_cancel₀ (pow_ne_zero k (mul_ne_zero hz hc))
  rw [← h', h, mul_pow, mul_assoc]

/-- Multiplying through by a factor keeps the affine point. -/
theorem toAffine_rescale (p : JacobianPoint) {c : FieldElement} (hc : c ≠ 0) :
    (rescale c p).toAffine = p.toAffine := by
  have hc' : c.toZMod ≠ 0 := mt Residue.toZMod_eq_zero_iff.1 hc
  have hscaled : (rescale c p).z.toZMod = p.z.toZMod * c.toZMod := Residue.toZMod_mul _ _
  by_cases hz : p.z.toZMod = 0
  · -- A triple of the identity stays one, whatever its other coordinates are.
    rw [hz, zero_mul] at hscaled
    rw [toAffine_of_z_eq_zero hz, toAffine_of_z_eq_zero hscaled]
  · have hz' : (rescale c p).z.toZMod ≠ 0 := by
      rw [hscaled]
      exact mul_ne_zero hz hc'
    obtain ⟨x, y, haffine, hx, hy⟩ := toAffine_of_z_ne_zero hz
    obtain ⟨x', y', haffine', hx', hy'⟩ := toAffine_of_z_ne_zero hz'
    have hx'' : p.x.toZMod * c.toZMod ^ 2 = x'.toZMod * (p.z.toZMod * c.toZMod) ^ 2 := by
      rw [← hscaled, ← hx']
      simp [rescale]
    have hy'' : p.y.toZMod * c.toZMod ^ 3 = y'.toZMod * (p.z.toZMod * c.toZMod) ^ 3 := by
      rw [← hscaled, ← hy']
      simp only [rescale, Residue.toZMod_mul, Residue.toZMod_square]
      ring
    rw [haffine, haffine', eq_of_mul_pow hz hc' hx hx'', eq_of_mul_pow hz hc' hy hy'']

/-- **Triples of one affine point** are multiples of each other, with the quotient of the denominators. -/
theorem exists_eq_rescale (hz : p.z.toZMod ≠ 0) (hz' : q.z.toZMod ≠ 0)
    (h : p.toAffine = q.toAffine) : ∃ c, c ≠ 0 ∧ q = rescale c p := by
  obtain ⟨x, y, haffine, hx, hy⟩ := toAffine_of_z_ne_zero hz
  obtain ⟨x', y', haffine', hx', hy'⟩ := toAffine_of_z_ne_zero hz'
  rw [haffine, haffine', AffinePoint.finite.injEq] at h
  obtain ⟨rfl, rfl⟩ := h
  -- The quotient of the two z-coordinates is the only factor possible.
  obtain ⟨c, hc⟩ := Residue.exists_toZMod_eq (p.z.toZMod⁻¹ * q.z.toZMod)
  have hscaled : q.z.toZMod = p.z.toZMod * c.toZMod := by
    rw [hc, mul_inv_cancel_left₀ hz]
  refine ⟨c, ?_, ?_⟩
  · rintro rfl
    rw [Residue.toZMod_zero, mul_zero] at hscaled
    exact hz' hscaled
  · have hsameX : q.x = p.x * c.square := by
      rw [← Residue.toZMod_inj, Residue.toZMod_mul, Residue.toZMod_square, hx, hx', hscaled]
      ring
    have hsameY : q.y = p.y * c.square * c := by
      rw [← Residue.toZMod_inj, Residue.toZMod_mul, Residue.toZMod_mul, Residue.toZMod_square, hy,
        hy', hscaled]
      ring
    have hsameZ : q.z = p.z * c := by
      rw [← Residue.toZMod_inj, Residue.toZMod_mul, hscaled]
    rw [rescale, ← hsameX, ← hsameY, ← hsameZ]

/-- **Equal triples** are two of the identity, or one is the other multiplied through by a factor. -/
theorem beq_iff_rescale : p.beq q = true
    ↔ (p.isIdentity = true ∧ q.isIdentity = true) ∨ ∃ c, c ≠ 0 ∧ q = rescale c p := by
  rw [beq_iff]
  constructor
  · intro h
    -- A triple with z = 0 is rescaled to no other, so identities are a case of their own.
    by_cases hz : p.z.toZMod = 0
    · have hid := toAffine_of_z_eq_zero hz
      exact .inl ⟨isIdentity_iff.2 hid, isIdentity_iff.2 (h.symm.trans hid)⟩
    · have hz' : q.z.toZMod ≠ 0 := by
        intro hzero
        have hid := h.trans (toAffine_of_z_eq_zero hzero)
        exact hz (Residue.isZero_iff_toZMod.1 (isIdentity_iff.2 hid))
      exact .inr (exists_eq_rescale hz hz' h)
  · rintro (⟨hid, hid'⟩ | ⟨c, hc, rfl⟩)
    · rw [isIdentity_iff.1 hid, isIdentity_iff.1 hid']
    · exact (toAffine_rescale p hc).symm

/-! ### The comparisons -/

/-- **Comparing triples is comparing points**, of whatever triples: for equality, which holds between the
    triples of the identity and otherwise between the multiples of one triple, for the identity, and for
    a given x-coordinate.  Converting to affine coordinates and back gives an equal triple, and the
    other way round the same affine point. -/
theorem comparison_exact (p q : JacobianPoint) (x : FieldElement) (a : AffinePoint) :
    (p.beq q = true ↔ p.toAffine = q.toAffine)
    ∧ (p.beq q = true
      ↔ (p.isIdentity = true ∧ q.isIdentity = true) ∨ ∃ c, c ≠ 0 ∧ q = rescale c p)
    ∧ (p.isIdentity = true ↔ p.toAffine = .identity)
    ∧ (p.hasX x = true ↔ p.toAffine ≠ .identity ∧ p.toAffine.x = x)
    ∧ (ofAffine p.toAffine).beq p = true
    ∧ (ofAffine a).toAffine = a :=
  ⟨beq_iff, beq_iff_rescale, isIdentity_iff, hasX_iff, beq_ofAffine_toAffine p, toAffine_ofAffine a⟩

/-- The products with a triple of the identity vanish, but it is equal to no other point. -/
example : JacobianPoint.beq ⟨FieldElement.seven, FieldElement.seven, 0⟩ generator = false := by
  decide +kernel

end JacobianPoint

end CurveSign
