import CurveSign.Proofs.Point.Multiple
import CurveSign.Proofs.Point.Representation

namespace CurveSign

/-!
# The group law on triples

For triples on the curve, and whatever triples they are, both additions and doubling compute the
chord-and-tangent law (`JacobianPoint.toAffine_add_addByCases_double`).  Compared by multiplying
across, triples satisfy the laws of an abelian group under either addition, and under any mixture of
the two (`JacobianPoint.sum_laws`).  Multiplication by scalars is an action of the integers modulo
`n`, and takes no point but the identity to the identity except by zero
(`JacobianPoint.multiply_action`).  The combination with shared doublings is the sum of the two
multiples (`JacobianPoint.combine_eq_add_multiples`).
-/

namespace JacobianPoint

/-- A triple with its affine point on the curve, for a known point of the group. -/
theorem Stands.toAffine_eq {p : JacobianPoint} {g g' : CurvePoint} (h : p.Stands g) (hg : g = g') :
    p.toAffine.OnCurve ∧ p.toAffine.toGroup = g' := by
  rw [← hg]
  exact h.toAffine

/-! ### Complete addition -/

/-- **Addition is complete.** Both additions give the sum by chord and tangent, and doubling the sum
    of the point with itself: also for the identity in any of its triples, for one point in two
    different triples, and for opposite points. -/
theorem toAffine_add_addByCases_double (p q : JacobianPoint) (hp : p.OnCurve) (hq : q.OnCurve) :
    ((p + q).toAffine.OnCurve
      ∧ (p + q).toAffine.toGroup = p.toAffine.toGroup + q.toAffine.toGroup)
    ∧ ((p.addByCases q).toAffine.OnCurve
      ∧ (p.addByCases q).toAffine.toGroup = p.toAffine.toGroup + q.toAffine.toGroup)
    ∧ (p.double.toAffine.OnCurve
      ∧ p.double.toAffine.toGroup = p.toAffine.toGroup + p.toAffine.toGroup) := by
  have hp' := hp.stands
  have hq' := hq.stands
  exact ⟨(hp'.add hq').toAffine, (hp'.addByCases hq').toAffine, hp'.double.toAffine⟩

/-- The base point has other triples than its first. -/
theorem onCurve_rescale_generator {c : FieldElement} (hc : c ≠ 0) :
    (rescale c generator).OnCurve ∧ (rescale c generator).toAffine.toGroup = basePoint := by
  have h := stands_generator.rescale hc
  exact ⟨h.onCurve, h.toGroup_toAffine⟩

/-- The base point is added to itself in two different triples. -/
theorem toAffine_add_generator_rescaled :
    generator.OnCurve ∧ (rescale FieldElement.seven generator).OnCurve
    ∧ (generator + rescale FieldElement.seven generator).toAffine.toGroup
      = basePoint + basePoint := by
  have hcurve := stands_generator.onCurve
  obtain ⟨hcurve', hgroup'⟩ := onCurve_rescale_generator (c := FieldElement.seven) (by decide)
  have hsum := (toAffine_add_addByCases_double generator _ hcurve hcurve').1.2
  rw [stands_generator.toGroup_toAffine, hgroup'] at hsum
  exact ⟨hcurve, hcurve', hsum⟩

/-! ### The laws of a group -/

/-- One of the two additions. -/
inductive Addition
  | selecting
  | byCases

/-- The sum by the addition. -/
def Addition.sum (p q : JacobianPoint) : Addition → JacobianPoint
  | selecting => p + q
  | byCases => p.addByCases q

namespace Stands

variable {p q : JacobianPoint} {g g' : CurvePoint}

/-- Either addition adds. -/
theorem sum (hp : p.Stands g) (hq : q.Stands g') (a : Addition) : (a.sum p q).Stands (g + g') := by
  cases a with
  | selecting => exact hp.add hq
  | byCases => exact hp.addByCases hq

/-- Subtracting a triple subtracts its point. -/
theorem sub (hp : p.Stands g) (hq : q.Stands g') : (p - q).Stands (g - g') := by
  rw [sub_eq_add_neg]
  exact hp.add hq.neg

end Stands

/-- **The points form an abelian group** under the comparison of triples: each addition may be either
    of the two, and a point may be any of its triples.  Sums stay on the curve, and equal points have
    equal sums. -/
theorem sum_laws (p q r : JacobianPoint) (hp : p.OnCurve) (hq : q.OnCurve) (hr : r.OnCurve)
    (a b c d : Addition) :
    (b.sum (a.sum p q) r).beq (d.sum p (c.sum q r)) = true
    ∧ (a.sum p q).beq (b.sum q p) = true
    ∧ (a.sum p identity).beq p = true
    ∧ (a.sum p (-p)).beq identity = true
    ∧ ((p - q).beq r = true ↔ p.beq (a.sum r q) = true)
    ∧ p.double.beq (a.sum p p) = true
    ∧ (a.sum p q).OnCurve
    ∧ (p.beq q = true → (a.sum p r).beq (b.sum q r) = true) := by
  have hp' := hp.stands
  have hq' := hq.stands
  have hr' := hr.stands
  refine ⟨?_, ?_, ?_, ?_, ?_, ?_, (hp'.sum hq' a).onCurve, ?_⟩
  · -- Each law is read off the group, since triples compare equal when they stand for one element.
    rw [((hp'.sum hq' a).sum hr' b).beq_iff (hp'.sum (hq'.sum hr' c) d), add_assoc]
  · rw [(hp'.sum hq' a).beq_iff (hq'.sum hp' b), add_comm]
  · rw [(hp'.sum stands_identity a).beq_iff hp', add_zero]
  · rw [(hp'.sum hp'.neg a).beq_iff stands_identity, add_neg_cancel]
  · rw [(hp'.sub hq').beq_iff hr', hp'.beq_iff (hr'.sum hq' a), sub_eq_iff_eq_add]
  · rw [hp'.double.beq_iff (hp'.sum hp' a)]
  · intro h
    rw [(hp'.sum hr' a).beq_iff (hq'.sum hr' b), (hp'.beq_iff hq').1 h]

/-- The base point, itself in another triple, and its opposite: the inner sums are a double on one side
    and the identity on the other. -/
theorem sum_laws_generator :
    generator.OnCurve ∧ (rescale FieldElement.seven generator).OnCurve ∧ (-generator).OnCurve
    ∧ ((generator + rescale FieldElement.seven generator).addByCases (-generator)).beq
      (generator.addByCases (rescale FieldElement.seven generator + -generator)) = true
    ∧ generator.beq (rescale FieldElement.seven generator) = true
    ∧ (generator + -generator).beq
      ((rescale FieldElement.seven generator).addByCases (-generator)) = true := by
  have hcurve := stands_generator.onCurve
  have hrescaled := stands_generator.rescale (c := FieldElement.seven) (by decide)
  have hneg := stands_generator.neg.onCurve
  have hequal := (stands_generator.beq_iff hrescaled).2 rfl
  obtain ⟨hassoc, _, _, _, _, _, _, hcongr⟩ :=
    sum_laws _ _ _ hcurve hrescaled.onCurve hneg .selecting .byCases .selecting .byCases
  exact ⟨hcurve, hrescaled.onCurve, hneg, hassoc, hequal, hcongr hequal⟩

/-! ### Multiples -/

/-- **Scalars act on the points**: sums and products of scalars modulo `n`, and `n - 1` as minus one.
    A multiple of a point other than the identity is the identity for the scalar zero only. -/
theorem multiply_action (p : JacobianPoint) (hp : p.OnCurve) (a b : Scalar) :
    ((a + b).toNat = (a.toNat + b.toNat) % Modulus.order.toNat
      ∧ (p.multiply (a + b)).beq (p.multiply a + p.multiply b) = true)
    ∧ ((a * b).toNat = a.toNat * b.toNat % Modulus.order.toNat
      ∧ ((p.multiply a).multiply b).beq (p.multiply (a * b)) = true)
    ∧ ((-1 : Scalar).toNat = Modulus.order.toNat - 1 ∧ (p.multiply (-1)).beq (-p) = true)
    ∧ (p.isIdentity = false → ((p.multiply a).isIdentity = true ↔ a = 0)) := by
  have h := hp.stands
  refine ⟨⟨Residue.toNat_add a b, ?_⟩, ⟨Residue.toNat_mul a b, ?_⟩, ⟨by decide, ?_⟩, ?_⟩
  · rw [(h.multiply _).beq_iff ((h.multiply a).add (h.multiply b)), Residue.toZMod_add, add_smul]
  · rw [((h.multiply a).multiply b).beq_iff (h.multiply _), Residue.toZMod_mul, smul_smul, mul_comm]
  · rw [(h.multiply _).beq_iff h.neg, Residue.toZMod_neg, Residue.toZMod_one, neg_smul, one_smul]
  · intro hid
    -- The order is prime, so a multiple of a non-zero element is zero for the zero scalar only.
    have hne : p.toAffine.toGroup ≠ 0 := by
      intro hzero
      rw [h.isIdentity_iff.2 hzero] at hid
      exact absurd hid nofun
    rw [(h.multiply a).isIdentity_iff, smul_eq_zero_iff' hne, Residue.toZMod_eq_zero_iff]

/-- The base point and its opposite cancel, as do the scalars one and `n - 1`. -/
theorem multiply_action_generator :
    generator.OnCurve ∧ generator.isIdentity = false
    ∧ (generator.multiply (1 + -1)).beq (generator.multiply 1 + generator.multiply (-1)) = true
    ∧ (generator.multiply (-1)).isIdentity = false := by
  have hcurve := stands_generator.onCurve
  have hid : generator.isIdentity = false := by decide
  obtain ⟨⟨_, hsum⟩, _, _, _⟩ := multiply_action generator hcurve 1 (-1)
  obtain ⟨_, _, _, hzero⟩ := multiply_action generator hcurve (-1) 1
  have hne : ¬ (generator.multiply (-1)).isIdentity = true := mt (hzero hid).1 (by decide)
  exact ⟨hcurve, hid, hsum, eq_false_of_ne_true hne⟩

/-! ### Combinations -/

/-- **The combination is the sum of the multiples**, in the group and as the other engine computes
    it. -/
theorem combine_eq_add_multiples (u v : Scalar) (q : JacobianPoint) (hq : q.OnCurve) :
    ((combine u v q).toAffine.OnCurve
      ∧ (combine u v q).toAffine.toGroup = u.toNat • basePoint + v.toNat • q.toAffine.toGroup)
    ∧ (combine u v q).beq (multiplyBase u + q.multiply v) = true := by
  have h := hq.stands
  have hcombine := h.combine u v
  refine ⟨hcombine.toAffine_eq ?_, ?_⟩
  · rw [← Residue.val_toZMod u, ← Residue.val_toZMod v, val_nsmul, val_nsmul]
  · rw [hcombine.beq_iff ((stands_multiplyBase u).add (h.multiply v))]

/-- The base point and its opposite cancel: the running sum meets the opposite of a table's entry. -/
theorem combine_generator_neg :
    (-generator).OnCurve ∧ (combine 1 1 (-generator)).toAffine = .identity := by
  have hneg := stands_generator.neg
  obtain ⟨⟨hcurve, hgroup⟩, _⟩ := combine_eq_add_multiples 1 1 (-generator) hneg.onCurve
  rw [hneg.toGroup_toAffine, Residue.toNat_one, one_nsmul, one_nsmul, add_neg_cancel] at hgroup
  exact ⟨hneg.onCurve, (AffinePoint.toGroup_eq_zero_iff hcurve).1 hgroup⟩

end JacobianPoint

end CurveSign
