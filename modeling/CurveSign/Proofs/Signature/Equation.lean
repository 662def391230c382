import CurveSign.Proofs.Scalar.Euclid
import CurveSign.Proofs.Signature.Coordinate

namespace CurveSign

/-!
# The signature equation

A signature `(r, s)` of the number `z` under the key `g` commits to the point
`s⁻¹ · z · G + s⁻¹ · r · g` (`Signature.noncePoint`).  It is valid with an id if both components are
not zero and the id names that point for `r` (`Signed.ValidFor`), and checking the equation under a
key on the curve, or the identity, tests exactly whether there is such an id
(`checkEquation_eq_ok_iff`).
-/

/-- The point that a signature of a message number under a key commits to, with both multiples taken
    of numbers modulo `n`. -/
def Signature.noncePoint (sig : Signature) (z : Word256) (g : CurvePoint) : CurvePoint :=
  (sig.s.toZMod⁻¹ * (z.toNat : ZMod Modulus.order.toNat)).val • basePoint
    + (sig.s.toZMod⁻¹ * sig.r.toZMod).val • g

/-- The signature is one of the message number under the key, and its id names the point. -/
structure Signed.ValidFor (signed : Signed) (z : Word256) (g : CurvePoint) : Prop where
  r_ne_zero : signed.signature.r ≠ 0
  s_ne_zero : signed.signature.s ≠ 0
  names : signed.id.Names signed.signature.r (signed.signature.noncePoint z g)

namespace Signature

/-- A component is zero. -/
theorem isZero_or_iff {sig : Signature} :
    (sig.r.isZero || sig.s.isZero) = true ↔ sig.r = 0 ∨ sig.s = 0 := by
  rw [Bool.or_eq_true, Residue.isZero_iff, Residue.isZero_iff]

/-- The point that a signature commits to, as a multiple of a sum. -/
theorem noncePoint_eq_smul (sig : Signature) (z : Word256) (g : CurvePoint) :
    sig.noncePoint z g
      = sig.s.toZMod⁻¹ • ((z.toNat : ZMod Modulus.order.toNat) • basePoint + sig.r.toZMod • g) := by
  rw [noncePoint, val_nsmul, val_nsmul, mul_smul, mul_smul, smul_add]

/-- With `-s` in place of `s` the signature commits to the opposite point. -/
theorem noncePoint_negateS (sig : Signature) (z : Word256) (g : CurvePoint) :
    sig.negateS.noncePoint z g = -sig.noncePoint z g := by
  rw [noncePoint_eq_smul, noncePoint_eq_smul, negateS, Residue.toZMod_neg, inv_neg, neg_smul]

/-- A point and a key that belong to one signature determine each other. -/
theorem noncePoint_eq_iff {sig : Signature} (hr : sig.r ≠ 0) (hs : sig.s ≠ 0) {z : Word256}
    {g point : CurvePoint} :
    sig.noncePoint z g = point
      ↔ g = sig.r.toZMod⁻¹ • (sig.s.toZMod • point
          - (z.toNat : ZMod Modulus.order.toNat) • basePoint) := by
  have hr' : sig.r.toZMod ≠ 0 := mt Residue.toZMod_eq_zero_iff.1 hr
  have hs' : sig.s.toZMod ≠ 0 := mt Residue.toZMod_eq_zero_iff.1 hs
  rw [noncePoint_eq_smul, inv_smul_eq_iff₀ hs', eq_inv_smul_iff₀ hr', eq_sub_iff_add_eq']

/-- A point other than the identity belongs to one `s`. -/
theorem noncePoint_s_inj {r s s' : Scalar} {z : Word256} {g : CurvePoint}
    (hne : noncePoint ⟨r, s⟩ z g ≠ 0) (h : noncePoint ⟨r, s'⟩ z g = noncePoint ⟨r, s⟩ z g) :
    s' = s := by
  rw [noncePoint_eq_smul] at hne
  rw [noncePoint_eq_smul, noncePoint_eq_smul] at h
  have hsum := right_ne_zero_of_smul hne
  have hinv := smul_left_injective _ hsum h
  exact Residue.toZMod_inj.1 (inv_inj.1 hinv)

end Signature

/-! ### Checking -/

/-- A zero in either component is refused as such. -/
theorem checkEquation_of_zero (q : AffinePoint) (z : Word256) {sig : Signature}
    (h : sig.r = 0 ∨ sig.s = 0) : checkEquation q z sig = .error .zeroComponent :=
  if_pos (Signature.isZero_or_iff.2 h)

/-- Checking ends in a comparison with a triple of the point that the signature commits to. -/
theorem exists_checkEquation_eq_checkX {q : AffinePoint} (hq : q.OnCurve) (z : Word256)
    {sig : Signature} (hr : sig.r ≠ 0) (hs : sig.s ≠ 0) :
    ∃ p : JacobianPoint, p.Stands (sig.noncePoint z q.toGroup)
      ∧ checkEquation q z sig = checkX p sig.r := by
  have hnonzero := mt Signature.isZero_or_iff.1 (not_or_intro hr hs)
  obtain ⟨t, ht, hvalue⟩ := Scalar.invertByEuclid?_eq_some (mt Residue.toZMod_eq_zero_iff.1 hs)
  have hstands := (JacobianPoint.stands_ofAffine hq).combine (Residue.reduce z * t) (sig.r * t)
  -- The two multiples of the combination are those of the point, since `t` is the inverse of `s`.
  have hpoint : (Residue.reduce z * t : Scalar).toZMod • basePoint
      + (sig.r * t).toZMod • q.toGroup = sig.noncePoint z q.toGroup := by
    rw [Residue.toZMod_mul, Residue.toZMod_mul, Residue.toZMod_reduce, hvalue,
      Signature.noncePoint_eq_smul, mul_comm, mul_comm sig.r.toZMod, mul_smul, mul_smul, smul_add]
  rw [hpoint] at hstands
  refine ⟨_, hstands, ?_⟩
  unfold checkEquation
  rw [if_neg hnonzero, ht]

/-- Without zeros, a signature is accepted if some id names its point. -/
theorem checkEquation_eq_ok_iff_of_ne_zero {q : AffinePoint} (hq : q.OnCurve) (z : Word256)
    {sig : Signature} (hr : sig.r ≠ 0) (hs : sig.s ≠ 0) :
    checkEquation q z sig = .ok ()
      ↔ ∃ id : RecoveryId, id.Names sig.r (sig.noncePoint z q.toGroup) := by
  obtain ⟨p, hp, hcheck⟩ := exists_checkEquation_eq_checkX hq z hr hs
  rw [hcheck, hp.checkX_eq_ok_iff]

/-- **The equation holds** if the signature is valid with some id. -/
theorem checkEquation_eq_ok_iff {q : AffinePoint} (hq : q.OnCurve) (z : Word256) (sig : Signature) :
    checkEquation q z sig = .ok ()
      ↔ ∃ id : RecoveryId, Signed.ValidFor ⟨sig, id⟩ z q.toGroup := by
  by_cases hzero : sig.r = 0 ∨ sig.s = 0
  · rw [checkEquation_of_zero q z hzero]
    exact ⟨nofun, fun ⟨_, h⟩ => absurd hzero (not_or_intro h.r_ne_zero h.s_ne_zero)⟩
  · rw [not_or] at hzero
    rw [checkEquation_eq_ok_iff_of_ne_zero hq z hzero.1 hzero.2]
    exact exists_congr fun id => ⟨fun h => ⟨hzero.1, hzero.2, h⟩, Signed.ValidFor.names⟩

/-- **The sign of `s` does not matter**: the verdict is the same, and so is the reason for a
    rejection. -/
theorem checkEquation_negateS {q : AffinePoint} (hq : q.OnCurve) (z : Word256) (sig : Signature) :
    checkEquation q z sig.negateS = checkEquation q z sig := by
  by_cases hzero : sig.r = 0 ∨ sig.s = 0
  · have hzero' : sig.negateS.r = 0 ∨ sig.negateS.s = 0 := hzero.imp_right Residue.neg_eq_zero_iff.2
    rw [checkEquation_of_zero q z hzero, checkEquation_of_zero q z hzero']
  · rw [not_or] at hzero
    obtain ⟨p, hp, hcheck⟩ := exists_checkEquation_eq_checkX hq z hzero.1 hzero.2
    have hr' : sig.negateS.r ≠ 0 := hzero.1
    have hs' : sig.negateS.s ≠ 0 := mt Residue.neg_eq_zero_iff.1 hzero.2
    obtain ⟨p', hp', hcheck'⟩ := exists_checkEquation_eq_checkX hq z hr' hs'
    -- The two signatures commit to opposite points.
    rw [Signature.noncePoint_negateS] at hp'
    rw [hcheck, hcheck']
    exact checkX_eq_of_toAffine_eq_neg (hp.toAffine_eq_neg hp') sig.r

/-! ### The textbook equation -/

/-- The x-coordinate of the base point, which is a scalar as it stands. -/
def Scalar.generatorX : Scalar := ⟨AffinePoint.generatorX.word, by decide⟩

/-- As both components and for the number zero, it commits to the base point under itself. -/
theorem noncePoint_generatorX :
    Signature.noncePoint ⟨Scalar.generatorX, Scalar.generatorX⟩ Word256.zero basePoint
      = basePoint := by
  have hne : Scalar.generatorX.toZMod ≠ 0 := mt Residue.toZMod_eq_zero_iff.1 (by decide)
  rw [Signature.noncePoint_eq_smul, Word256.toNat_zero, natCast_smul, zero_nsmul, zero_add,
    inv_smul_smul₀ hne]

/-- **Verification accepts exactly the signatures of the textbook.** The point must not be the
    identity and its x-coordinate must be `r` modulo `n`; and the comparison without an inversion
    has the verdict of converting to affine coordinates and reducing, whatever the triple. -/
theorem checkEquation_accepts_iff (q : AffinePoint) (hq : q.OnCurve) (z : Word256)
    (sig : Signature) :
    (checkEquation q z sig = .ok ()
      ↔ sig.r ≠ 0 ∧ sig.s ≠ 0 ∧ sig.noncePoint z q.toGroup ≠ 0
        ∧ xNumber (sig.noncePoint z q.toGroup) % Modulus.order.toNat = sig.r.toNat)
    ∧ ∀ (p : JacobianPoint) (r : Scalar), checkX p r = .ok ()
      ↔ p.toAffine ≠ .identity ∧ (Scalar.ofCoordinate p.toAffine.x).1 = r := by
  constructor
  · -- Some id names the nonce point exactly when its x-coordinate is r modulo the order.
    rw [checkEquation_eq_ok_iff hq, ← RecoveryId.exists_names_iff]
    constructor
    · rintro ⟨id, h⟩
      exact ⟨h.r_ne_zero, h.s_ne_zero, id, h.names⟩
    · rintro ⟨hr, hs, id, h⟩
      exact ⟨id, hr, hs, h⟩
  · intro p r
    rw [checkX_eq_ok_iff, ← Scalar.reduce_eq_iff]
    rfl

/-- Under the base point as the key, its x-coordinate twice is a signature of zero. -/
theorem checkEquation_accepts_generator :
    AffinePoint.generator.OnCurve
    ∧ checkEquation AffinePoint.generator Word256.zero ⟨Scalar.generatorX, Scalar.generatorX⟩
      = .ok () := by
  have hcurve := JacobianPoint.onCurve_generator
  refine ⟨hcurve, (checkEquation_accepts_iff _ hcurve _ _).1.2 ?_⟩
  rw [JacobianPoint.toGroup_generator, noncePoint_generatorX]
  refine ⟨by decide, by decide, basePoint_ne_zero, ?_⟩
  show AffinePoint.generatorX.toZMod.val % Modulus.order.toNat = Scalar.generatorX.toNat
  rw [Residue.val_toZMod]
  exact Scalar.reduce_eq_iff.1 (by decide +kernel)

end CurveSign
