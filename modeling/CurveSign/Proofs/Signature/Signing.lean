import CurveSign.Proofs.Signature.Equation

namespace CurveSign

/-!
# Signing

With `s = k⁻¹ · (r · d + z)` the point that a signature commits to is `k · G`, so what signing returns
is valid with its id for the key `d · G` (`validFor_of_signWithNonce`).  Lowering `s` turns the point
over, and the id with it.
-/

/-! ### Low signatures -/

namespace Scalar

/-- The constant is half of the order, which is odd. -/
theorem toNat_halfOrder : 2 * halfOrder.toNat + 1 = Modulus.order.toNat := by
  rw [Modulus.toNat_order]
  decide

/-- High is above half of the order. -/
theorem isHigh_iff {s : Scalar} : s.isHigh = true ↔ halfOrder.toNat < s.toNat := by
  rw [isHigh, Word256.subBorrow_borrow, decide_eq_true_eq]
  rfl

/-- Of a scalar other than zero and its opposite exactly one is high. -/
theorem isHigh_neg_eq {s : Scalar} (hs : s ≠ 0) : (-s).isHigh = !s.isHigh := by
  have hhalf := toNat_halfOrder
  have hlt := s.toNat_lt
  rw [Bool.eq_iff_iff, Bool.not_eq_true', ← Bool.not_eq_true, isHigh_iff, isHigh_iff,
    Residue.toNat_neg_of_ne_zero hs]
  omega

/-- The opposite of a high scalar is low. -/
theorem isHigh_neg {s : Scalar} (h : s.isHigh = true) : (-s).isHigh = false := by
  have hs : s ≠ 0 := by
    rintro rfl
    exact absurd h (by decide)
  rw [isHigh_neg_eq hs, h, Bool.not_true]

end Scalar

namespace Signature

/-- Negating twice changes nothing. -/
@[simp] theorem negateS_negateS (sig : Signature) : sig.negateS.negateS = sig := by
  have hneg : -(-sig.s) = sig.s := by
    rw [← Residue.toZMod_inj, Residue.toZMod_neg, Residue.toZMod_neg, neg_neg]
  show (⟨sig.r, -(-sig.s)⟩ : Signature) = sig
  rw [hneg]

/-- The low form, by cases. -/
theorem normalize_eq (sig : Signature) :
    sig.normalize = if sig.s.isHigh = true then sig.negateS else sig := by
  unfold normalize normalize?
  split_ifs <;> rfl

/-- The low form is low. -/
theorem isHigh_normalize (sig : Signature) : sig.normalize.s.isHigh = false := by
  rw [normalize_eq]
  split_ifs with hhigh
  · exact Scalar.isHigh_neg hhigh
  · exact eq_false_of_ne_true hhigh

end Signature

namespace Signed

variable {signed : Signed} {z : Word256} {g : CurvePoint}

/-- The signature with `-s` in place of `s`, and the id of the opposite point. -/
def negate (signed : Signed) : Signed :=
  ⟨signed.signature.negateS, ⟨!signed.id.yOdd, signed.id.xReduced⟩⟩

theorem negate_mk (r s : Scalar) (yOdd xReduced : Bool) :
    (⟨⟨r, s⟩, ⟨yOdd, xReduced⟩⟩ : Signed).negate = ⟨⟨r, -s⟩, ⟨!yOdd, xReduced⟩⟩ := rfl

/-- Negating what was signed twice changes nothing. -/
theorem negate_negate (signed : Signed) : signed.negate.negate = signed := by
  show (⟨signed.signature.negateS.negateS, ⟨!!signed.id.yOdd, signed.id.xReduced⟩⟩ : Signed) = signed
  rw [Signature.negateS_negateS, Bool.not_not]

theorem normalize_eq (signed : Signed) :
    signed.normalize = if signed.signature.s.isHigh = true then signed.negate else signed := rfl

/-- **Lowering undoes negation**: of `s` and `-s` exactly one is high, and it is the one whose parity is
    turned over. -/
theorem normalize_negate (hs : signed.signature.s ≠ 0) : signed.negate.normalize = signed.normalize := by
  have hother : signed.negate.signature.s.isHigh = !signed.signature.s.isHigh :=
    Scalar.isHigh_neg_eq hs
  rw [normalize_eq, normalize_eq, hother, negate_negate]
  cases signed.signature.s.isHigh <;> rfl

/-- Turning both `s` and the parity over keeps a signature valid. -/
theorem ValidFor.negate (h : signed.ValidFor z g) : signed.negate.ValidFor z g := by
  refine ⟨h.r_ne_zero, ?_, ?_⟩
  · exact mt Residue.neg_eq_zero_iff.1 h.s_ne_zero
  · show RecoveryId.Names _ _ (signed.signature.negateS.noncePoint z g)
    rw [Signature.noncePoint_negateS]
    exact h.names.neg

/-- The low form is valid where the signature is. -/
theorem ValidFor.normalize (h : signed.ValidFor z g) : signed.normalize.ValidFor z g := by
  unfold Signed.normalize
  split_ifs
  · exact h.negate
  · exact h

/-- Turning the id over does not interfere with lowering the signature. -/
theorem signature_normalize (signed : Signed) :
    signed.normalize.signature = signed.signature.normalize := by
  rw [Signature.normalize_eq]
  unfold Signed.normalize
  split_ifs <;> rfl

/-- What is normalized is low. -/
theorem isHigh_normalize (signed : Signed) : signed.normalize.signature.s.isHigh = false := by
  rw [signature_normalize]
  exact Signature.isHigh_normalize _

end Signed

/-! ### Signing with a nonce -/

/-- Multiples of the base point by scalars other than zero have coordinates. -/
theorem toAffine_multiplyBase {k : Scalar} (hk : k ≠ 0) :
    ∃ x y, (JacobianPoint.multiplyBase k).toAffine = .finite x y
      ∧ (AffinePoint.finite x y).OnCurve
      ∧ (AffinePoint.finite x y).toGroup = k.toZMod • basePoint := by
  obtain ⟨hcurve, hgroup⟩ := (JacobianPoint.stands_multiplyBase k).toAffine
  -- The base point has prime order, so no multiple by a non-zero scalar vanishes.
  have hne : k.toZMod • basePoint ≠ 0 := by
    rw [Ne, smul_eq_zero_iff' basePoint_ne_zero, Residue.toZMod_eq_zero_iff]
    exact hk
  rcases hpoint : (JacobianPoint.multiplyBase k).toAffine with _ | ⟨x, y⟩
  · rw [hpoint] at hgroup
    exact absurd hgroup.symm hne
  · rw [hpoint] at hcurve hgroup
    exact ⟨x, y, rfl, hcurve, hgroup⟩

/-- What signing with a nonce other than zero does, given the coordinates of `k · G`. -/
theorem signWithNonce_eq {d k : Scalar} (z : Word256) (hk : k ≠ 0) {x y : FieldElement}
    (hpoint : (JacobianPoint.multiplyBase k).toAffine = .finite x y) :
    ∃ t : Scalar, t.toZMod = k.toZMod⁻¹ ∧ signWithNonce d z k
      = if (Residue.reduce x.word : Scalar) = 0 then .error (.fault .unusableNonce)
        else if t * (Residue.reduce x.word * d + Residue.reduce z) = 0 then .error .zeroS
        else .ok (Signed.normalize
          ⟨⟨Residue.reduce x.word, t * (Residue.reduce x.word * d + Residue.reduce z)⟩,
            ⟨y.isOdd, decide (Modulus.order.toNat ≤ x.toNat)⟩⟩) := by
  obtain ⟨t, ht, hvalue⟩ := Scalar.invert?_eq_some (mt Residue.toZMod_eq_zero_iff.1 hk)
  have hzero : ¬ k.isZero = true := mt Residue.isZero_iff.1 hk
  -- The scalar and the overflow flag are both read off one subtraction.
  have hcoordinate : Scalar.ofCoordinate x
      = (Residue.reduce x.word, decide (Modulus.order.toNat ≤ x.toNat)) :=
    Prod.ext rfl (Residue.ofWord256_flag x.word)
  refine ⟨t, hvalue, ?_⟩
  unfold signWithNonce
  rw [if_neg hzero, hpoint]
  simp only [AffinePoint.x, AffinePoint.y, hcoordinate, ht, Residue.isZero_iff]

/-- What signing computes for `s`, times the nonce, is `z + r · d`. -/
theorem toZMod_quotient_mul {d k r t : Scalar} (z : Word256) (hk : k ≠ 0)
    (ht : t.toZMod = k.toZMod⁻¹) : (t * (r * d + Residue.reduce z)).toZMod * k.toZMod
      = z.toNat + r.toZMod * d.toZMod := by
  have hk' := mt Residue.toZMod_eq_zero_iff.1 hk
  rw [Residue.toZMod_mul, Residue.toZMod_add, Residue.toZMod_mul, ht, Residue.toZMod_reduce z,
    mul_right_comm, inv_mul_cancel₀ hk', one_mul, add_comm]

/-- Under the key `d · G` a signature with `s · c = z + r · d` commits to `c · G`. -/
theorem Signature.noncePoint_smul_basePoint {sig : Signature} (hs : sig.s ≠ 0) {z : Word256}
    {c d : ZMod Modulus.order.toNat} (hmul : sig.s.toZMod * c = z.toNat + sig.r.toZMod * d) :
    sig.noncePoint z (d • basePoint) = c • basePoint := by
  have hs' := mt Residue.toZMod_eq_zero_iff.1 hs
  rw [noncePoint_eq_smul, inv_smul_eq_iff₀ hs', smul_smul, smul_smul, ← add_smul, hmul]

/-- **A signature before it is lowered**: neither part is zero, `s` times the nonce is `z + r · d`, and `r`
    and the id name `k · G`. -/
theorem exists_unlowered {d k : Scalar} {z : Word256} {signed : Signed}
    (h : signWithNonce d z k = .ok signed) : ∃ raw : Signed, raw.normalize = signed
      ∧ raw.signature.r ≠ 0 ∧ raw.signature.s ≠ 0
      ∧ raw.signature.s.toZMod * k.toZMod = z.toNat + raw.signature.r.toZMod * d.toZMod
      ∧ raw.id.Names raw.signature.r (k.toZMod • basePoint) := by
  have hk : k ≠ 0 := by
    rintro rfl
    exact absurd h nofun
  obtain ⟨x, y, hpoint, hcurve, hgroup⟩ := toAffine_multiplyBase hk
  obtain ⟨t, ht, hsign⟩ := signWithNonce_eq (d := d) z hk hpoint
  rw [hsign] at h
  -- Two refusals are behind; what is returned was lowered last.
  split_ifs at h with hr hs
  refine ⟨_, Except.ok.inj h, hr, hs, toZMod_quotient_mul z hk ht, ?_⟩
  rw [← hgroup]
  exact (RecoveryId.names_toGroup_iff hcurve).2 ⟨Scalar.reduce_eq_iff.1 rfl, rfl, rfl⟩

/-- **What is signed is valid** with its id for the key `d · G`. -/
theorem validFor_of_signWithNonce {d k : Scalar} {z : Word256} {signed : Signed}
    (h : signWithNonce d z k = .ok signed) :
    signed.ValidFor z (d.toZMod • basePoint) ∧ signed.signature.s.isHigh = false := by
  obtain ⟨raw, rfl, hr, hs, hmul, hnames⟩ := exists_unlowered h
  refine ⟨Signed.ValidFor.normalize ⟨hr, hs, ?_⟩, raw.isHigh_normalize⟩
  rw [Signature.noncePoint_smul_basePoint hs hmul]
  exact hnames

/-! ### Secret one and nonce one -/

/-- The signature of zero with secret one and nonce one. -/
def Signed.unit : Signed := ⟨⟨Scalar.generatorX, Scalar.generatorX⟩, ⟨false, false⟩⟩

/-- The multiple by one is the base point. -/
theorem toAffine_multiplyBase_one :
    (JacobianPoint.multiplyBase 1).toAffine = AffinePoint.generator := by
  have hstands := JacobianPoint.stands_multiplyBase 1
  rw [Residue.toZMod_one, one_smul, ← JacobianPoint.toGroup_generator] at hstands
  exact (AffinePoint.toGroup_inj hstands.onCurve_toAffine JacobianPoint.onCurve_generator).1
    hstands.toGroup_toAffine

/-- Signing zero with the secret and the nonce one, computed. -/
theorem signWithNonce_one : signWithNonce 1 Word256.zero 1 = .ok Signed.unit := by
  obtain ⟨t, ht, hsign⟩ := signWithNonce_eq (d := 1) Word256.zero (by decide)
    toAffine_multiplyBase_one
  rw [Residue.toZMod_one, inv_one, ← Residue.toZMod_one, Residue.toZMod_inj] at ht
  rw [hsign, ht, if_neg (by decide +kernel), if_neg (by decide +kernel), Except.ok.injEq]
  decide +kernel

end CurveSign
