import CurveSign.Proofs.Key.Signing

namespace CurveSign

/-!
# Recovering keys

Solving the signature equation for the key undoes computing the point of the signature, so recovery
with an id returns exactly the keys for which the signature is valid with that id
(`VerifyingKey.recoverPrehash_eq_ok_iff`).  A key that accepts a signature is therefore recovered with
one id, the one that names the point, and a key that does not with none.
-/

namespace VerifyingKey

variable {prehash : List UInt8} {z : Word256} {sig : Signature} {id : RecoveryId}
  {key : VerifyingKey}

/-- The key solves the equation for the point. -/
theorem solveKey_eq_ok_iff {point : AffinePoint} (hpoint : point.OnCurve) (hr : sig.r ≠ 0) :
    solveKey point z sig = .ok key
      ↔ key.toAffine.OnCurve ∧ key.toAffine.toGroup
        = sig.r.toZMod⁻¹ • (sig.s.toZMod • point.toGroup
            - (z.toNat : ZMod Modulus.order.toNat) • basePoint) := by
  obtain ⟨t, ht, hvalue⟩ := Scalar.invertByEuclid?_eq_some (mt Residue.toZMod_eq_zero_iff.1 hr)
  obtain ⟨hcurve, hgroup⟩ := ((JacobianPoint.stands_ofAffine hpoint).combine
    (-(t * Residue.reduce z)) (t * sig.s)).toAffine
  -- Over the field of scalars this is the solved equation with the inverse multiplied in.
  have hvalue' : (-(t * Residue.reduce z) : Scalar).toZMod • basePoint
      + (t * sig.s).toZMod • point.toGroup = sig.r.toZMod⁻¹ • (sig.s.toZMod • point.toGroup
            - (z.toNat : ZMod Modulus.order.toNat) • basePoint) := by
    rw [Residue.toZMod_neg, Residue.toZMod_mul, Residue.toZMod_mul, Residue.toZMod_reduce, hvalue,
      neg_smul, mul_smul, mul_smul, smul_sub, neg_add_eq_sub]
  rw [hvalue'] at hgroup
  unfold solveKey
  rw [ht]
  dsimp only
  -- A point on the curve is determined by its element of the group.
  rw [ofAffine_eq_ok_iff, ← hgroup]
  constructor
  · rintro h
    exact ⟨h ▸ hcurve, h ▸ rfl⟩
  · rintro ⟨hkey, heq⟩
    exact ((AffinePoint.toGroup_inj hkey hcurve).1 heq).symm

/-- The steps of recovery, for components that are not zero. -/
theorem recoverPrehash_eq_ok_iff_exists (hz : messageNumber prehash = .ok z) (hr : sig.r ≠ 0)
    (hs : sig.s ≠ 0) : recoverPrehash prehash sig id = .ok key
      ↔ ∃ point, recoverPoint sig.r id = .ok point ∧ solveKey point z sig = .ok key
        ∧ checkEquation key.toAffine z sig = .ok () := by
  have hnonzero := mt Signature.isZero_or_iff.1 (not_or_intro hr hs)
  unfold recoverPrehash
  rw [hz]
  show (if _ then _ else _ : Except Rejection VerifyingKey) = _ ↔ _
  rw [if_neg hnonzero, Rejection.bind_eq_ok_iff]
  refine exists_congr fun point => and_congr_right fun _ => ?_
  rw [Rejection.bind_eq_ok_iff]
  constructor
  · -- What is returned is the very key that was checked.
    rintro ⟨key', hkey, h⟩
    obtain ⟨_, hcheck, hreturn⟩ := Rejection.bind_eq_ok_iff.1 h
    obtain rfl := Except.ok.inj hreturn
    exact ⟨hkey, hcheck⟩
  · rintro ⟨hkey, hcheck⟩
    exact ⟨key, hkey, Rejection.bind_eq_ok_iff.2 ⟨(), hcheck, rfl⟩⟩

/-- **Recovery returns the keys for which the signature is valid with the id.** -/
theorem recoverPrehash_eq_ok_iff (hz : messageNumber prehash = .ok z) :
    recoverPrehash prehash sig id = .ok key
      ↔ key.toAffine.OnCurve ∧ Signed.ValidFor ⟨sig, id⟩ z key.toAffine.toGroup := by
  by_cases hzero : (sig.r.isZero || sig.s.isZero) = true
  · have hrecover : recoverPrehash prehash sig id = .error .zeroComponent := by
      unfold recoverPrehash
      rw [hz]
      exact if_pos hzero
    rw [Signature.isZero_or_iff] at hzero
    rw [hrecover]
    exact ⟨nofun, fun h => absurd hzero (not_or_intro h.2.r_ne_zero h.2.s_ne_zero)⟩
  rw [Signature.isZero_or_iff, not_or] at hzero
  obtain ⟨hr, hs⟩ := hzero
  rw [recoverPrehash_eq_ok_iff_exists hz hr hs]
  constructor
  · rintro ⟨point, hpoint, hkey, _⟩
    obtain ⟨hcurve, hnames⟩ := recoverPoint_eq_ok_iff.1 hpoint
    obtain ⟨hcurve', hgroup⟩ := (solveKey_eq_ok_iff hcurve hr).1 hkey
    refine ⟨hcurve', hr, hs, ?_⟩
    -- The key was solved for, so it leads back to the point.
    rw [(Signature.noncePoint_eq_iff hr hs).2 hgroup]
    exact hnames
  · rintro ⟨hcurve, hvalid⟩
    -- The point that the key leads to is the one that recovery finds.
    obtain ⟨point, hpoint, hgroup⟩ :=
      AffinePoint.exists_toGroup_eq (sig.noncePoint z key.toAffine.toGroup)
    have hnames := hvalid.names
    rw [← hgroup] at hnames
    refine ⟨point, recoverPoint_eq_ok_iff.2 ⟨hpoint, hnames⟩, ?_, ?_⟩
    · rw [solveKey_eq_ok_iff hpoint hr]
      exact ⟨hcurve, (Signature.noncePoint_eq_iff hr hs).1 hgroup.symm⟩
    · rw [checkEquation_eq_ok_iff hcurve]
      exact ⟨id, hvalid⟩

end VerifyingKey

/-! ### Recovery and verification -/

/-- **Recovery is sound and complete**: under exactly one id it returns a key that accepts the
    signature, and under none a key that does not. -/
theorem recoverPrehash_iff_checkEquation (prehash : List UInt8) (hlength : 16 ≤ prehash.length)
    (sig : Signature) (key : VerifyingKey) (hkey : key.toAffine.OnCurve) :
    ∃ z, messageNumber prehash = .ok z
      ∧ (checkEquation key.toAffine z sig = .ok () →
        ∃! id, VerifyingKey.recoverPrehash prehash sig id = .ok key)
      ∧ (checkEquation key.toAffine z sig ≠ .ok () →
        ∀ id, VerifyingKey.recoverPrehash prehash sig id ≠ .ok key) := by
  have hz := messageNumber_eq_ok hlength
  refine ⟨_, hz, ?_, ?_⟩
  · intro hcheck
    obtain ⟨id, hvalid⟩ := (checkEquation_eq_ok_iff hkey _ sig).1 hcheck
    refine ⟨id, (VerifyingKey.recoverPrehash_eq_ok_iff hz).2 ⟨hkey, hvalid⟩, ?_⟩
    intro id' hrecover
    have hvalid' := ((VerifyingKey.recoverPrehash_eq_ok_iff hz).1 hrecover).2
    -- Both ids name the same nonce point, which has one name only.
    exact hvalid'.names.unique hvalid.names
  · intro hcheck id hrecover
    have hvalid := ((VerifyingKey.recoverPrehash_eq_ok_iff hz).1 hrecover).2
    exact hcheck ((checkEquation_eq_ok_iff hkey _ sig).2 ⟨id, hvalid⟩)

/-- The signature of zero with secret one and nonce one is recovered with one id. -/
theorem recoverPrehash_iff_checkEquation_unit :
    16 ≤ Word256.zero.toBytes.length ∧ SigningKey.unit.verifyingKey.toAffine.OnCurve
    ∧ ∃! id, VerifyingKey.recoverPrehash Word256.zero.toBytes Signed.unit.signature id
      = .ok SigningKey.unit.verifyingKey := by
  have hlength : 16 ≤ Word256.zero.toBytes.length := by
    rw [Word256.length_toBytes]
    decide
  have hcurve : SigningKey.unit.verifyingKey.toAffine.OnCurve := JacobianPoint.onCurve_generator
  obtain ⟨z, hz, hcomplete, _⟩ :=
    recoverPrehash_iff_checkEquation _ hlength Signed.unit.signature _ hcurve
  obtain rfl := Except.ok.inj ((messageNumber_toBytes _).symm.trans hz)
  have hcheck := checkEquation_multiplyBase signWithNonce_one
  rw [toAffine_multiplyBase_one] at hcheck
  exact ⟨hlength, hcurve, hcomplete hcheck⟩

/-- **The id of a signature recovers its key**, whether or not `s` was negated to be low. -/
theorem recoverPrehash_of_signWithNonce (d : Scalar) (hd : d ≠ 0) (z : Word256) (k : Scalar)
    (signed : Signed) (h : signWithNonce d z k = .ok signed) :
    ∃ key, publicKey d = .ok key ∧ key.toAffine.OnCurve
      ∧ key.toAffine.toGroup = d.toNat • basePoint
      ∧ VerifyingKey.recoverPrehash z.toBytes signed.signature signed.id = .ok key := by
  obtain ⟨x, y, hpoint, hcurve, hgroup⟩ := toAffine_multiplyBase hd
  refine ⟨⟨x, y⟩, publicKey_eq_ok_iff.2 hpoint, hcurve, ?_, ?_⟩
  · rw [← toGroup_multiplyBase, hpoint]
    rfl
  · rw [VerifyingKey.recoverPrehash_eq_ok_iff (messageNumber_toBytes z)]
    refine ⟨hcurve, ?_⟩
    have hvalid := (validFor_of_signWithNonce h).1
    rw [← hgroup] at hvalid
    exact hvalid

/-- The signature of the number zero with the secret and the nonce one leads back to its key. -/
theorem recoverPrehash_of_signWithNonce_one :
    (1 : Scalar) ≠ 0 ∧ signWithNonce 1 Word256.zero 1 = .ok Signed.unit
    ∧ ∃ key, publicKey 1 = .ok key
      ∧ VerifyingKey.recoverPrehash Word256.zero.toBytes Signed.unit.signature Signed.unit.id
        = .ok key := by
  have hne : (1 : Scalar) ≠ 0 := by decide
  obtain ⟨key, hkey, _, _, hrecover⟩ :=
    recoverPrehash_of_signWithNonce 1 hne Word256.zero 1 Signed.unit signWithNonce_one
  exact ⟨hne, signWithNonce_one, key, hkey, hrecover⟩

end CurveSign
