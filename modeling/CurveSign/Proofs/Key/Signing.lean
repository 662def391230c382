import CurveSign.Key.Signing
import CurveSign.Proofs.Bytes.RoundTrip
import CurveSign.Proofs.Der.RoundTrip
import CurveSign.Proofs.Signature.Signing

namespace CurveSign

/-!
# Keys verify what they sign

The verifying key of a secret `d` is the point `d · G` (`publicKey_eq_ok_iff`).  A signature made with
any nonce is low and satisfies the equation under that point (`checkEquation_multiplyBase`), so the
key accepts it, whatever rule chose the nonce (`SigningKey.verifyPrehash_of_signPrehashWith`).
-/

/-! ### Verifying keys -/

namespace VerifyingKey

/-- A key is made from its point. -/
theorem ofAffine_eq_ok_iff {q : AffinePoint} {key : VerifyingKey} :
    ofAffine q = .ok key ↔ q = key.toAffine := by
  rcases q with _ | ⟨x, y⟩
  · exact ⟨nofun, nofun⟩
  · rw [ofAffine, Except.ok.injEq, toAffine, AffinePoint.finite.injEq]
    exact ⟨fun h => h ▸ ⟨rfl, rfl⟩, fun h => h.1 ▸ h.2 ▸ rfl⟩

/-- For a low signature there is only the equation to check. -/
theorem verifyPrehash_eq {prehash : List UInt8} {z : Word256} (hz : messageNumber prehash = .ok z)
    (key : VerifyingKey) {sig : Signature} (hlow : sig.s.isHigh = false) :
    key.verifyPrehash prehash sig = checkEquation key.toAffine z sig := by
  unfold verifyPrehash
  rw [hz]
  show (if sig.s.isHigh = true then _ else _) = _
  rw [hlow, if_neg Bool.false_ne_true]

/-- A key accepts the low signatures of a hash that satisfy the equation. -/
theorem verifyPrehash_eq_ok_iff {key : VerifyingKey} {prehash : List UInt8} {sig : Signature} :
    key.verifyPrehash prehash sig = .ok () ↔ ∃ z, messageNumber prehash = .ok z
      ∧ sig.s.isHigh = false ∧ checkEquation key.toAffine z sig = .ok () := by
  unfold verifyPrehash
  rw [Rejection.bind_eq_ok_iff]
  refine exists_congr fun z => and_congr_right fun _ => ?_
  cases sig.s.isHigh
  · exact (and_iff_right rfl).symm
  · exact ⟨nofun, nofun⟩

end VerifyingKey

/-- The key of a secret is its multiple of the base point. -/
theorem publicKey_eq_ok_iff {secret : Scalar} {key : VerifyingKey} :
    publicKey secret = .ok key ↔ (JacobianPoint.multiplyBase secret).toAffine = key.toAffine :=
  VerifyingKey.ofAffine_eq_ok_iff

/-- The multiple `d · G` in affine coordinates. -/
theorem toGroup_multiplyBase (d : Scalar) :
    (JacobianPoint.multiplyBase d).toAffine.toGroup = d.toNat • basePoint := by
  rw [(JacobianPoint.stands_multiplyBase d).toGroup_toAffine, Residue.toZMod, natCast_smul]

/-! ### Signing and verifying -/

/-- A signature made with a nonce satisfies the equation under `d · G`. -/
theorem checkEquation_multiplyBase {d k : Scalar} {z : Word256} {signed : Signed}
    (h : signWithNonce d z k = .ok signed) :
    checkEquation (JacobianPoint.multiplyBase d).toAffine z signed.signature = .ok () := by
  have hstands := JacobianPoint.stands_multiplyBase d
  rw [checkEquation_eq_ok_iff hstands.onCurve_toAffine, hstands.toGroup_toAffine]
  exact ⟨signed.id, (validFor_of_signWithNonce h).1⟩

namespace SigningKey

/-- Signing a hash takes its number and then the nonce. -/
theorem signPrehashWith_eq_ok_iff {rule : NonceRule} {key : SigningKey} {prehash : List UInt8}
    {signed : Signed} : key.signPrehashWith rule prehash = .ok signed
      ↔ ∃ z, messageNumber prehash = .ok z
        ∧ ∃ k, key.nonce rule z = .ok k ∧ signWithNonce key.secret z k = .ok signed := by
  simp only [signPrehashWith, Rejection.bind_eq_ok_iff]

/-- What a key signs it accepts. -/
theorem verifyPrehash_of_signPrehashWith {rule : NonceRule} {key : SigningKey}
    {prehash : List UInt8} {signed : Signed}
    (h : key.signPrehashWith rule prehash = .ok signed) :
    key.verifyingKey.verifyPrehash prehash signed.signature = .ok () := by
  obtain ⟨z, hz, k, _, hsign⟩ := signPrehashWith_eq_ok_iff.1 h
  rw [VerifyingKey.verifyPrehash_eq hz _ (validFor_of_signWithNonce hsign).2,
    ← publicKey_eq_ok_iff.1 key.publicKey_eq]
  exact checkEquation_multiplyBase hsign

end SigningKey

/-! ### Secret one and nonce one -/

/-- The key of one is the base point. -/
theorem publicKey_one :
    publicKey 1 = .ok ⟨AffinePoint.generatorX, AffinePoint.generatorY⟩ :=
  publicKey_eq_ok_iff.2 toAffine_multiplyBase_one

/-- The key of the secret one, whose point is the base point. -/
def SigningKey.unit : SigningKey where
  secret := 1
  verifyingKey := ⟨AffinePoint.generatorX, AffinePoint.generatorY⟩
  secret_ne_zero := by decide
  publicKey_eq := publicKey_one

/-- A rule that always gives the nonce one signs the number zero as computed. -/
theorem signPrehashWith_unit :
    SigningKey.unit.signPrehashWith (fun _ _ => Word256.one) Word256.zero.toBytes
      = .ok Signed.unit := by
  refine SigningKey.signPrehashWith_eq_ok_iff.2 ⟨_, messageNumber_toBytes _, 1, ?_, signWithNonce_one⟩
  have hnonce : (Residue.ofWord256? Word256.one : Option Scalar) = some 1 :=
    Residue.ofWord256?_eq_some_iff.2 rfl
  unfold SigningKey.nonce
  rw [hnonce]

/-! ### The agreement -/

/-- **Signing and verifying agree**: on secrets and nonces, zero included, where the key is the group's
    multiple `d · G`; and on keys and hashes, for every rule for the nonce, and also for the signature
    read back from its DER form or from its 64 bytes. -/
theorem verify_signed :
    (∀ (d k : Scalar) (z : Word256) (signed : Signed), signWithNonce d z k = .ok signed →
      (JacobianPoint.multiplyBase d).toAffine.OnCurve
      ∧ (JacobianPoint.multiplyBase d).toAffine.toGroup = d.toNat • basePoint
      ∧ checkEquation (JacobianPoint.multiplyBase d).toAffine z signed.signature = .ok ())
    ∧ ∀ (key : SigningKey) (rule : NonceRule) (prehash : List UInt8) (signed : Signed),
      key.signPrehashWith rule prehash = .ok signed →
      key.verifyingKey.verifyPrehash prehash signed.signature = .ok ()
      ∧ (Signature.ofDer signed.signature.toDer.bytes
          >>= key.verifyingKey.verifyPrehash prehash) = .ok ()
      ∧ (Signature.ofBytes signed.signature.toBytes
          >>= key.verifyingKey.verifyPrehash prehash) = .ok () := by
  constructor
  · intro d k z signed h
    exact ⟨(JacobianPoint.stands_multiplyBase d).onCurve_toAffine, toGroup_multiplyBase d,
      checkEquation_multiplyBase h⟩
  · intro key rule prehash signed h
    have hverify := SigningKey.verifyPrehash_of_signPrehashWith h
    rw [Signature.ofDer_toDer, Signature.ofBytes_toBytes]
    exact ⟨hverify, hverify, hverify⟩

/-- The agreement at the secret one, for the number zero and the hash of zeros. -/
theorem verify_signed_unit :
    (signWithNonce 1 Word256.zero 1 = .ok Signed.unit
      ∧ checkEquation (JacobianPoint.multiplyBase 1).toAffine Word256.zero Signed.unit.signature
        = .ok ())
    ∧ SigningKey.unit.signPrehashWith (fun _ _ => Word256.one) Word256.zero.toBytes
        = .ok Signed.unit
      ∧ (Signature.ofDer Signed.unit.signature.toDer.bytes
        >>= SigningKey.unit.verifyingKey.verifyPrehash Word256.zero.toBytes) = .ok () := by
  have hsigned := verify_signed.1 1 1 Word256.zero Signed.unit signWithNonce_one
  have hkey := verify_signed.2 SigningKey.unit _ _ Signed.unit signPrehashWith_unit
  exact ⟨⟨signWithNonce_one, hsigned.2.2⟩, signPrehashWith_unit, hkey.2.1⟩

end CurveSign
