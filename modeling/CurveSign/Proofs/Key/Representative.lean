import CurveSign.Proofs.Key.Rejection
import Mathlib.Logic.Function.Basic

namespace CurveSign

/-!
# Only the representative of a hash matters

A hash of at least 16 bytes stands for a scalar, its first 32 bytes as a number modulo `n`
(`representative`).  Signing reduces the number twice, for the nonce and for the equation, and recovery
once beside the number itself, which its last verification reduces again.  Each of these steps gives
the same result for numbers that are equal modulo `n`, hence so do the steps in sequence
(`ReadsModOrder.bind`), and an operation sees of its hash the representative only
(`messageNumber_bind_congr`, `prehash_representative`).
-/

variable {prehash prehash' : List UInt8} {α β : Type}

/-! ### Representatives -/

/-- The number of 32 bytes fits a word, so nothing of it is lost. -/
theorem toNat_hashNumber (prehash : List UInt8) :
    (hashNumber prehash).toNat = BigEndian.decode (prehash.take 32) := by
  have hlength : (prehash.take 32).length ≤ 32 := List.length_take_le 32 prehash
  have hlt := BigEndian.decode_lt (prehash.take 32)
  have hsize : 256 ^ (prehash.take 32).length ≤ Word256.size :=
    Nat.pow_le_pow_right (by decide) hlength
  rw [hashNumber, Word256.toNat_ofNat, Nat.mod_eq_of_lt (hlt.trans_le hsize)]

/-- The scalar that stands for a hash. -/
def representative (prehash : List UInt8) : Scalar := Residue.reduce (hashNumber prehash)

/-- The representative is the number of at most 32 bytes modulo the order. -/
theorem toNat_representative (prehash : List UInt8) : (representative prehash).toNat
    = BigEndian.decode (prehash.take 32) % Modulus.order.toNat := by
  rw [representative, Residue.toNat_reduce, toNat_hashNumber]

/-- Two hashes have one representative if their numbers agree modulo the order. -/
theorem representative_eq_iff : representative prehash = representative prehash'
    ↔ BigEndian.decode (prehash.take 32) % Modulus.order.toNat
      = BigEndian.decode (prehash'.take 32) % Modulus.order.toNat := by
  rw [← Residue.toNat_inj, toNat_representative, toNat_representative]

/-! ### What depends on a number modulo the order -/

/-- What is computed from a number depends on it modulo `n` only. -/
def ReadsModOrder (f : Word256 → α) : Prop :=
  Function.FactorsThrough f (Residue.reduce : Word256 → Scalar)

namespace ReadsModOrder

theorem const (a : α) : ReadsModOrder fun _ => a := fun _ _ _ => rfl

/-- A choice reads as much as its sides do. -/
theorem ite {f g : Word256 → α} {c : Prop} [Decidable c] (hf : ReadsModOrder f)
    (hg : ReadsModOrder g) : ReadsModOrder fun z => if c then f z else g z := by
  intro z z' h
  simp only [hf h, hg h]

/-- **Steps in sequence** depend on the number modulo `n` if every one of them does. -/
theorem bind {x : Word256 → Except Rejection α} {f : Word256 → α → Except Rejection β}
    (hx : ReadsModOrder x) (hf : ∀ a, ReadsModOrder fun z => f z a) :
    ReadsModOrder fun z => x z >>= f z := by
  intro z z' h
  have hnext : f z = f z' := funext fun a => hf a h
  simp only [hx h, hnext]

end ReadsModOrder

/-- Signing reads the number modulo the order. -/
theorem readsModOrder_signWithNonce (d k : Scalar) :
    ReadsModOrder fun z => signWithNonce d z k := by
  intro z z' h
  simp only [signWithNonce, h]

/-- The equation reads the number modulo the order. -/
theorem readsModOrder_checkEquation (q : AffinePoint) (sig : Signature) :
    ReadsModOrder fun z => checkEquation q z sig := by
  intro z z' h
  exact checkEquation_congr (Residue.reduce_eq_reduce_iff.1 h) q sig

/-- The rule for the nonce gets the number modulo the order. -/
theorem SigningKey.readsModOrder_nonce (rule : NonceRule) (key : SigningKey) :
    ReadsModOrder (key.nonce rule) := by
  intro z z' h
  simp only [nonce, h]

/-- Solving for the key reads the number modulo the order. -/
theorem VerifyingKey.readsModOrder_solveKey (point : AffinePoint) (sig : Signature) :
    ReadsModOrder fun z => solveKey point z sig := by
  intro z z' h
  simp only [solveKey, h]

/-! ### Operations on hashes -/

/-- **An operation sees the representative**: what follows the conversion of a hash has the same result
    for two hashes that stand for one scalar. -/
theorem messageNumber_bind_congr {f : Word256 → Except Rejection α} (hf : ReadsModOrder f)
    (h : 16 ≤ prehash.length) (h' : 16 ≤ prehash'.length)
    (heq : representative prehash = representative prehash') :
    messageNumber prehash >>= f = messageNumber prehash' >>= f := by
  rw [messageNumber_bind, messageNumber_bind, if_neg (Nat.not_lt.2 h), if_neg (Nat.not_lt.2 h')]
  exact hf heq

/-- A short hash is refused before anything else. -/
theorem messageNumber_bind_of_lt (h : prehash.length < 16) (f : Word256 → Except Rejection α) :
    messageNumber prehash >>= f = .error (.prehashTooShort prehash.length) := by
  rw [messageNumber_bind, if_pos h]

/-- **Signing** sees the representative of a hash only. -/
theorem SigningKey.signPrehashWith_congr (h : 16 ≤ prehash.length) (h' : 16 ≤ prehash'.length)
    (heq : representative prehash = representative prehash') (rule : NonceRule) (key : SigningKey) :
    key.signPrehashWith rule prehash = key.signPrehashWith rule prehash' := by
  apply messageNumber_bind_congr _ h h' heq
  apply (key.readsModOrder_nonce rule).bind
  intro k
  exact readsModOrder_signWithNonce key.secret k

namespace VerifyingKey

/-- **Verifying** sees the representative of a hash only. -/
theorem verifyPrehash_congr (h : 16 ≤ prehash.length) (h' : 16 ≤ prehash'.length)
    (heq : representative prehash = representative prehash') (key : VerifyingKey) (sig : Signature) :
    key.verifyPrehash prehash sig = key.verifyPrehash prehash' sig := by
  apply messageNumber_bind_congr _ h h' heq
  apply ReadsModOrder.ite (.const _)
  exact readsModOrder_checkEquation key.toAffine sig

/-- **Recovering a key** sees the representative of a hash only. -/
theorem recoverPrehash_congr (h : 16 ≤ prehash.length) (h' : 16 ≤ prehash'.length)
    (heq : representative prehash = representative prehash') (sig : Signature) (id : RecoveryId) :
    recoverPrehash prehash sig id = recoverPrehash prehash' sig id := by
  apply messageNumber_bind_congr _ h h' heq
  apply ReadsModOrder.ite (.const _)
  -- Finding the point does not look at the number.
  apply ReadsModOrder.bind (.const _)
  intro point
  apply (readsModOrder_solveKey point sig).bind
  intro key
  apply (readsModOrder_checkEquation key.toAffine sig).bind
  intro _
  exact .const _

end VerifyingKey

/-- **Only the representative matters**: on hashes of at least 16 bytes whose first 32 bytes are equal
    as numbers modulo `n`, a key signs alike, whatever rule gives its nonces, and accepts alike, and
    recovery returns alike.  All three refuse a hash of fewer bytes. -/
theorem prehash_representative :
    (∀ prehash prehash' : List UInt8, 16 ≤ prehash.length → 16 ≤ prehash'.length →
      BigEndian.decode (prehash.take 32) % Modulus.order.toNat
        = BigEndian.decode (prehash'.take 32) % Modulus.order.toNat →
      (∀ (rule : NonceRule) (key : SigningKey),
        key.signPrehashWith rule prehash = key.signPrehashWith rule prehash')
      ∧ (∀ (key : VerifyingKey) (sig : Signature),
        key.verifyPrehash prehash sig = key.verifyPrehash prehash' sig)
      ∧ ∀ (sig : Signature) (id : RecoveryId),
        VerifyingKey.recoverPrehash prehash sig id = VerifyingKey.recoverPrehash prehash' sig id)
    ∧ ∀ prehash : List UInt8, prehash.length < 16 →
      (∀ (rule : NonceRule) (key : SigningKey),
        key.signPrehashWith rule prehash = .error (.prehashTooShort prehash.length))
      ∧ (∀ (key : VerifyingKey) (sig : Signature),
        key.verifyPrehash prehash sig = .error (.prehashTooShort prehash.length))
      ∧ ∀ (sig : Signature) (id : RecoveryId),
        VerifyingKey.recoverPrehash prehash sig id = .error (.prehashTooShort prehash.length) := by
  constructor
  · intro prehash prehash' h h' hmod
    have heq := representative_eq_iff.2 hmod
    refine ⟨?_, ?_, ?_⟩
    · intro rule key
      exact SigningKey.signPrehashWith_congr h h' heq rule key
    · intro key sig
      exact VerifyingKey.verifyPrehash_congr h h' heq key sig
    · intro sig id
      exact VerifyingKey.recoverPrehash_congr h h' heq sig id
  · intro prehash h
    refine ⟨?_, ?_, ?_⟩
    · intro rule key
      exact messageNumber_bind_of_lt h _
    · intro key sig
      exact messageNumber_bind_of_lt h _
    · intro sig id
      exact messageNumber_bind_of_lt h _

/-- The signature of the hash of zeros is recovered with its id. -/
theorem recoverPrehash_unit : VerifyingKey.recoverPrehash Word256.zero.toBytes
    Signed.unit.signature Signed.unit.id = .ok SigningKey.unit.verifyingKey := by
  rw [VerifyingKey.recoverPrehash_eq_ok_iff (messageNumber_toBytes Word256.zero)]
  have hvalid := (validFor_of_signWithNonce signWithNonce_one).1
  rw [Residue.toZMod_one, one_smul, ← JacobianPoint.toGroup_generator] at hvalid
  exact ⟨JacobianPoint.onCurve_generator, hvalid⟩

/-- The order and one byte more, which is cut off, stand for zero, and so do 16 zeros: both are signed
    as the hash of 32 zeros is, and the first is accepted and recovered as that is.  A hash of 15 zeros
    is refused. -/
theorem prehash_representative_zero :
    (16 ≤ Word256.zero.toBytes.length ∧ 16 ≤ (Modulus.order.word.toBytes ++ [255]).length
      ∧ BigEndian.decode (Word256.zero.toBytes.take 32) % Modulus.order.toNat
        = BigEndian.decode ((Modulus.order.word.toBytes ++ [255]).take 32) % Modulus.order.toNat
      ∧ SigningKey.unit.signPrehashWith (fun _ _ => Word256.one)
        (Modulus.order.word.toBytes ++ [255]) = .ok Signed.unit
      ∧ SigningKey.unit.verifyingKey.verifyPrehash (Modulus.order.word.toBytes ++ [255])
        Signed.unit.signature = .ok ()
      ∧ VerifyingKey.recoverPrehash (Modulus.order.word.toBytes ++ [255]) Signed.unit.signature
        Signed.unit.id = .ok SigningKey.unit.verifyingKey)
    ∧ SigningKey.unit.signPrehashWith (fun _ _ => Word256.one) (List.replicate 16 0)
      = .ok Signed.unit
    ∧ (List.replicate 15 0 : List UInt8).length < 16
    ∧ SigningKey.unit.signPrehashWith (fun _ _ => Word256.one) (List.replicate 15 0)
      = .error (.prehashTooShort 15) := by
  obtain ⟨hcongr, hshort⟩ := prehash_representative
  have hlength : 16 ≤ Word256.zero.toBytes.length := by decide
  have hlong : 16 ≤ (Modulus.order.word.toBytes ++ [255]).length := by decide
  have hmod : BigEndian.decode (Word256.zero.toBytes.take 32) % Modulus.order.toNat
      = BigEndian.decode ((Modulus.order.word.toBytes ++ [255]).take 32) % Modulus.order.toNat := by
    decide +kernel
  obtain ⟨hsign, hverify, hrecover⟩ := hcongr _ _ hlength hlong hmod
  obtain ⟨hsign', -, -⟩ :=
    hcongr Word256.zero.toBytes (List.replicate 16 0) hlength (by decide) (by decide +kernel)
  refine ⟨⟨hlength, hlong, hmod, ?_, ?_, ?_⟩, ?_, by decide, (hshort _ (by decide)).1 _ _⟩
  · rw [← hsign]
    exact signPrehashWith_unit
  · rw [← hverify]
    exact SigningKey.verifyPrehash_of_signPrehashWith signPrehashWith_unit
  · rw [← hrecover]
    exact recoverPrehash_unit
  · rw [← hsign']
    exact signPrehashWith_unit

end CurveSign
