import CurveSign.Proofs.Key.Uniqueness

namespace CurveSign

/-!
# The low form of a signature

A signature and the one with `-s` get the same verdict (`checkEquation_negateS`), and no change of form
leads anywhere else (`Signature.changeForm_eq`): negating `s`, lowering it, and writing the signature
in either encoding and reading it again, in any order.  So the verdict is a property of the low form,
which the two signatures share (`Signature.normalize_negateS`), and a key, which accepts low signatures
only, accepts the low form of exactly what satisfies the equation
(`VerifyingKey.verifyPrehash_normalize_iff`).
-/

variable {q : AffinePoint} {key : VerifyingKey} {prehash : List UInt8} {z : Word256}
  {sig : Signature}

/-! ### Low signatures -/

namespace Signature

/-- The component `s` is at most `(n - 1) / 2`. -/
def IsLow (sig : Signature) : Prop := sig.s.toNat ≤ (Modulus.order.toNat - 1) / 2

/-- Low is not high: at most half of the order. -/
theorem isLow_iff : sig.IsLow ↔ sig.s.isHigh = false := by
  have hhalf := Scalar.toNat_halfOrder
  rw [IsLow, ← Bool.not_eq_true, Scalar.isHigh_iff]
  omega

theorem not_isLow_iff : ¬ sig.IsLow ↔ sig.s.isHigh = true := by
  rw [isLow_iff, Bool.not_eq_false]

/-- There is nothing to normalize in a low signature. -/
theorem normalize?_eq_none_iff : sig.normalize? = none ↔ sig.IsLow := by
  rw [isLow_iff]
  unfold normalize?
  cases sig.s.isHigh <;> simp

/-- A signature that is not low has the one with `-s` for its low form. -/
theorem normalize?_of_not_isLow (h : ¬ sig.IsLow) :
    sig.normalize? = some sig.negateS ∧ sig.negateS.IsLow := by
  rw [not_isLow_iff] at h
  exact ⟨if_pos h, isLow_iff.2 (Scalar.isHigh_neg h)⟩

theorem isLow_normalize (sig : Signature) : sig.normalize.IsLow :=
  isLow_iff.2 sig.isHigh_normalize

/-- Normalizing keeps the signature or negates its second component. -/
theorem normalize_eq_or (sig : Signature) : sig.normalize = sig ∨ sig.normalize = sig.negateS := by
  rw [normalize_eq]
  split_ifs
  · exact Or.inr rfl
  · exact Or.inl rfl

/-- **Opposite signatures have one low form.** -/
theorem normalize_negateS (sig : Signature) : sig.negateS.normalize = sig.normalize := by
  by_cases hs : sig.s = 0
  · -- Zero is its own opposite, and low.
    have hsame : sig.negateS = sig := by
      show (⟨sig.r, -sig.s⟩ : Signature) = sig
      rw [Residue.neg_eq_zero_iff.2 hs, ← hs]
    rw [hsame]
  · have hother : sig.negateS.s.isHigh = !sig.s.isHigh := Scalar.isHigh_neg_eq hs
    rw [normalize_eq, normalize_eq, hother, negateS_negateS]
    cases sig.s.isHigh <;> rfl

end Signature

/-! ### Changes of form -/

/-- A change of the form of a signature. -/
inductive FormStep
  /-- Taking `-s` in place of `s`. -/
  | negate
  | normalize
  /-- Writing the 64 bytes and reading them again. -/
  | throughBytes
  /-- Writing the DER form and reading it again. -/
  | throughDer

/-- The signature after the change. -/
def FormStep.apply (sig : Signature) : FormStep → Except Rejection Signature
  | negate => .ok sig.negateS
  | normalize => .ok sig.normalize
  | throughBytes => Signature.ofBytes sig.toBytes
  | throughDer => Signature.ofDer sig.toDer.bytes

/-- The signature after changes one after another. -/
def Signature.changeForm (sig : Signature) (steps : List FormStep) : Except Rejection Signature :=
  steps.foldlM FormStep.apply sig

/-- A step succeeds, and changes the sign of `s` at most. -/
theorem FormStep.apply_eq (sig : Signature) (step : FormStep) :
    ∃ sig', step.apply sig = .ok sig' ∧ (sig' = sig ∨ sig' = sig.negateS) := by
  cases step with
  | negate => exact ⟨_, rfl, Or.inr rfl⟩
  | normalize => exact ⟨_, rfl, sig.normalize_eq_or⟩
  | throughBytes => exact ⟨_, sig.ofBytes_toBytes, Or.inl rfl⟩
  | throughDer => exact ⟨_, sig.ofDer_toDer, Or.inl rfl⟩

/-- **Changes of form** lead to the signature and to the one with `-s`, and nowhere else. -/
theorem Signature.changeForm_eq (sig : Signature) (steps : List FormStep) :
    ∃ sig', sig.changeForm steps = .ok sig' ∧ (sig' = sig ∨ sig' = sig.negateS) := by
  induction steps generalizing sig with
  | nil => exact ⟨sig, rfl, Or.inl rfl⟩
  | cons step steps ih =>
    obtain ⟨middle, hstep, hmiddle⟩ := step.apply_eq sig
    obtain ⟨last, hrun, hlast⟩ := ih middle
    refine ⟨last, ?_, ?_⟩
    · unfold changeForm
      rw [List.foldlM_cons, hstep]
      exact hrun
    · rcases hmiddle with rfl | rfl
      · exact hlast
      · -- Two changes of the sign cancel.
        rw [negateS_negateS] at hlast
        exact hlast.symm

/-! ### Verdicts -/

/-- The equation does not tell a signature from the one with the opposite second component. -/
theorem checkEquation_eq_of_eq_or {sig' : Signature} (hq : q.OnCurve)
    (h : sig' = sig ∨ sig' = sig.negateS) : checkEquation q z sig' = checkEquation q z sig := by
  rcases h with rfl | rfl
  · rfl
  · exact checkEquation_negateS hq z sig

namespace VerifyingKey

/-- A key accepts the low signatures that satisfy the equation. -/
theorem verifyPrehash_iff_isLow (hz : messageNumber prehash = .ok z) :
    key.verifyPrehash prehash sig = .ok ()
      ↔ sig.IsLow ∧ checkEquation key.toAffine z sig = .ok () := by
  rw [verifyPrehash_eq_ok_iff, Signature.isLow_iff]
  constructor
  · rintro ⟨z', hz', h⟩
    obtain rfl := Except.ok.inj (hz.symm.trans hz')
    exact h
  · intro h
    exact ⟨z, hz, h⟩

/-- A key accepts the low form of exactly what satisfies the equation. -/
theorem verifyPrehash_normalize_iff (hkey : key.toAffine.OnCurve)
    (hz : messageNumber prehash = .ok z) :
    key.verifyPrehash prehash sig.normalize = .ok ()
      ↔ checkEquation key.toAffine z sig = .ok () := by
  rw [verifyPrehash_iff_isLow hz, and_iff_right sig.isLow_normalize,
    checkEquation_eq_of_eq_or hkey sig.normalize_eq_or]

end VerifyingKey

/-- **The form of a signature does not change what it proves.** The verdict is that of the signature
    with `-s`, and that after any changes of form.  A key accepts a signature if it is low and
    satisfies the equation, and its low form if it satisfies the equation.  The low form is the
    signature or the one with `-s`, whichever is low, and both have the same. -/
theorem checkEquation_form_invariant (q : AffinePoint) (hq : q.OnCurve) (sig : Signature) :
    (sig.negateS.r = sig.r
      ∧ sig.negateS.s.toNat = (Modulus.order.toNat - sig.s.toNat) % Modulus.order.toNat)
    ∧ (∀ z : Word256, checkEquation q z sig.negateS = checkEquation q z sig
      ∧ ∀ steps : List FormStep, ∃ sig', sig.changeForm steps = .ok sig'
        ∧ checkEquation q z sig' = checkEquation q z sig)
    ∧ (∀ (key : VerifyingKey) (prehash : List UInt8), key.toAffine = q → 16 ≤ prehash.length →
      ∃ z, messageNumber prehash = .ok z
        ∧ (key.verifyPrehash prehash sig = .ok ()
          ↔ sig.s.toNat ≤ (Modulus.order.toNat - 1) / 2 ∧ checkEquation q z sig = .ok ())
        ∧ (checkEquation q z sig = .ok () ↔ key.verifyPrehash prehash sig.normalize = .ok ()))
    ∧ (sig.normalize? = none ↔ sig.s.toNat ≤ (Modulus.order.toNat - 1) / 2)
    ∧ (¬ sig.s.toNat ≤ (Modulus.order.toNat - 1) / 2 → sig.normalize? = some sig.negateS
      ∧ sig.negateS.s.toNat ≤ (Modulus.order.toNat - 1) / 2)
    ∧ sig.negateS.normalize = sig.normalize := by
  refine ⟨⟨rfl, Residue.toNat_neg sig.s⟩, ?_, ?_, Signature.normalize?_eq_none_iff,
    Signature.normalize?_of_not_isLow, sig.normalize_negateS⟩
  · intro z
    refine ⟨checkEquation_negateS hq z sig, ?_⟩
    intro steps
    -- No step of a change does more than put the opposite in place of s.
    obtain ⟨sig', hrun, hsame⟩ := sig.changeForm_eq steps
    exact ⟨sig', hrun, checkEquation_eq_of_eq_or hq hsame⟩
  · rintro key prehash rfl hlength
    have hz := messageNumber_eq_ok hlength
    exact ⟨_, hz, VerifyingKey.verifyPrehash_iff_isLow hz,
      (VerifyingKey.verifyPrehash_normalize_iff hq hz).symm⟩

/-- At the upper middle number: the signature satisfies the equation, the key refuses it because it is
    not low, and accepts its low form, whose `s` is the lower middle number. -/
theorem checkEquation_form_invariant_half :
    AffinePoint.generator.OnCurve
    ∧ (Signature.changeForm ⟨Scalar.generatorX, -Scalar.half⟩
        [.throughDer, .negate, .throughBytes, .normalize, .negate] >>=
        checkEquation AffinePoint.generator Word256.halfLessGenerator) = .ok ()
    ∧ 16 ≤ Word256.halfLessGenerator.toBytes.length
    ∧ SigningKey.unit.verifyingKey.verifyPrehash Word256.halfLessGenerator.toBytes
        ⟨Scalar.generatorX, -Scalar.half⟩ ≠ .ok ()
    ∧ ¬ (-Scalar.half).toNat ≤ (Modulus.order.toNat - 1) / 2
    ∧ Signature.normalize? ⟨Scalar.generatorX, -Scalar.half⟩
      = some (Signature.negateS ⟨Scalar.generatorX, -Scalar.half⟩)
    ∧ SigningKey.unit.verifyingKey.verifyPrehash Word256.halfLessGenerator.toBytes
        (Signature.normalize ⟨Scalar.generatorX, -Scalar.half⟩) = .ok () := by
  have hcurve := JacobianPoint.onCurve_generator
  have hlength : 16 ≤ Word256.halfLessGenerator.toBytes.length := by
    rw [Word256.length_toBytes]
    decide
  have hhigh : ¬ (-Scalar.half).toNat ≤ (Modulus.order.toNat - 1) / 2 := by decide +kernel
  have hhalf : checkEquation AffinePoint.generator Word256.halfLessGenerator
      ⟨Scalar.generatorX, Scalar.half⟩ = .ok () := checkEquation_generator_sub (by decide)
  obtain ⟨_, hverdict, hkey, _, hlow, _⟩ :=
    checkEquation_form_invariant _ hcurve ⟨Scalar.generatorX, -Scalar.half⟩
  have hcheck := (checkEquation_negateS hcurve Word256.halfLessGenerator _).trans hhalf
  obtain ⟨sig', hrun, hsame⟩ := (hverdict Word256.halfLessGenerator).2
    [.throughDer, .negate, .throughBytes, .normalize, .negate]
  obtain ⟨z, hz, haccepts, hnormal⟩ := hkey SigningKey.unit.verifyingKey _ rfl hlength
  obtain rfl := Except.ok.inj ((messageNumber_toBytes _).symm.trans hz)
  refine ⟨hcurve, ?_, hlength, ?_, hhigh, (hlow hhigh).1, hnormal.1 hcheck⟩
  · rw [Rejection.bind_eq_ok_iff]
    exact ⟨sig', hrun, hsame.trans hcheck⟩
  · intro h
    exact hhigh (haccepts.1 h).1

end CurveSign
