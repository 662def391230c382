import CurveSign.Proofs.Point.Decompress
import CurveSign.Proofs.Signature.Outcome

namespace CurveSign

/-!
# Opposite nonces

The nonces `k` and `-k` have opposite points, with one x-coordinate and different parities, and opposite
inverses.  So what signing computes with the one is what it computes with the other with `s` and the
parity turned over, and lowering `s` undoes that (`Signed.normalize_negate`): the outcomes are the same,
failures included (`signWithNonce_neg`).  A signature determines its nonce up to the sign
(`eq_or_eq_neg_of_signWithNonce`), so no third nonce shares it.
-/

variable {d k k' : Scalar} {z : Word256} {signed : Signed}

/-! ### The outcomes -/

/-- Opposite scalars have opposite multiples. -/
theorem toAffine_multiplyBase_neg (k : Scalar) :
    (JacobianPoint.multiplyBase (-k)).toAffine = -(JacobianPoint.multiplyBase k).toAffine := by
  apply (JacobianPoint.stands_multiplyBase k).toAffine_eq_neg
  rw [← neg_smul, ← Residue.toZMod_neg]
  exact JacobianPoint.stands_multiplyBase (-k)

/-- **Opposite nonces have the same outcome.** -/
theorem signWithNonce_neg (d k : Scalar) (z : Word256) :
    signWithNonce d z (-k) = signWithNonce d z k := by
  by_cases hk : k = 0
  · rw [hk, Residue.neg_eq_zero_iff.2 rfl]
  have hk' : -k ≠ 0 := mt Residue.neg_eq_zero_iff.1 hk
  obtain ⟨x, y, hpoint, hcurve, -⟩ := toAffine_multiplyBase hk
  have hpoint' : (JacobianPoint.multiplyBase (-k)).toAffine = .finite x (-y) := by
    rw [toAffine_multiplyBase_neg, hpoint]
    rfl
  obtain ⟨t, ht, hsign⟩ := signWithNonce_eq (d := d) z hk hpoint
  obtain ⟨t', ht', hsign'⟩ := signWithNonce_eq (d := d) z hk' hpoint'
  -- Only the inverse changes its sign: `r` is read off the x-coordinate, which the points share.
  have hquotient : t' * (Residue.reduce x.word * d + Residue.reduce z)
      = -(t * (Residue.reduce x.word * d + Residue.reduce z)) := by
    rw [← Residue.toZMod_inj, Residue.toZMod_neg, Residue.toZMod_mul, Residue.toZMod_mul, ht, ht',
      Residue.toZMod_neg, inv_neg, neg_mul]
  have hparity : (-y).isOdd = !y.isOdd :=
    AffinePoint.isOdd_neg (y_ne_zero (AffinePoint.onCurve_finite_iff.1 hcurve))
  rw [hsign, hsign', hquotient, hparity]
  simp only [Residue.neg_eq_zero_iff]
  -- The failures are the same, and where there is none `s` is not zero.
  split_ifs with hunusable hs
  · rfl
  · rfl
  · rw [← Signed.negate_mk, Signed.normalize_negate]
    exact hs

/-! ### The nonce of a signature -/

/-- What a signature says of its nonce. -/
theorem mul_nonce_of_signWithNonce (h : signWithNonce d z k = .ok signed) :
    k.toZMod * signed.signature.s.toZMod = z.toNat + signed.signature.r.toZMod * d.toZMod
    ∨ k.toZMod * signed.signature.s.toZMod
      = -(z.toNat + signed.signature.r.toZMod * d.toZMod) := by
  obtain ⟨raw, rfl, -, -, hmul, -⟩ := exists_unlowered h
  rw [mul_comm]
  -- Lowering keeps s or puts its opposite, which is the sign the product shows.
  rcases raw.normalize_cases with hnormal | hnormal
  · rw [hnormal]
    exact .inl hmul
  · rw [hnormal]
    refine .inr ?_
    show (-raw.signature.s).toZMod * k.toZMod = -(z.toNat + raw.signature.r.toZMod * d.toZMod)
    rw [Residue.toZMod_neg, neg_mul, hmul]

/-- Nonces of one signature are equal or opposite. -/
theorem eq_or_eq_neg_of_signWithNonce (h : signWithNonce d z k = .ok signed)
    (h' : signWithNonce d z k' = .ok signed) : k' = k ∨ k' = -k := by
  have hs := mt Residue.toZMod_eq_zero_iff.1 (validFor_of_signWithNonce h).1.s_ne_zero
  have hnonces := eq_or_eq_neg_of_mul hs (mul_nonce_of_signWithNonce h')
    (mul_nonce_of_signWithNonce h)
  rwa [← Residue.toZMod_neg, Residue.toZMod_inj, Residue.toZMod_inj] at hnonces

/-! ### Opposite nonces -/

/-- **The nonces `k` and `-k` sign alike.**  The outcome is the same, whether it is a signature with its
    id or a failure; and if it is a signature, it is low, and these are the nonces that give it. -/
theorem signWithNonce_neg_exact (d k : Scalar) (z : Word256) :
    (-k).toNat = (Modulus.order.toNat - k.toNat) % Modulus.order.toNat
    ∧ signWithNonce d z (-k) = signWithNonce d z k
    ∧ ∀ signed, signWithNonce d z k = .ok signed → signed.signature.s.isHigh = false
      ∧ ∀ k', signWithNonce d z k' = .ok signed ↔ k' = k ∨ k' = -k := by
  refine ⟨Residue.toNat_neg k, signWithNonce_neg d k z, fun signed h => ⟨?_, fun k' => ⟨?_, ?_⟩⟩⟩
  · exact (validFor_of_signWithNonce h).2
  · exact eq_or_eq_neg_of_signWithNonce h
  · rintro (rfl | rfl)
    · exact h
    · exact (signWithNonce_neg d k z).trans h

/-- Secret one signs zero with nonce one and with nonce `n - 1` alike. -/
theorem signWithNonce_neg_exact_one :
    signWithNonce 1 Word256.zero 1 = .ok Signed.unit
    ∧ (-1 : Scalar).toNat = Modulus.order.toNat - 1
    ∧ signWithNonce 1 Word256.zero (-1) = .ok Signed.unit
    ∧ Signed.unit.signature.s.isHigh = false
    ∧ ¬ signWithNonce 1 Word256.zero (Residue.ofWord 2) = .ok Signed.unit := by
  obtain ⟨hopposite, hsame, hsigned⟩ := signWithNonce_neg_exact 1 1 Word256.zero
  obtain ⟨hlow, hnonces⟩ := hsigned _ signWithNonce_one
  refine ⟨signWithNonce_one, ?_, hsame.trans signWithNonce_one, hlow, ?_⟩
  · rw [hopposite, Residue.toNat_one, Modulus.toNat_order]
  · rw [hnonces]
    decide

end CurveSign
