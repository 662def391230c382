import CurveSign.Proofs.Signature.Signing

namespace CurveSign

/-!
# What signing returns

A nonce `k` is usable if the x-coordinate of `k · G` is a scalar, and not zero (`UsableNonce`).  Signing
then gives `r` that x-coordinate, and `s` is determined by `s · k = ± (z + r · d)` together with being
low (`IsLowQuotient`, `IsLowQuotient.unique`), so what is returned can be said without following the
computation (`Signed.Solves`).  It fails for the nonce zero and where `z + r · d` is zero, and nowhere
else (`signWithNonce_cases`).
-/

variable {d k : Scalar} {z : Word256} {signed : Signed}

/-! ### Low quotients -/

/-- Two numbers whose products with a third are `m` or `-m` are equal or opposite. -/
theorem eq_or_eq_neg_of_mul {a b c m : ZMod Modulus.order.toNat} (hc : c ≠ 0)
    (ha : a * c = m ∨ a * c = -m) (hb : b * c = m ∨ b * c = -m) : a = b ∨ a = -b := by
  have hcancel : ∀ a b : ZMod Modulus.order.toNat, a * c = b * c → a = b :=
    fun _ _ => mul_right_cancel₀ hc
  rcases ha with ha | ha <;> rcases hb with hb | hb
  · exact .inl (hcancel _ _ (ha.trans hb.symm))
  · exact .inr (hcancel _ _ (by rw [ha, neg_mul, hb, neg_neg]))
  · exact .inr (hcancel _ _ (by rw [ha, neg_mul, hb]))
  · exact .inl (hcancel _ _ (ha.trans hb.symm))

/-- The number `s` lies in `[1, (n - 1) / 2]`, and `s · k` is `m` or `-m` modulo `n`. -/
structure IsLowQuotient (m k : ZMod Modulus.order.toNat) (s : ℕ) : Prop where
  one_le : 1 ≤ s
  le_half : s ≤ (Modulus.order.toNat - 1) / 2
  mul_eq : (s : ZMod Modulus.order.toNat) * k = m ∨ (s : ZMod Modulus.order.toNat) * k = -m

namespace IsLowQuotient

variable {m c : ZMod Modulus.order.toNat} {s s' : ℕ}

/-- There is one low quotient up to its sign. -/
theorem eq_or_eq_neg (h : IsLowQuotient m c s) (h' : IsLowQuotient m c s') (hc : c ≠ 0) :
    (s : ZMod Modulus.order.toNat) = s' ∨ (s : ZMod Modulus.order.toNat) = -s' :=
  eq_or_eq_neg_of_mul hc h.mul_eq h'.mul_eq

/-- **There is one low quotient**: the sum of two is positive and below `n`, so they are not opposite. -/
theorem unique (h : IsLowQuotient m c s) (h' : IsLowQuotient m c s') (hc : c ≠ 0) : s = s' := by
  have hone := h.one_le
  have hhalf := h.le_half
  have hhalf' := h'.le_half
  rcases h.eq_or_eq_neg h' hc with hequal | hopposite
  · rw [ZMod.natCast_eq_natCast_iff', Nat.mod_eq_of_lt (by omega), Nat.mod_eq_of_lt (by omega)]
      at hequal
    exact hequal
  · rw [← add_eq_zero_iff_eq_neg, ← Nat.cast_add, ZMod.natCast_eq_zero_iff] at hopposite
    have hle := Nat.le_of_dvd (by omega) hopposite
    omega

/-- A low scalar other than zero is a low quotient of what it gives times `k`, or of its opposite. -/
theorem of_scalar {s : Scalar} (hs : s ≠ 0) (hlow : s.isHigh = false)
    (hmul : s.toZMod * c = m ∨ s.toZMod * c = -m) : IsLowQuotient m c s.toNat := by
  have hpos : s.toNat ≠ 0 := Residue.toNat_inj.not.2 hs
  have hhalf := Scalar.toNat_halfOrder
  rw [← Bool.not_eq_true, Scalar.isHigh_iff] at hlow
  exact ⟨by omega, by omega, hmul⟩

end IsLowQuotient

/-! ### Signing with a usable nonce -/

/-- The x-coordinate of `k · G` is a scalar, and not zero. -/
def UsableNonce (k : Scalar) : Prop :=
  0 < xNumber (k.toNat • basePoint) ∧ xNumber (k.toNat • basePoint) < Modulus.order.toNat

/-- The sum `z + r · d` modulo `n`, for the x-coordinate `r` of `k · G`. -/
def signedSum (d k : Scalar) (z : Word256) : ZMod Modulus.order.toNat :=
  ((z.toNat + xNumber (k.toNat • basePoint) * d.toNat : ℕ) : ZMod Modulus.order.toNat)

/-- The signature has the x-coordinate of `k · G` for `r` and the low quotient of `z + r · d` by `k` for
    `s`, and its id names the point that it commits to. -/
structure Signed.Solves (signed : Signed) (d k : Scalar) (z : Word256) : Prop where
  r_eq : signed.signature.r.toNat = xNumber (k.toNat • basePoint)
  s_eq : IsLowQuotient (signedSum d k z) k.toZMod signed.signature.s.toNat
  xReduced_eq : signed.id.xReduced = false
  yOdd_eq : signed.id.yOdd
    = decide (yNumber (signed.signature.noncePoint z (d.toNat • basePoint)) % 2 = 1)

/-- The numerator of `s`, with `r` for the x-coordinate. -/
theorem signedSum_eq {r : Scalar} (hr : r.toNat = xNumber (k.toNat • basePoint)) :
    signedSum d k z = z.toNat + r.toZMod * d.toZMod := by
  rw [signedSum, ← hr, Nat.cast_add, Nat.cast_mul]
  rfl

/-- What signing does before `s` is made low. -/
theorem signWithNonce_of_usable (d : Scalar) (z : Word256) (hk : k ≠ 0) (husable : UsableNonce k) :
    ∃ raw : Signed, raw.signature.r.toNat = xNumber (k.toNat • basePoint)
      ∧ raw.signature.s.toZMod * k.toZMod = signedSum d k z
      ∧ raw.id.xReduced = false
      ∧ signWithNonce d z k
        = if raw.signature.s = 0 then .error .zeroS else .ok raw.normalize := by
  obtain ⟨x, y, hpoint, hcurve, hgroup⟩ := toAffine_multiplyBase hk
  obtain ⟨t, ht, hsign⟩ := signWithNonce_eq (d := d) z hk hpoint
  have hnumber : xNumber (k.toNat • basePoint) = x.toNat := by
    rw [← natCast_smul]
    exact (congrArg xNumber hgroup).symm.trans (xNumber_toGroup hcurve)
  obtain ⟨hpos, hlt⟩ := husable
  have hr : (Residue.reduce x.word : Scalar).toNat = xNumber (k.toNat • basePoint) := by
    rw [hnumber] at hlt ⊢
    rw [Residue.toNat_reduce]
    exact Nat.mod_eq_of_lt hlt
  -- A usable nonce is one whose x-coordinate is a scalar without reduction, and not zero.
  have hr0 : (Residue.reduce x.word : Scalar) ≠ 0 := by
    rw [← Residue.toNat_inj.ne, hr]
    exact hpos.ne'
  rw [hnumber] at hlt
  refine ⟨⟨⟨Residue.reduce x.word, t * (Residue.reduce x.word * d + Residue.reduce z)⟩,
    ⟨y.isOdd, decide (Modulus.order.toNat ≤ x.toNat)⟩⟩, hr, ?_, ?_, ?_⟩
  · rw [signedSum_eq hr]
    exact toZMod_quotient_mul z hk ht
  · exact decide_eq_false hlt.not_ge
  · rw [hsign, if_neg hr0]

/-- Normalizing keeps what was signed or negates it. -/
theorem Signed.normalize_cases (signed : Signed) :
    signed.normalize = signed ∨ signed.normalize = signed.negate := by
  rw [Signed.normalize_eq]
  split_ifs
  · exact .inr rfl
  · exact .inl rfl

/-- **Signing with a usable nonce** fails if `z + r · d` is zero, and otherwise returns what solves the
    equation. -/
theorem signWithNonce_cases (d : Scalar) (z : Word256) (hk : k ≠ 0) (husable : UsableNonce k) :
    (signedSum d k z = 0 ∧ signWithNonce d z k = .error .zeroS)
    ∨ (signedSum d k z ≠ 0 ∧ ∃ signed, signWithNonce d z k = .ok signed ∧ signed.Solves d k z) := by
  obtain ⟨raw, hr, hs, hreduced, hsign⟩ := signWithNonce_of_usable d z hk husable
  have hk' := mt Residue.toZMod_eq_zero_iff.1 hk
  -- The nonce is invertible, so s is zero exactly with the sum it is a quotient of.
  have hzero : raw.signature.s = 0 ↔ signedSum d k z = 0 := by
    rw [← hs, mul_eq_zero_iff_right hk', Residue.toZMod_eq_zero_iff]
  by_cases hs0 : raw.signature.s = 0
  · exact .inl ⟨hzero.1 hs0, hsign.trans (if_pos hs0)⟩
  · rw [if_neg hs0] at hsign
    obtain ⟨hvalid, hlow⟩ := validFor_of_signWithNonce hsign
    have hparity := hvalid.names.yOdd_eq
    rw [Residue.toZMod, natCast_smul] at hparity
    refine .inr ⟨mt hzero.2 hs0, raw.normalize, hsign, ?_⟩
    rcases raw.normalize_cases with hnormal | hnormal
    · rw [hnormal] at hvalid hlow hparity ⊢
      exact ⟨hr, .of_scalar hs0 hlow (.inl hs), hreduced, hparity⟩
    · rw [hnormal] at hvalid hlow hparity ⊢
      refine ⟨hr, .of_scalar hvalid.s_ne_zero hlow (.inr ?_), hreduced, hparity⟩
      show (-raw.signature.s).toZMod * k.toZMod = _
      rw [Residue.toZMod_neg, neg_mul, hs]

namespace Signed.Solves

/-- A solution has no zero in its second component. -/
theorem s_ne_zero (h : signed.Solves d k z) : signed.signature.s ≠ 0 := by
  have hone := h.s_eq.one_le
  rw [← Residue.toNat_inj.ne, Residue.toNat_zero]
  omega

/-- The signature commits to `c · G` if `s · c` is `z + r · d`. -/
theorem noncePoint_eq (h : signed.Solves d k z) {c : ZMod Modulus.order.toNat}
    (hmul : signed.signature.s.toZMod * c = signedSum d k z) :
    signed.signature.noncePoint z (d.toNat • basePoint) = c • basePoint := by
  rw [← natCast_smul]
  apply Signature.noncePoint_smul_basePoint h.s_ne_zero
  rw [hmul, signedSum_eq h.r_eq]
  rfl

end Signed.Solves

/-! ### The outcome -/

/-- **The outcome of signing**, with the nonce zero and with every usable one.  It fails exactly for the
    nonce zero and where `z + r · d` is zero modulo `n`, and says which of the two it was.  Otherwise the
    signature solves the equation, by the one low quotient that there is, and the point that it commits to,
    whose parity the id has, is `k · G`, or its opposite if `s` was negated. -/
theorem signWithNonce_exact (d k : Scalar) (z : Word256) (hnonce : k = 0 ∨ UsableNonce k) :
    ((∃ e, signWithNonce d z k = .error e) ↔ k = 0 ∨ signedSum d k z = 0)
    ∧ (∀ e, signWithNonce d z k = .error e → e = if k = 0 then .zeroNonce else .zeroS)
    ∧ (k ≠ 0 → signedSum d k z ≠ 0 → ∃ signed, signWithNonce d z k = .ok signed
      ∧ signed.Solves d k z
      ∧ (∀ s, IsLowQuotient (signedSum d k z) k.toZMod s → s = signed.signature.s.toNat)
      ∧ (signed.signature.s.toZMod * k.toZMod = signedSum d k z →
        signed.signature.noncePoint z (d.toNat • basePoint) = k.toNat • basePoint)
      ∧ (signed.signature.s.toZMod * k.toZMod = -signedSum d k z →
        signed.signature.noncePoint z (d.toNat • basePoint) = -(k.toNat • basePoint))) := by
  by_cases hk : k = 0
  · obtain rfl := hk
    refine ⟨⟨fun _ => .inl rfl, fun _ => ⟨_, rfl⟩⟩, ?_, fun hne => absurd rfl hne⟩
    intro e he
    exact (Except.error.inj he).symm
  rw [or_iff_right hk, if_neg hk]
  -- Behind the zero nonce the sum alone decides.
  obtain ⟨hsum, hsign⟩ | ⟨hsum, signed, hsign, hsolves⟩ :=
    signWithNonce_cases d z hk (hnonce.resolve_left hk)
  · rw [hsign]
    refine ⟨⟨fun _ => hsum, fun _ => ⟨_, rfl⟩⟩, ?_, fun _ hne => absurd hsum hne⟩
    intro e he
    exact (Except.error.inj he).symm
  · rw [hsign]
    refine ⟨⟨nofun, fun heq => absurd heq hsum⟩, nofun, fun _ _ => ?_⟩
    refine ⟨signed, rfl, hsolves, ?_, ?_, ?_⟩
    · intro s hs
      exact hs.unique hsolves.s_eq (mt Residue.toZMod_eq_zero_iff.1 hk)
    · intro hmul
      rw [hsolves.noncePoint_eq hmul, ← natCast_smul]
      rfl
    · intro hmul
      have hneg : signed.signature.s.toZMod * -k.toZMod = signedSum d k z := by
        rw [mul_neg, hmul, neg_neg]
      rw [hsolves.noncePoint_eq hneg, neg_smul, ← natCast_smul]
      rfl

/-- The nonce one leads to the x-coordinate of the base point. -/
theorem xNumber_one_nsmul : Scalar.generatorX.toNat = xNumber ((1 : Scalar).toNat • basePoint) := by
  rw [Residue.toNat_one, one_nsmul, ← JacobianPoint.toGroup_generator,
    xNumber_toGroup JacobianPoint.onCurve_generator]
  rfl

/-- With secret one and nonce one: the number that makes `z + r · d` zero is not signed, and the number
    below it is signed with `s` negated to one, and so with the parity of the opposite of `G`. -/
theorem signWithNonce_exact_one :
    UsableNonce 1
    ∧ signWithNonce 1 (-Scalar.generatorX).word 1 = .error .zeroS
    ∧ (∃ signed, signWithNonce 1 (-1 - Scalar.generatorX).word 1 = .ok signed
      ∧ signed.signature.s.toNat = 1 ∧ signed.id.yOdd = true)
    ∧ signWithNonce 1 (-1 - Scalar.generatorX).word 0 = .error .zeroNonce := by
  have husable : UsableNonce 1 := by
    rw [UsableNonce, ← xNumber_one_nsmul]
    exact ⟨by decide, Scalar.generatorX.toNat_lt⟩
  have hone : (1 : Scalar) ≠ 0 := by decide
  -- With key and nonce one, the message number is shifted by r, so any sum can be had.
  have hsum : ∀ c : Scalar, signedSum 1 1 (c - Scalar.generatorX).word = c.toZMod := by
    intro c
    have hnumber := Residue.toZMod_sub c Scalar.generatorX
    rw [signedSum_eq xNumber_one_nsmul, Residue.toZMod_one, mul_one]
    exact (congrArg (· + _) hnumber).trans (sub_add_cancel _ _)
  refine ⟨husable, ?_, ?_, ?_⟩
  · obtain ⟨hfails, hreason, -⟩ := signWithNonce_exact 1 1 (0 - Scalar.generatorX).word (.inr husable)
    obtain ⟨e, he⟩ := hfails.2 (.inr ((hsum 0).trans Residue.toZMod_zero))
    obtain rfl := hreason e he
    rw [if_neg hone] at he
    exact he
  · obtain ⟨-, -, hsigns⟩ := signWithNonce_exact 1 1 (-1 - Scalar.generatorX).word (.inr husable)
    have hminus : (-1 : Scalar).toZMod = -1 := by rw [Residue.toZMod_neg, Residue.toZMod_one]
    have hne : (-1 : ZMod Modulus.order.toNat) ≠ 0 := neg_ne_zero.2 one_ne_zero
    rw [hsum, hminus] at hsigns
    obtain ⟨signed, hsign, hsolves, hunique, -, hneg⟩ := hsigns hone hne
    have hlow : IsLowQuotient (-1) (1 : Scalar).toZMod 1 := by
      refine ⟨le_rfl, ?_, .inr ?_⟩
      · rw [Modulus.toNat_order]
        norm_num
      · rw [Nat.cast_one, one_mul, Residue.toZMod_one, neg_neg]
    have hs := (hunique 1 hlow).symm
    refine ⟨signed, hsign, hs, ?_⟩
    have hpoint := hneg (by rw [Residue.toZMod, hs, Nat.cast_one, one_mul, Residue.toZMod_one, neg_neg])
    have hparity := yNumber_neg_mod_two basePoint_ne_zero
    have heven : yNumber basePoint % 2 = 0 := by
      rw [← JacobianPoint.toGroup_generator, yNumber_toGroup JacobianPoint.onCurve_generator]
      decide
    rw [hsolves.yOdd_eq, hpoint, Residue.toNat_one, one_nsmul, decide_eq_true_eq]
    omega
  · obtain ⟨hfails, hreason, -⟩ := signWithNonce_exact 1 0 (-1 - Scalar.generatorX).word (.inl rfl)
    obtain ⟨e, he⟩ := hfails.2 (.inl rfl)
    obtain rfl := hreason e he
    exact he

end CurveSign
