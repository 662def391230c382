import CurveSign.Proofs.Bytes.FixedWidth
import CurveSign.Proofs.Key.Signing
import CurveSign.Proofs.Signature.Binding

namespace CurveSign

/-!
# The `s` of a signature is unique up to its sign

Under a fixed key and for a fixed number, different values of `s` commit to different points over `r`,
and those whose ids have the same flag are opposite (`Signed.ValidFor.eq_or_eq_neg`).  One of two
opposite values is high, so a key accepts one `s` for each flag.  From `r = p - n` on there is one flag
only.  There a signature with a bit of `s` turned over is accepted in one case only: `s` is one of the
two middle numbers, which the lowest bit takes to each other (`checkEquation_s_unique`).
-/

variable {q : AffinePoint} {key : VerifyingKey} {prehash : List UInt8} {z : Word256}
  {r s s' : Scalar}

/-! ### Values of `s` that satisfy the equation -/

/-- **Valid for one number with the same flag**, two values of `s` are equal or opposite. -/
theorem Signed.ValidFor.eq_or_eq_neg {id id' : RecoveryId} {g : CurvePoint}
    (h : ValidFor ⟨⟨r, s⟩, id⟩ z g) (h' : ValidFor ⟨⟨r, s'⟩, id'⟩ z g)
    (hflag : id'.xReduced = id.xReduced) : s' = s ∨ s' = -s := by
  have hne := h.names.ne_zero
  rcases h.names.eq_or_eq_neg h'.names hflag with hpoint | hpoint
  · exact Or.inl (Signature.noncePoint_s_inj hne hpoint)
  · right
    have hnegate := Signature.noncePoint_negateS ⟨r, s⟩ z g
    rw [← neg_ne_zero, ← hnegate] at hne
    exact Signature.noncePoint_s_inj hne (hpoint.trans hnegate.symm)

/-- The values of `s` that satisfy the equation. -/
def acceptedS (q : AffinePoint) (z : Word256) (r : Scalar) : Set Scalar :=
  {s | checkEquation q z ⟨r, s⟩ = .ok ()}

/-- Different values of `s` commit to different points over `r`. -/
theorem encard_acceptedS_le_four (hq : q.OnCurve) (z : Word256) (r : Scalar) :
    (acceptedS q z r).encard ≤ 4 := by
  have hmaps : Set.MapsTo (fun s => Signature.noncePoint ⟨r, s⟩ z q.toGroup) (acceptedS q z r)
      (pointsOver r) := by
    intro s hs
    exact ((checkEquation_iff_mem_pointsOver hq).1 hs).2.2
  have hinj : Set.InjOn (fun s => Signature.noncePoint ⟨r, s⟩ z q.toGroup) (acceptedS q z r) := by
    intro s hs s' hs' h
    exact Signature.noncePoint_s_inj (hmaps hs').1 h
  exact (Set.encard_le_encard_of_injOn hmaps hinj).trans (encard_pointsOver_le_four r)

theorem ne_zero_of_mem_acceptedS (hq : q.OnCurve) (h : s ∈ acceptedS q z r) : s ≠ 0 :=
  ((checkEquation_iff_mem_pointsOver hq).1 h).2.1

/-- With `s` its opposite satisfies the equation. -/
theorem neg_mem_acceptedS (hq : q.OnCurve) (h : s ∈ acceptedS q z r) : -s ∈ acceptedS q z r :=
  (checkEquation_negateS hq z ⟨r, s⟩).trans h

/-- From `p - n` on `s` and its opposite satisfy the equation, and nothing else. -/
theorem mem_acceptedS_iff (hq : q.OnCurve)
    (hr : Modulus.coordinate.toNat - Modulus.order.toNat ≤ r.toNat) (h : s ∈ acceptedS q z r) :
    s' ∈ acceptedS q z r ↔ s' = s ∨ s' = -s := by
  constructor
  · intro h'
    obtain ⟨id, hvalid⟩ := (checkEquation_eq_ok_iff hq z ⟨r, s⟩).1 h
    obtain ⟨id', hvalid'⟩ := (checkEquation_eq_ok_iff hq z ⟨r, s'⟩).1 h'
    apply hvalid.eq_or_eq_neg hvalid'
    -- Above the bound no id can have the flag, so the two agree on the x-coordinate.
    rw [hvalid.names.xReduced_eq_false hr, hvalid'.names.xReduced_eq_false hr]
  · rintro (rfl | rfl)
    · exact h
    · exact neg_mem_acceptedS hq h

/-! ### Turning a bit over -/

theorem order_mod_four : Modulus.order.toNat % 4 = 1 := by
  rw [Modulus.toNat_order]

/-- **A bit of `s` turned over** gives another accepted signature only if it is the lowest and `s` is
    one of the two middle numbers. -/
theorem checkEquation_flipBit_iff (hq : q.OnCurve)
    (hr : Modulus.coordinate.toNat - Modulus.order.toNat ≤ r.toNat) (h : s ∈ acceptedS q z r)
    {bit : ℕ} (hlow : 256 ≤ bit) (hhigh : bit < 512) :
    (Signature.ofBytes (flipBit (Signature.toBytes ⟨r, s⟩) bit) >>= checkEquation q z) = .ok ()
      ↔ bit = 511
        ∧ (s.toNat = (Modulus.order.toNat - 1) / 2 ∨ s.toNat = (Modulus.order.toNat + 1) / 2) := by
  have hneg := Residue.toNat_neg_of_ne_zero (ne_zero_of_mem_acceptedS hq h)
  -- What is accepted beside `s` is its opposite, so the bit has to take one to the other.
  have hopposite : (Signature.ofBytes (flipBit (Signature.toBytes ⟨r, s⟩) bit)
        >>= checkEquation q z) = .ok ()
      ↔ s.toNat ^^^ 2 ^ (511 - bit) = Modulus.order.toNat - s.toNat := by
    rw [Rejection.bind_eq_ok_iff]
    constructor
    · rintro ⟨⟨r', s'⟩, hread, hcheck⟩
      obtain ⟨rfl, hflip⟩ := (Signature.ofBytes_flipBit_eq_ok_iff hlow hhigh).1 hread
      rcases (mem_acceptedS_iff hq hr h).1 hcheck with rfl | rfl
      · exact absurd hflip.symm (xor_two_pow_ne _ _)
      · rw [← hneg]
        exact hflip.symm
    · intro hflip
      rw [← hneg] at hflip
      have hread : Signature.ofBytes (flipBit (Signature.toBytes ⟨r, s⟩) bit) = .ok ⟨r, -s⟩ :=
        (Signature.ofBytes_flipBit_eq_ok_iff hlow hhigh).2 ⟨rfl, hflip.symm⟩
      exact ⟨_, hread, neg_mem_acceptedS hq h⟩
  rw [hopposite, xor_two_pow_eq_sub_iff order_mod_four s.toNat_lt.le]
  refine and_congr_left fun _ => ?_
  omega

/-! ### Values of `s` that a key accepts -/

namespace VerifyingKey

/-- The values of `s` that the key accepts for the hash. -/
def acceptedS (key : VerifyingKey) (prehash : List UInt8) (r : Scalar) : Set Scalar :=
  {s | key.verifyPrehash prehash ⟨r, s⟩ = .ok ()}

/-- The low `s` is valid for the hash, with an id that has the flag. -/
def ValidWithFlag (key : VerifyingKey) (prehash : List UInt8) (r s : Scalar) (flag : Bool) : Prop :=
  s.isHigh = false ∧ ∃ z, messageNumber prehash = .ok z
    ∧ ∃ id, id.xReduced = flag ∧ Signed.ValidFor ⟨⟨r, s⟩, id⟩ z key.toAffine.toGroup

/-- What is accepted is accepted for a point whose x-coordinate was reduced or was not. -/
theorem exists_validWithFlag (hkey : key.toAffine.OnCurve) (h : s ∈ key.acceptedS prehash r) :
    ∃ flag, key.ValidWithFlag prehash r s flag := by
  obtain ⟨z, hz, hlow, hcheck⟩ := verifyPrehash_eq_ok_iff.1 h
  obtain ⟨id, hvalid⟩ := (checkEquation_eq_ok_iff hkey z ⟨r, s⟩).1 hcheck
  exact ⟨id.xReduced, hlow, z, hz, id, rfl, hvalid⟩

/-- One low `s` is valid with each flag: the opposite value is high. -/
theorem ValidWithFlag.unique {flag : Bool} (h : key.ValidWithFlag prehash r s flag)
    (h' : key.ValidWithFlag prehash r s' flag) : s = s' := by
  obtain ⟨hlow, z, hz, id, hflag, hvalid⟩ := h
  obtain ⟨hlow', z', hz', id', hflag', hvalid'⟩ := h'
  obtain rfl := Except.ok.inj (hz.symm.trans hz')
  rcases hvalid.eq_or_eq_neg hvalid' (hflag'.trans hflag.symm) with heq | hneg
  · exact heq.symm
  · rw [hneg, Scalar.isHigh_neg_eq hvalid.s_ne_zero, hlow] at hlow'
    exact absurd hlow' (by decide)

/-- From `p - n` on no x-coordinate was reduced. -/
theorem ValidWithFlag.flag_eq_false {flag : Bool} (h : key.ValidWithFlag prehash r s flag)
    (hr : Modulus.coordinate.toNat - Modulus.order.toNat ≤ r.toNat) : flag = false := by
  obtain ⟨_, z, _, id, rfl, hvalid⟩ := h
  exact hvalid.names.xReduced_eq_false hr

/-- There is at most one for either flag. -/
theorem encard_acceptedS_le_two (hkey : key.toAffine.OnCurve) (prehash : List UInt8) (r : Scalar) :
    (key.acceptedS prehash r).encard ≤ 2 := by
  apply encard_le_card_of_label fun s flag => key.ValidWithFlag prehash r s flag
  · intro s hs
    exact exists_validWithFlag hkey hs
  · intro s s' flag h h'
    exact h.unique h'

/-- Where the flag is settled there is at most one. -/
theorem encard_acceptedS_le_one (hkey : key.toAffine.OnCurve) (prehash : List UInt8)
    (hr : Modulus.coordinate.toNat - Modulus.order.toNat ≤ r.toNat) :
    (key.acceptedS prehash r).encard ≤ 1 := by
  rw [Set.encard_le_one_iff]
  intro s s' hs hs'
  obtain ⟨flag, hvalid⟩ := exists_validWithFlag hkey hs
  obtain ⟨flag', hvalid'⟩ := exists_validWithFlag hkey hs'
  obtain rfl := hvalid.flag_eq_false hr
  obtain rfl := hvalid'.flag_eq_false hr
  exact hvalid.unique hvalid'

end VerifyingKey

/-! ### Uniqueness -/

/-- **The `s` of a signature is unique up to its sign.** From `p - n` on the equation accepts `s` and
    its opposite and nothing else, a key accepts one value, and a signature with a bit of `s` turned
    over is accepted only if the bit is the lowest and `s` one of the two middle numbers.  Below
    `p - n` the equation accepts four values at most and a key two. -/
theorem checkEquation_s_unique (q : AffinePoint) (hq : q.OnCurve) (r : Scalar) :
    (Modulus.coordinate.toNat - Modulus.order.toNat ≤ r.toNat →
      (∀ (z : Word256) (s s' : Scalar), checkEquation q z ⟨r, s⟩ = .ok () →
        (checkEquation q z ⟨r, s'⟩ = .ok ()
          ↔ s' = s ∨ s'.toNat = Modulus.order.toNat - s.toNat))
      ∧ (∀ (key : VerifyingKey) (prehash : List UInt8), key.toAffine = q →
        (key.acceptedS prehash r).encard ≤ 1)
      ∧ ∀ (z : Word256) (s : Scalar), checkEquation q z ⟨r, s⟩ = .ok () →
        ∀ bit, 256 ≤ bit → bit < 512 →
        ((Signature.ofBytes (flipBit (Signature.toBytes ⟨r, s⟩) bit) >>= checkEquation q z) = .ok ()
          ↔ bit = 511 ∧ (s.toNat = (Modulus.order.toNat - 1) / 2
            ∨ s.toNat = (Modulus.order.toNat + 1) / 2)))
    ∧ (r.toNat < Modulus.coordinate.toNat - Modulus.order.toNat →
      (∀ z : Word256, (acceptedS q z r).encard ≤ 4)
      ∧ ∀ (key : VerifyingKey) (prehash : List UInt8), key.toAffine = q →
        (key.acceptedS prehash r).encard ≤ 2) := by
  constructor
  · intro hr
    refine ⟨?_, ?_, ?_⟩
    · intro z s s' h
      rw [← Residue.toNat_neg_of_ne_zero (ne_zero_of_mem_acceptedS hq h), Residue.toNat_inj]
      exact mem_acceptedS_iff hq hr h
    · rintro key prehash rfl
      exact VerifyingKey.encard_acceptedS_le_one hq prehash hr
    · intro z s h bit hlow hhigh
      exact checkEquation_flipBit_iff hq hr h hlow hhigh
  · intro _
    refine ⟨fun z => encard_acceptedS_le_four hq z r, ?_⟩
    rintro key prehash rfl
    exact VerifyingKey.encard_acceptedS_le_two hq prehash r

/-- The scalar `(n - 1) / 2`. -/
def Scalar.half : Scalar := ⟨Scalar.halfOrder, by decide⟩

/-- The number that the base point signs as a key with `(n - 1) / 2`. -/
def Word256.halfLessGenerator : Word256 := (Scalar.half - Scalar.generatorX).word

/-- Signatures are accepted on both sides of `p - n`.  Under the base point one of them has a middle
    number for its `s`, so that the lowest bit turned over gives another. -/
theorem checkEquation_s_unique_half :
    (AffinePoint.generator.OnCurve
      ∧ Modulus.coordinate.toNat - Modulus.order.toNat ≤ Scalar.generatorX.toNat
      ∧ checkEquation AffinePoint.generator Word256.halfLessGenerator
        ⟨Scalar.generatorX, Scalar.half⟩ = .ok ()
      ∧ checkEquation AffinePoint.generator Word256.halfLessGenerator
        ⟨Scalar.generatorX, -Scalar.half⟩ = .ok ()
      ∧ (-Scalar.half).toNat = Modulus.order.toNat - Scalar.half.toNat
      ∧ Scalar.half ∈ SigningKey.unit.verifyingKey.acceptedS Word256.halfLessGenerator.toBytes
        Scalar.generatorX
      ∧ (SigningKey.unit.verifyingKey.acceptedS Word256.halfLessGenerator.toBytes
        Scalar.generatorX).encard ≤ 1
      ∧ (Signature.ofBytes (flipBit (Signature.toBytes ⟨Scalar.generatorX, Scalar.half⟩) 511)
        >>= checkEquation AffinePoint.generator Word256.halfLessGenerator) = .ok ())
    ∧ VerifyingKey.aboveOrder.toAffine.OnCurve
      ∧ (Residue.ofWord 2 : Scalar).toNat < Modulus.coordinate.toNat - Modulus.order.toNat
      ∧ Residue.ofWord 2 ∈ acceptedS VerifyingKey.aboveOrder.toAffine Word256.zero (Residue.ofWord 2)
      ∧ (acceptedS VerifyingKey.aboveOrder.toAffine Word256.zero (Residue.ofWord 2)).encard ≤ 4
      ∧ Residue.ofWord 2 ∈ VerifyingKey.aboveOrder.acceptedS Word256.zero.toBytes (Residue.ofWord 2)
      ∧ (VerifyingKey.aboveOrder.acceptedS Word256.zero.toBytes (Residue.ofWord 2)).encard ≤ 2 := by
  have hcurve := JacobianPoint.onCurve_generator
  have hlarge := primeLessOrder_le_generatorX
  have hhalf : Scalar.half ≠ 0 := by decide
  have hcheck := checkEquation_generator_sub hhalf
  have hneg := neg_mem_acceptedS hcurve hcheck
  obtain ⟨hopposite, hkey, hflip⟩ := (checkEquation_s_unique _ hcurve Scalar.generatorX).1 hlarge
  have hcurve' := VerifyingKey.onCurve_aboveOrder
  have hsmall := two_lt_primeLessOrder
  have hcheck' := checkEquation_aboveOrder
  obtain ⟨hequation', hkey'⟩ :=
    (checkEquation_s_unique _ hcurve' (Residue.ofWord 2)).2 hsmall
  refine ⟨⟨hcurve, hlarge, hcheck, hneg, ?_, ?_, hkey _ _ rfl, ?_⟩, hcurve', hsmall, hcheck',
    hequation' _, ?_, hkey' _ _ rfl⟩
  · exact ((hopposite _ _ _ hcheck).1 hneg).resolve_left (by decide)
  · exact VerifyingKey.verifyPrehash_eq_ok_iff.2 ⟨_, messageNumber_toBytes _, by decide, hcheck⟩
  · exact (hflip _ _ hcheck 511 (by decide) (by decide)).2 ⟨rfl, Or.inl (by decide +kernel)⟩
  · exact VerifyingKey.verifyPrehash_eq_ok_iff.2 ⟨_, messageNumber_toBytes _, by decide, hcheck'⟩

end CurveSign
