import CurveSign.Proofs.Signature.Equation
import Mathlib.Data.Set.Card

namespace CurveSign

/-!
# A signature binds its message

There are at most four points whose x-coordinate is `r` modulo `n`, one for each id, and at most two if
`r + n` is no coordinate (`encard_pointsOver_le_four`, `encard_pointsOver_le_two`).  Under a fixed key a
signature commits to a different point for each number modulo `n`, and to every point for one of them
(`Signature.bijective_commitment`).  So it is accepted for as many numbers as there are such points
(`checkEquation_binds_message`).
-/

/-! ### Points over a scalar -/

/-- **Counting by labels**: if every element of a set has a label and no label belongs to two, there
    are no more elements than labels. -/
theorem encard_le_card_of_label {α β : Type} [Fintype β] {S : Set α} (label : α → β → Prop)
    (hlabel : ∀ a ∈ S, ∃ b, label a b) (hunique : ∀ a a' b, label a b → label a' b → a = a') :
    S.encard ≤ Fintype.card β := by
  choose f hf using hlabel
  have hinj : Function.Injective fun a : S => f a a.2 := by
    intro a a' h
    have ha := hf a a.2
    rw [show f a a.2 = f a' a'.2 from h] at ha
    exact Subtype.ext (hunique _ _ _ ha (hf a' a'.2))
  rw [← ENat.card_eq_coe_fintype_card]
  exact ENat.card_le_card_of_injective hinj

/-- The points whose x-coordinate is `r` modulo `n`. -/
def pointsOver (r : Scalar) : Set CurvePoint :=
  {g | g ≠ 0 ∧ xNumber g % Modulus.order.toNat = r.toNat}

/-- The points with an x-coordinate are those that an id names. -/
theorem mem_pointsOver_iff {r : Scalar} {g : CurvePoint} :
    g ∈ pointsOver r ↔ ∃ id : RecoveryId, id.Names r g :=
  RecoveryId.exists_names_iff.symm

/-- There is a point for each id at most. -/
theorem encard_pointsOver_le_four (r : Scalar) : (pointsOver r).encard ≤ 4 := by
  apply encard_le_card_of_label fun g (id : Bool × Bool) => RecoveryId.Names ⟨id.1, id.2⟩ r g
  · intro g hg
    obtain ⟨id, hid⟩ := mem_pointsOver_iff.1 hg
    exact ⟨⟨id.yOdd, id.xReduced⟩, hid⟩
  · intro g g' id h h'
    exact h.point_unique h'

/-- From `p - n` on the parity tells the points apart. -/
theorem encard_pointsOver_le_two {r : Scalar}
    (hr : Modulus.coordinate.toNat - Modulus.order.toNat ≤ r.toNat) : (pointsOver r).encard ≤ 2 := by
  apply encard_le_card_of_label fun g (yOdd : Bool) => RecoveryId.Names ⟨yOdd, false⟩ r g
  · intro g hg
    obtain ⟨⟨yOdd, xReduced⟩, hid⟩ := mem_pointsOver_iff.1 hg
    obtain rfl : xReduced = false := hid.xReduced_eq_false hr
    exact ⟨yOdd, hid⟩
  · intro g g' yOdd h h'
    exact h.point_unique h'

/-- What is accepted commits to one of the points over `r`. -/
theorem checkEquation_iff_mem_pointsOver {q : AffinePoint} (hq : q.OnCurve) {z : Word256}
    {sig : Signature} : checkEquation q z sig = .ok ()
      ↔ sig.r ≠ 0 ∧ sig.s ≠ 0 ∧ sig.noncePoint z q.toGroup ∈ pointsOver sig.r := by
  rw [checkEquation_eq_ok_iff hq, mem_pointsOver_iff]
  constructor
  · rintro ⟨id, h⟩
    exact ⟨h.r_ne_zero, h.s_ne_zero, id, h.names⟩
  · rintro ⟨hr, hs, id, h⟩
    exact ⟨id, hr, hs, h⟩

/-! ### Numbers and points -/

namespace Signature

/-- The point that a signature of a number modulo `n` under a key commits to. -/
def commitment (sig : Signature) (g : CurvePoint) (c : ZMod Modulus.order.toNat) : CurvePoint :=
  sig.s.toZMod⁻¹ • (c • basePoint + sig.r.toZMod • g)

/-- The commitment to a number is the point that the signature commits to. -/
theorem commitment_natCast (sig : Signature) (g : CurvePoint) (z : Word256) :
    sig.commitment g z.toNat = sig.noncePoint z g :=
  (noncePoint_eq_smul sig z g).symm

/-- **Each point belongs to one number modulo `n`**, since there are as many points as numbers. -/
theorem bijective_commitment {sig : Signature} (hs : sig.s ≠ 0) (g : CurvePoint) :
    Function.Bijective (sig.commitment g) := by
  have hs' : sig.s.toZMod ≠ 0 := mt Residue.toZMod_eq_zero_iff.1 hs
  have hinj : Function.Injective (sig.commitment g) := by
    intro c c' h
    have hmultiple := add_right_cancel (smul_right_injective _ (inv_ne_zero hs') h)
    exact smul_left_injective _ basePoint_ne_zero hmultiple
  apply hinj.bijective_of_nat_card_le
  rw [card_curvePoint, Nat.card_zmod]

end Signature

/-! ### Accepted signatures -/

/-- A signature is accepted if its components solve the equation for a point whose x-coordinate is `r`
    modulo `n`. -/
theorem checkEquation_of_smul_eq {q point : AffinePoint} {z : Word256} {sig : Signature}
    (hq : q.OnCurve) (hpoint : point.OnCurve) (hr : sig.r ≠ 0) (hs : sig.s ≠ 0)
    (heq : (z.toNat : ZMod Modulus.order.toNat) • basePoint + sig.r.toZMod • q.toGroup
      = sig.s.toZMod • point.toGroup)
    (hx : point ≠ .identity ∧ point.x.toNat % Modulus.order.toNat = sig.r.toNat) :
    checkEquation q z sig = .ok () := by
  have hs' : sig.s.toZMod ≠ 0 := mt Residue.toZMod_eq_zero_iff.1 hs
  have hcommits : sig.noncePoint z q.toGroup = point.toGroup := by
    rw [Signature.noncePoint_eq_smul, inv_smul_eq_iff₀ hs', heq]
  rw [checkEquation_eq_ok_iff_of_ne_zero hq z hr hs, hcommits]
  exact (RecoveryId.exists_names_toGroup_iff hpoint).2 hx

/-- Under the base point as the key, its x-coordinate and any `s` other than zero sign the number
    `s - r`. -/
theorem checkEquation_generator_sub {s : Scalar} (hs : s ≠ 0) :
    checkEquation AffinePoint.generator (s - Scalar.generatorX).word ⟨Scalar.generatorX, s⟩
      = .ok () := by
  have hcurve := JacobianPoint.onCurve_generator
  have hr : Scalar.generatorX ≠ 0 := by decide
  have hx : (Residue.reduce AffinePoint.generatorX.word : Scalar) = Scalar.generatorX := by
    decide +kernel
  refine checkEquation_of_smul_eq hcurve hcurve hr hs ?_ ⟨nofun, Scalar.reduce_eq_iff.1 hx⟩
  have hnumber : ((s - Scalar.generatorX).word.toNat : ZMod Modulus.order.toNat)
      = s.toZMod - Scalar.generatorX.toZMod := Residue.toZMod_sub s Scalar.generatorX
  rw [hnumber, JacobianPoint.toGroup_generator, ← add_smul, sub_add_cancel]

/-- Under any key its x-coordinate modulo `n`, twice, is a signature of zero. -/
theorem checkEquation_zero {q : AffinePoint} (hq : q.OnCurve) {r : Scalar} (hr : r ≠ 0)
    (hx : q ≠ .identity ∧ q.x.toNat % Modulus.order.toNat = r.toNat) :
    checkEquation q Word256.zero ⟨r, r⟩ = .ok () := by
  refine checkEquation_of_smul_eq hq hq hr hr ?_ hx
  rw [Word256.toNat_zero, natCast_smul, zero_nsmul, zero_add]

/-! ### Accepted numbers -/

/-- The verdict depends on the number modulo `n` only. -/
theorem checkEquation_congr {z z' : Word256}
    (h : (z.toNat : ZMod Modulus.order.toNat) = z'.toNat) (q : AffinePoint) (sig : Signature) :
    checkEquation q z sig = checkEquation q z' sig := by
  have hreduce : (Residue.reduce z : Scalar) = Residue.reduce z' :=
    Residue.reduce_eq_reduce_iff.2 h
  unfold checkEquation
  rw [hreduce]

/-- The numbers modulo `n` for which the signature is accepted under the key. -/
def acceptedNumbers (q : AffinePoint) (sig : Signature) : Set (ZMod Modulus.order.toNat) :=
  {c | ∃ z : Word256, (z.toNat : ZMod Modulus.order.toNat) = c ∧ checkEquation q z sig = .ok ()}

/-- A number is accepted if it commits to one of the points that have `r` for their x-coordinate. -/
theorem acceptedNumbers_eq_preimage {q : AffinePoint} (hq : q.OnCurve) {sig : Signature}
    (hr : sig.r ≠ 0) (hs : sig.s ≠ 0) :
    acceptedNumbers q sig = Set.preimage (sig.commitment q.toGroup) (pointsOver sig.r) := by
  ext c
  rw [Set.mem_preimage]
  constructor
  · rintro ⟨z, rfl, hcheck⟩
    rw [Signature.commitment_natCast]
    exact ((checkEquation_iff_mem_pointsOver hq).1 hcheck).2.2
  · intro hpoint
    -- Every class of message numbers has one that is reduced.
    obtain ⟨a, rfl⟩ := Residue.exists_toZMod_eq c
    refine ⟨a.word, rfl, (checkEquation_iff_mem_pointsOver hq).2 ⟨hr, hs, ?_⟩⟩
    rw [← Signature.commitment_natCast]
    exact hpoint

/-- There are as many accepted numbers as points over `r`. -/
theorem encard_acceptedNumbers {q : AffinePoint} (hq : q.OnCurve) {sig : Signature} (hr : sig.r ≠ 0)
    (hs : sig.s ≠ 0) : (acceptedNumbers q sig).encard = (pointsOver sig.r).encard := by
  rw [acceptedNumbers_eq_preimage hq hr hs]
  exact Set.encard_preimage_of_bijective (Signature.bijective_commitment hs _) _

/-- There are no more numbers than points, for a signature with a zero as well, which none satisfies. -/
theorem encard_acceptedNumbers_le {q : AffinePoint} (hq : q.OnCurve) (sig : Signature) :
    (acceptedNumbers q sig).encard ≤ (pointsOver sig.r).encard := by
  rcases (acceptedNumbers q sig).eq_empty_or_nonempty with hempty | ⟨c, z, _, hcheck⟩
  · rw [hempty, Set.encard_empty]
    exact zero_le
  · obtain ⟨hr, hs, _⟩ := (checkEquation_iff_mem_pointsOver hq).1 hcheck
    exact (encard_acceptedNumbers hq hr hs).le

/-- **A signature binds its message**: whether it is accepted depends on the number modulo `n` only.
    If its components are not zero, it is accepted for as many numbers modulo `n` as there are points
    over `r`; at most two from `p - n` on, and at most four below. -/
theorem checkEquation_binds_message (q : AffinePoint) (hq : q.OnCurve) (sig : Signature) :
    (∀ z z' : Word256, (z.toNat : ZMod Modulus.order.toNat) = z'.toNat →
      checkEquation q z sig = checkEquation q z' sig)
    ∧ (sig.r ≠ 0 → sig.s ≠ 0 → (acceptedNumbers q sig).encard = (pointsOver sig.r).encard)
    ∧ (Modulus.coordinate.toNat - Modulus.order.toNat ≤ sig.r.toNat →
      (acceptedNumbers q sig).encard ≤ 2)
    ∧ (sig.r.toNat < Modulus.coordinate.toNat - Modulus.order.toNat →
      (acceptedNumbers q sig).encard ≤ 4) := by
  have hle := encard_acceptedNumbers_le hq sig
  refine ⟨?_, ?_, ?_, ?_⟩
  · intro z z' h
    exact checkEquation_congr h q sig
  · -- The numbers that are accepted correspond to the points over r.
    intro hr hs
    exact encard_acceptedNumbers hq hr hs
  · intro hr
    exact hle.trans (encard_pointsOver_le_two hr)
  · intro _
    exact hle.trans (encard_pointsOver_le_four sig.r)

/-- A key whose x-coordinate is `n + 2`. -/
def VerifyingKey.aboveOrder : VerifyingKey where
  x := ⟨⟨0xBFD25E8CD0364143, 0xBAAEDCE6AF48A03B, 0xFFFFFFFFFFFFFFFE, 0xFFFFFFFFFFFFFFFF⟩, by decide⟩
  y := ⟨⟨0x395064453269D1D3, 0xD8EACDAB8772268B, 0x3025CBCBEA9740EE, 0x36B1AA62EB77C197⟩, by decide⟩

theorem VerifyingKey.onCurve_aboveOrder : aboveOrder.toAffine.OnCurve :=
  .finite (isOnCurve_iff.1 (by decide +kernel))

/-- A signature of zero whose point has an x-coordinate above the order. -/
theorem checkEquation_aboveOrder :
    checkEquation VerifyingKey.aboveOrder.toAffine Word256.zero
      ⟨Residue.ofWord 2, Residue.ofWord 2⟩ = .ok () :=
  checkEquation_zero VerifyingKey.onCurve_aboveOrder (by decide)
    ⟨nofun, Scalar.reduce_eq_iff.1 (by decide +kernel)⟩

/-- The x-coordinate of the base point has no second representation. -/
theorem primeLessOrder_le_generatorX :
    Modulus.coordinate.toNat - Modulus.order.toNat ≤ Scalar.generatorX.toNat := by
  rw [Modulus.toNat_coordinate, Modulus.toNat_order]
  decide +kernel

/-- Two has one, since `n + 2` is below the prime. -/
theorem two_lt_primeLessOrder :
    (Residue.ofWord 2 : Scalar).toNat < Modulus.coordinate.toNat - Modulus.order.toNat := by
  rw [Modulus.toNat_coordinate, Modulus.toNat_order]
  decide +kernel

/-- Numbers are accepted on both sides of `p - n`: under the base point for its x-coordinate, and
    under a key above the order for two, where the order is accepted with zero. -/
theorem checkEquation_binds_message_aboveOrder :
    (AffinePoint.generator.OnCurve
      ∧ Scalar.generatorX ≠ 0 ∧ (1 : Scalar) ≠ 0
      ∧ Modulus.coordinate.toNat - Modulus.order.toNat ≤ Scalar.generatorX.toNat
      ∧ (acceptedNumbers AffinePoint.generator ⟨Scalar.generatorX, 1⟩).Nonempty
      ∧ (acceptedNumbers AffinePoint.generator ⟨Scalar.generatorX, 1⟩).encard
        = (pointsOver Scalar.generatorX).encard
      ∧ (acceptedNumbers AffinePoint.generator ⟨Scalar.generatorX, 1⟩).encard ≤ 2)
    ∧ VerifyingKey.aboveOrder.toAffine.OnCurve
      ∧ (Residue.ofWord 2 : Scalar).toNat < Modulus.coordinate.toNat - Modulus.order.toNat
      ∧ (Word256.zero.toNat : ZMod Modulus.order.toNat) = Modulus.order.word.toNat
      ∧ checkEquation VerifyingKey.aboveOrder.toAffine Modulus.order.word
        ⟨Residue.ofWord 2, Residue.ofWord 2⟩ = .ok ()
      ∧ (acceptedNumbers VerifyingKey.aboveOrder.toAffine
        ⟨Residue.ofWord 2, Residue.ofWord 2⟩).Nonempty
      ∧ (acceptedNumbers VerifyingKey.aboveOrder.toAffine
        ⟨Residue.ofWord 2, Residue.ofWord 2⟩).encard ≤ 4 := by
  have hcurve := JacobianPoint.onCurve_generator
  have hr : Scalar.generatorX ≠ 0 := by decide
  have hs : (1 : Scalar) ≠ 0 := by decide
  have hlarge := primeLessOrder_le_generatorX
  obtain ⟨_, hcount, htwo, _⟩ := checkEquation_binds_message _ hcurve ⟨Scalar.generatorX, 1⟩
  have hcurve' := VerifyingKey.onCurve_aboveOrder
  have hsmall := two_lt_primeLessOrder
  have horder : (Word256.zero.toNat : ZMod Modulus.order.toNat) = Modulus.order.word.toNat := by
    rw [Word256.toNat_zero, Nat.cast_zero]
    exact (ZMod.natCast_self Modulus.order.toNat).symm
  obtain ⟨hcongr, _, _, hfour⟩ :=
    checkEquation_binds_message _ hcurve' ⟨Residue.ofWord 2, Residue.ofWord 2⟩
  refine ⟨⟨hcurve, hr, hs, hlarge, ⟨_, _, rfl, checkEquation_generator_sub hs⟩, hcount hr hs,
    htwo hlarge⟩, hcurve', hsmall, horder, ?_, ⟨_, _, rfl, checkEquation_aboveOrder⟩, hfour hsmall⟩
  rw [← hcongr _ _ horder]
  exact checkEquation_aboveOrder

end CurveSign
