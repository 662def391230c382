import CurveSign.Key.Verifying
import CurveSign.Proofs.Point.Decompress
import CurveSign.Proofs.Point.Multiple

namespace CurveSign

/-!
# Coordinates that reduce to a scalar

Since `n < p < 2n`, an x-coordinate that is `r` modulo `n` is `r` or `r + n`, and the second exists
for `r < p - n` only.  Checking a point against `r` tries both without a division
(`checkX_eq_ok_iff`), and recovery takes the one that its flag names (`recoverX_eq_ok_iff`).  An id
*names* a point for `r` if that is the one and the parity of y is right (`RecoveryId.Names`).  It names
one point at most, and with the same flag the other parity names the opposite point
(`RecoveryId.Names.eq_or_eq_neg`).
-/

/-- The order is below the prime. -/
theorem order_lt_coordinate : Modulus.order.toNat < Modulus.coordinate.toNat := by
  rw [Modulus.toNat_order, Modulus.toNat_coordinate]
  norm_num

/-- The prime is below twice the order, so an x-coordinate is reduced at most once. -/
theorem coordinate_lt_two_mul_order : Modulus.coordinate.toNat < 2 * Modulus.order.toNat := by
  rw [Modulus.toNat_order, Modulus.toNat_coordinate]
  norm_num

namespace FieldElement

/-- The constant is the difference of the prime and the order. -/
theorem toNat_primeLessOrder :
    primeLessOrder.toNat + Modulus.order.toNat = Modulus.coordinate.toNat := by
  rw [Modulus.toNat_order, Modulus.toNat_coordinate]
  decide

/-- Below `p - n` is where `n` can be added. -/
theorem compare_primeLessOrder_iff {x : FieldElement} :
    x.compare primeLessOrder = .lt ↔ x.toNat + Modulus.order.toNat < Modulus.coordinate.toNat := by
  have hsum := toNat_primeLessOrder
  rw [Residue.compare, Word256.compare_eq, Nat.compare_eq_lt]
  simp only [Residue.toNat] at *
  omega

/-- Adding the order does not wrap around where the sum is below the prime. -/
theorem toNat_add_order {x : FieldElement}
    (h : x.toNat + Modulus.order.toNat < Modulus.coordinate.toNat) :
    (x + order).toNat = x.toNat + Modulus.order.toNat := by
  rw [Residue.toNat_add]
  exact Nat.mod_eq_of_lt h

end FieldElement

namespace Scalar

/-- Every scalar is a coordinate as it stands. -/
theorem toCoordinate?_eq_some (r : Scalar) : ∃ x, r.toCoordinate? = some x ∧ x.toNat = r.toNat := by
  refine ⟨⟨r.word, r.toNat_lt.trans order_lt_coordinate⟩, ?_, rfl⟩
  exact Residue.ofWord256?_eq_some_iff.2 rfl

/-- Reducing a coordinate takes its remainder by the order. -/
theorem reduce_eq_iff {x : FieldElement} {r : Scalar} :
    (Residue.reduce x.word : Scalar) = r ↔ x.toNat % Modulus.order.toNat = r.toNat := by
  rw [← Residue.toNat_inj, Residue.toNat_reduce]
  rfl

/-- The coordinates that are `r` modulo `n`. -/
theorem mod_order_eq_iff {x : FieldElement} {r : Scalar} :
    x.toNat % Modulus.order.toNat = r.toNat
      ↔ x.toNat = r.toNat ∨ x.toNat = r.toNat + Modulus.order.toNat := by
  have hx := x.toNat_lt
  have hr := r.toNat_lt
  have hdouble := coordinate_lt_two_mul_order
  -- Only the bounds are used from here on, not the value of the order.
  generalize Modulus.order.toNat = n at *
  constructor
  · intro h
    rcases Nat.lt_or_ge x.toNat n with hlt | hge
    · rw [Nat.mod_eq_of_lt hlt] at h
      exact Or.inl h
    · rw [Nat.mod_eq_sub_mod hge, Nat.mod_eq_of_lt (by omega)] at h
      omega
  · rintro (h | h)
    · rw [h, Nat.mod_eq_of_lt hr]
    · rw [h, Nat.add_mod_right, Nat.mod_eq_of_lt hr]

end Scalar

/-- **The inversion-free comparison** accepts exactly the points whose x-coordinate reduces to `r`. -/
theorem checkX_eq_ok_iff {p : JacobianPoint} {r : Scalar} :
    checkX p r = .ok ()
      ↔ p.toAffine ≠ .identity ∧ p.toAffine.x.toNat % Modulus.order.toNat = r.toNat := by
  obtain ⟨x, hx, hvalue⟩ := r.toCoordinate?_eq_some
  unfold checkX
  by_cases hid : p.isIdentity = true
  · simp [hid, JacobianPoint.isIdentity_iff.1 hid]
  have hne : p.toAffine ≠ .identity := mt JacobianPoint.isIdentity_iff.2 hid
  have hhas : ∀ x', p.hasX x' = true ↔ p.toAffine.x.toNat = x'.toNat := by
    intro x'
    rw [JacobianPoint.hasX_iff, Residue.toNat_inj]
    exact ⟨fun h => h.2, fun h => ⟨hne, h⟩⟩
  rw [if_neg hid, hx, Scalar.mod_order_eq_iff, ← hvalue]
  dsimp only
  by_cases hequal : p.hasX x = true
  · simp [hequal, hne, (hhas x).1 hequal]
  rw [if_neg hequal]
  have hequal' := mt (hhas x).2 hequal
  by_cases hlt : x.compare FieldElement.primeLessOrder = .lt
  · rw [if_neg (not_not_intro hlt)]
    have hadd := FieldElement.toNat_add_order (FieldElement.compare_primeLessOrder_iff.1 hlt)
    by_cases hadded : p.hasX (x + FieldElement.order) = true
    · have hcoordinate := (hhas _).1 hadded
      rw [hadd] at hcoordinate
      simp [hadded, hne, hcoordinate]
    · have hcoordinate := mt (hhas _).2 hadded
      rw [hadd] at hcoordinate
      simp [hadded, hequal', hcoordinate]
  · -- The second candidate would not be below the prime.
    have hbound := p.toAffine.x.toNat_lt
    have hcoordinate : p.toAffine.x.toNat ≠ x.toNat + Modulus.order.toNat := by
      intro h
      exact hlt (FieldElement.compare_primeLessOrder_iff.2 (h ▸ hbound))
    simp [hlt, hequal', hcoordinate]

/-- Opposite points have one x-coordinate, so the comparison cannot tell them apart. -/
theorem checkX_eq_of_toAffine_eq_neg {p q : JacobianPoint} (h : q.toAffine = -p.toAffine)
    (r : Scalar) : checkX q r = checkX p r := by
  have hid : q.isIdentity = p.isIdentity := by
    rw [Bool.eq_iff_iff, JacobianPoint.isIdentity_iff, JacobianPoint.isIdentity_iff, h,
      AffinePoint.neg_eq_identity_iff]
  have hhas : ∀ x, q.hasX x = p.hasX x := by
    intro x
    rw [Bool.eq_iff_iff, JacobianPoint.hasX_iff, JacobianPoint.hasX_iff, h, Ne,
      AffinePoint.neg_eq_identity_iff, AffinePoint.x_neg]
  unfold checkX
  simp only [hid, hhas]

namespace VerifyingKey

/-- The flag tells the two candidates apart. -/
theorem recoverX_eq_ok_iff {r : Scalar} {xReduced : Bool} {x : FieldElement} :
    recoverX r xReduced = .ok x
      ↔ x.toNat % Modulus.order.toNat = r.toNat
        ∧ xReduced = decide (Modulus.order.toNat ≤ x.toNat) := by
  obtain ⟨x', hx', hvalue⟩ := r.toCoordinate?_eq_some
  have hr := r.toNat_lt
  unfold recoverX
  rw [hx', Scalar.mod_order_eq_iff, ← hvalue]
  rw [← hvalue] at hr
  dsimp only
  -- Without the flag x is r itself; with it the order is added, if that stays in the field.
  cases xReduced with
  | false =>
    rw [if_neg Bool.false_ne_true, Except.ok.injEq, ← Residue.toNat_inj, eq_comm (a := false),
      decide_eq_false_iff_not]
    omega
  | true =>
    rw [if_pos rfl, eq_comm (a := true), decide_eq_true_eq]
    by_cases hlt : x'.compare FieldElement.primeLessOrder = .lt
    · have hadd := FieldElement.toNat_add_order (FieldElement.compare_primeLessOrder_iff.1 hlt)
      rw [if_neg (not_not_intro hlt), Except.ok.injEq, ← Residue.toNat_inj, hadd]
      omega
    · have hbound := x.toNat_lt
      have hge := mt FieldElement.compare_primeLessOrder_iff.2 hlt
      rw [if_pos hlt]
      refine ⟨nofun, ?_⟩
      omega

end VerifyingKey

/-! ### Points named by an id -/

/-- The x-coordinate of a point as a number; zero for the identity. -/
def xNumber : CurvePoint → ℕ
  | .zero => 0
  | .some x _ _ => x.val

/-- The y-coordinate of a point as a number; zero for the identity. -/
def yNumber : CurvePoint → ℕ
  | .zero => 0
  | .some _ y _ => y.val

/-- Opposite points have one x-coordinate. -/
@[simp] theorem xNumber_neg (g : CurvePoint) : xNumber (-g) = xNumber g := by
  rcases g with _ | ⟨x, y, hxy⟩
  · rfl
  · rw [neg_some_eq]
    rfl

/-- An x-coordinate is below the prime. -/
theorem xNumber_lt (g : CurvePoint) : xNumber g < Modulus.coordinate.toNat := by
  rcases g with _ | ⟨x, y, hxy⟩
  · exact Residue.modulus_pos _
  · exact ZMod.val_lt x

/-- Opposite points have y-coordinates of different parity. -/
theorem yNumber_neg_mod_two {g : CurvePoint} (hg : g ≠ 0) : yNumber (-g) % 2 ≠ yNumber g % 2 := by
  rcases g with _ | ⟨x, y, hxy⟩
  · exact absurd rfl hg
  · rw [neg_some_eq]
    exact val_neg_mod_two (y_ne_zero (nonsingular_iff_sq_eq.1 hxy))

/-- The x-coordinate of a point, as a number. -/
theorem xNumber_toGroup {q : AffinePoint} (hq : q.OnCurve) : xNumber q.toGroup = q.x.toNat := by
  rcases q with _ | ⟨x, y⟩
  · rfl
  · rw [AffinePoint.toGroup_finite hq]
    exact Residue.val_toZMod x

/-- The y-coordinate of a point, as a number. -/
theorem yNumber_toGroup {q : AffinePoint} (hq : q.OnCurve) : yNumber q.toGroup = q.y.toNat := by
  rcases q with _ | ⟨x, y⟩
  · rfl
  · rw [AffinePoint.toGroup_finite hq]
    exact Residue.val_toZMod y

/-- The id names the point among those whose x-coordinate is `r` modulo `n`. -/
structure RecoveryId.Names (id : RecoveryId) (r : Scalar) (g : CurvePoint) : Prop where
  ne_zero : g ≠ 0
  xNumber_mod : xNumber g % Modulus.order.toNat = r.toNat
  yOdd_eq : id.yOdd = decide (yNumber g % 2 = 1)
  xReduced_eq : id.xReduced = decide (Modulus.order.toNat ≤ xNumber g)

namespace RecoveryId

variable {id id' : RecoveryId} {r : Scalar} {g : CurvePoint}

/-- A point has one id. -/
theorem Names.unique (h : id.Names r g) (h' : id'.Names r g) : id = id' := by
  rcases id with ⟨yOdd, xReduced⟩
  rcases id' with ⟨yOdd', xReduced'⟩
  obtain ⟨_, _, rfl, rfl⟩ := h
  obtain ⟨_, _, rfl, rfl⟩ := h'
  rfl

/-- The opposite point is named by the other parity. -/
theorem Names.neg (h : id.Names r g) : Names ⟨!id.yOdd, id.xReduced⟩ r (-g) := by
  have hne := yNumber_neg_mod_two h.ne_zero
  refine ⟨neg_ne_zero.2 h.ne_zero, ?_, ?_, ?_⟩
  · rw [xNumber_neg, h.xNumber_mod]
  · show (!id.yOdd) = _
    rw [h.yOdd_eq, ← decide_not, decide_eq_decide]
    omega
  · rw [xNumber_neg]
    exact h.xReduced_eq

/-- From `p - n` on, `r + n` is no x-coordinate. -/
theorem Names.xReduced_eq_false (h : id.Names r g)
    (hr : Modulus.coordinate.toNat - Modulus.order.toNat ≤ r.toNat) : id.xReduced = false := by
  have hx := xNumber_lt g
  have hdouble := coordinate_lt_two_mul_order
  have hmod := h.xNumber_mod
  rw [h.xReduced_eq, decide_eq_false_iff_not]
  intro hge
  rw [Nat.mod_eq_sub_mod hge, Nat.mod_eq_of_lt (by omega)] at hmod
  omega

/-- Some id names a point exactly if its x-coordinate is `r` modulo `n`. -/
theorem exists_names_iff :
    (∃ id : RecoveryId, id.Names r g) ↔ g ≠ 0 ∧ xNumber g % Modulus.order.toNat = r.toNat := by
  refine ⟨fun ⟨_, h⟩ => ⟨h.ne_zero, h.xNumber_mod⟩, fun h => ?_⟩
  exact ⟨⟨_, _⟩, h.1, h.2, rfl, rfl⟩

/-- The id of a point, by its coordinates. -/
theorem names_toGroup_iff {x y : FieldElement} (h : (AffinePoint.finite x y).OnCurve) :
    id.Names r (AffinePoint.finite x y).toGroup
      ↔ x.toNat % Modulus.order.toNat = r.toNat ∧ id.yOdd = y.isOdd
        ∧ id.xReduced = decide (Modulus.order.toNat ≤ x.toNat) := by
  have hne := mt (AffinePoint.toGroup_eq_zero_iff h).1 nofun
  have hx : xNumber (AffinePoint.finite x y).toGroup = x.toNat := xNumber_toGroup h
  have hy : yNumber (AffinePoint.finite x y).toGroup = y.toNat := yNumber_toGroup h
  rw [← hx, Residue.isOdd_eq, ← hy]
  exact ⟨fun hid => ⟨hid.xNumber_mod, hid.yOdd_eq, hid.xReduced_eq⟩,
    fun hid => ⟨hne, hid.1, hid.2.1, hid.2.2⟩⟩

/-- Some id names the point of the curve exactly if its x-coordinate is `r` modulo `n`. -/
theorem exists_names_toGroup_iff {q : AffinePoint} (h : q.OnCurve) :
    (∃ id : RecoveryId, id.Names r q.toGroup)
      ↔ q ≠ .identity ∧ q.x.toNat % Modulus.order.toNat = r.toNat := by
  rcases q with _ | ⟨x, y⟩
  · exact ⟨fun ⟨_, hid⟩ => absurd rfl hid.ne_zero, fun hx => absurd rfl hx.1⟩
  · constructor
    · rintro ⟨id, hid⟩
      exact ⟨nofun, ((names_toGroup_iff h).1 hid).1⟩
    · intro hx
      exact ⟨⟨_, _⟩, (names_toGroup_iff h).2 ⟨hx.2, rfl, rfl⟩⟩

end RecoveryId

/-- A triple passes the comparison if some id names the point that it stands for. -/
theorem JacobianPoint.Stands.checkX_eq_ok_iff {p : JacobianPoint} {g : CurvePoint} (h : p.Stands g)
    {r : Scalar} : checkX p r = .ok () ↔ ∃ id : RecoveryId, id.Names r g := by
  obtain ⟨hcurve, rfl⟩ := h.toAffine
  rw [CurveSign.checkX_eq_ok_iff, RecoveryId.exists_names_toGroup_iff hcurve]

namespace VerifyingKey

/-- The point is found in two steps, its x-coordinate first. -/
theorem recoverPoint_eq_ok_iff_exists {r : Scalar} {id : RecoveryId} {q : AffinePoint} :
    recoverPoint r id = .ok q
      ↔ ∃ x, recoverX r id.xReduced = .ok x ∧ AffinePoint.decompress x id.yOdd = some q := by
  unfold recoverPoint
  rw [Rejection.bind_eq_ok_iff]
  refine exists_congr fun x => and_congr_right fun _ => ?_
  cases AffinePoint.decompress x id.yOdd <;> simp

/-- **The point of a signature is recovered** if the id names it. -/
theorem recoverPoint_eq_ok_iff {r : Scalar} {id : RecoveryId} {q : AffinePoint} :
    recoverPoint r id = .ok q ↔ q.OnCurve ∧ id.Names r q.toGroup := by
  simp only [recoverPoint_eq_ok_iff_exists, recoverX_eq_ok_iff,
    AffinePoint.decompress_eq_some_iff_coordinates]
  -- The identity has no x-coordinate, and no id names it.
  rcases q with _ | ⟨x', y⟩
  · exact ⟨fun ⟨_, _, _, hne, _⟩ => absurd rfl hne, fun h => absurd rfl h.2.ne_zero⟩
  · constructor
    · rintro ⟨x, ⟨hx, hreduced⟩, hcurve, _, rfl, hparity⟩
      exact ⟨hcurve, (RecoveryId.names_toGroup_iff hcurve).2 ⟨hx, hparity.symm, hreduced⟩⟩
    · rintro ⟨hcurve, hid⟩
      obtain ⟨hx, hparity, hreduced⟩ := (RecoveryId.names_toGroup_iff hcurve).1 hid
      exact ⟨x', ⟨hx, hreduced⟩, hcurve, nofun, rfl, hparity.symm⟩

end VerifyingKey

/-! ### Points with the same id -/

namespace RecoveryId

variable {id id' : RecoveryId} {r : Scalar} {g g' : CurvePoint}

/-- An id names one point at most, the one that is recovered. -/
theorem Names.point_unique (h : id.Names r g) (h' : id.Names r g') : g = g' := by
  obtain ⟨q, hq, rfl⟩ := AffinePoint.exists_toGroup_eq g
  obtain ⟨q', hq', rfl⟩ := AffinePoint.exists_toGroup_eq g'
  have hrecover := VerifyingKey.recoverPoint_eq_ok_iff.2 ⟨hq, h⟩
  have hrecover' := VerifyingKey.recoverPoint_eq_ok_iff.2 ⟨hq', h'⟩
  rw [Except.ok.inj (hrecover.symm.trans hrecover')]

/-- **Points with the same flag** are equal or opposite. -/
theorem Names.eq_or_eq_neg (h : id.Names r g) (h' : id'.Names r g')
    (hflag : id'.xReduced = id.xReduced) : g' = g ∨ g' = -g := by
  rcases id with ⟨yOdd, xReduced⟩
  rcases id' with ⟨yOdd', xReduced'⟩
  obtain rfl : xReduced' = xReduced := hflag
  rcases Bool.eq_or_eq_not yOdd' yOdd with rfl | rfl
  · exact Or.inl (h'.point_unique h)
  · exact Or.inr (h'.point_unique h.neg)

end RecoveryId

end CurveSign
