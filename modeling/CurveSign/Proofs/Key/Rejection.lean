import CurveSign.Proofs.Key.LowForm
import CurveSign.Proofs.Key.Recovery
import CurveSign.Proofs.Log

namespace CurveSign

/-!
# Every rejection has its reason

What the equation, a verifying key and recovery check, in order and in terms of the group, with the
event of each check (`equationChecks`, `verifyChecks`, `recoverChecks`).  They report the first of their
checks that fails (`follows_checkEquation`, `VerifyingKey.follows_verifyPrehash`,
`VerifyingKey.follows_recoverPrehash`), and never refuse in silence: a scalar is a coordinate as it
stands, one that is not zero has an inverse, and a key that recovery has solved for passes the equation.
What their runs have in the log is just that.
-/

variable {q : AffinePoint} {key : VerifyingKey} {prehash : List UInt8} {z : Word256}
  {sig : Signature} {r : Scalar} {id : RecoveryId} {g : CurvePoint}

/-! ### The equation -/

/-- The checks of a point that should have `r` for its x-coordinate modulo `n`. -/
def pointChecks (r : Scalar) (g : CurvePoint) : List Check :=
  [⟨g = 0, ⟨"u1·G + u2·Q is the identity", []⟩⟩,
    ⟨xNumber g ≠ r.toNat ∧ Modulus.coordinate.toNat - Modulus.order.toNat ≤ r.toNat,
      ⟨"R.x does not match r", []⟩⟩,
    ⟨xNumber g ≠ r.toNat ∧ xNumber g ≠ r.toNat + Modulus.order.toNat,
      ⟨"R.x does not match r or r + n", []⟩⟩]

/-- A component is zero. -/
def zeroCheck (sig : Signature) : Check :=
  ⟨sig.r = 0 ∨ sig.s = 0, ⟨"signature has a zero component", []⟩⟩

/-- The checks of the equation, for the point that the signature commits to. -/
def equationChecks (sig : Signature) (g : CurvePoint) : List Check :=
  zeroCheck sig :: pointChecks sig.r g

/-- Asking a triple for an x-coordinate asks the point that it stands for. -/
theorem JacobianPoint.Stands.hasX_iff {p : JacobianPoint} (h : p.Stands g) (hg : g ≠ 0)
    {x : FieldElement} : p.hasX x = true ↔ xNumber g = x.toNat := by
  obtain ⟨hcurve, rfl⟩ := h.toAffine
  rw [JacobianPoint.hasX_iff, xNumber_toGroup hcurve, Residue.toNat_inj]
  refine and_iff_right ?_
  exact mt (AffinePoint.toGroup_eq_zero_iff hcurve).2 hg

/-- The comparison follows the checks of the point that the triple stands for. -/
theorem JacobianPoint.Stands.follows_checkX {p : JacobianPoint} (h : p.Stands g) (r : Scalar) :
    Follows (checkX p r) (pointChecks r g) := by
  obtain ⟨x, hx, hvalue⟩ := r.toCoordinate?_eq_some
  unfold checkX
  rw [hx]
  refine follows_ite h.isIdentity_iff rfl fun hid => ?_
  have hg : g ≠ 0 := mt h.isIdentity_iff.2 hid
  have hlarge : x.compare FieldElement.primeLessOrder ≠ .lt
      ↔ Modulus.coordinate.toNat - Modulus.order.toNat ≤ r.toNat := by
    rw [Ne, FieldElement.compare_primeLessOrder_iff, hvalue]
    omega
  dsimp only
  -- A match with `r` or with `r + n` ends the comparison, and what is left of the checks does not fail.
  by_cases hmatch : p.hasX x = true
  · have hnumber := (h.hasX_iff hg).1 hmatch
    rw [if_pos hmatch]
    exact .of_not_fails (fun hfails => hfails.1 (hnumber.trans hvalue))
      (.of_not_fails (fun hfails => hfails.1 (hnumber.trans hvalue)) ⟨(), rfl⟩)
  · have hother := mt (h.hasX_iff hg).2 hmatch
    rw [hvalue] at hother
    rw [if_neg hmatch]
    refine follows_ite (hlarge.trans (and_iff_right hother).symm) rfl fun hsmall => ?_
    rw [not_not] at hsmall
    have hadd := FieldElement.toNat_add_order (FieldElement.compare_primeLessOrder_iff.1 hsmall)
    by_cases hsecond : p.hasX (x + FieldElement.order) = true
    · have hnumber := (h.hasX_iff hg).1 hsecond
      rw [hadd, hvalue] at hnumber
      rw [if_pos hsecond]
      exact .of_not_fails (fun hfails => hfails.2 hnumber) ⟨(), rfl⟩
    · have hneither := mt (h.hasX_iff hg).2 hsecond
      rw [hadd, hvalue] at hneither
      rw [if_neg hsecond]
      exact follows_error ⟨hother, hneither⟩ rfl

/-- **The equation** reports the first of its checks that fails. -/
theorem follows_checkEquation (hq : q.OnCurve) (z : Word256) (sig : Signature) :
    Follows (checkEquation q z sig) (equationChecks sig (sig.noncePoint z q.toGroup)) := by
  by_cases hzero : sig.r = 0 ∨ sig.s = 0
  · rw [checkEquation_of_zero q z hzero]
    exact follows_error hzero rfl
  · obtain ⟨hr, hs⟩ := not_or.1 hzero
    obtain ⟨p, hp, hcheck⟩ := exists_checkEquation_eq_checkX hq z hr hs
    rw [hcheck]
    exact .of_not_fails hzero (hp.follows_checkX sig.r)

/-- Whatever the point and the triple, the comparison has a reason for a refusal. -/
theorem oneReason_checkX (p : JacobianPoint) (r : Scalar) : OneReason (checkX p r) := by
  obtain ⟨x, hx, -⟩ := r.toCoordinate?_eq_some
  unfold checkX
  rw [hx]
  dsimp only
  split_ifs
  · exact oneReason_error rfl
  · exact oneReason_ok ()
  · exact oneReason_error rfl
  · exact oneReason_ok ()
  · exact oneReason_error rfl

/-- A scalar other than zero has an inverse, so its absence is never a reason. -/
theorem Scalar.exists_invertByEuclid?_eq {k : Scalar} (hk : k ≠ 0) :
    ∃ t, k.invertByEuclid? = some t := by
  obtain ⟨t, ht, -⟩ := Scalar.invertByEuclid?_eq_some (mt Residue.toZMod_eq_zero_iff.1 hk)
  exact ⟨t, ht⟩

/-- The equation has a reason for a refusal, on the curve or not. -/
theorem oneReason_checkEquation (q : AffinePoint) (z : Word256) (sig : Signature) :
    OneReason (checkEquation q z sig) := by
  by_cases hzero : sig.r = 0 ∨ sig.s = 0
  · rw [checkEquation_of_zero q z hzero]
    exact oneReason_error rfl
  · obtain ⟨t, ht⟩ := Scalar.exists_invertByEuclid?_eq (not_or.1 hzero).2
    unfold checkEquation
    rw [if_neg (mt Signature.isZero_or_iff.1 hzero), ht]
    exact oneReason_checkX _ _

/-! ### Verifying keys -/

/-- The number that the first 32 bytes of a hash stand for. -/
def hashNumber (prehash : List UInt8) : Word256 := Word256.ofNat (BigEndian.decode (prehash.take 32))

/-- The hash is of fewer than 16 bytes. -/
def lengthCheck (prehash : List UInt8) : Check :=
  ⟨prehash.length < 16, ⟨"prehash too short", [("len", prehash.length)]⟩⟩

/-- The checks of a verifying key. -/
def verifyChecks (prehash : List UInt8) (sig : Signature) (g : CurvePoint) : List Check :=
  lengthCheck prehash
    :: ⟨(Modulus.order.toNat - 1) / 2 < sig.s.toNat, ⟨"signature is not low-S", []⟩⟩
    :: equationChecks sig (sig.noncePoint (hashNumber prehash) g)

/-- Taking the number of a hash is one check in front of what is done with it. -/
theorem messageNumber_bind {α : Type} (prehash : List UInt8) (f : Word256 → Except Rejection α) :
    messageNumber prehash >>= f = if prehash.length < 16 then .error (.prehashTooShort prehash.length)
      else f (hashNumber prehash) := by
  unfold messageNumber
  split_ifs <;> rfl

namespace VerifyingKey

/-- **A key** reports the first of its checks that fails. -/
theorem follows_verifyPrehash (hkey : key.toAffine.OnCurve) (prehash : List UInt8) (sig : Signature) :
    Follows (key.verifyPrehash prehash sig) (verifyChecks prehash sig key.toAffine.toGroup) := by
  unfold verifyPrehash
  rw [messageNumber_bind]
  refine follows_ite Iff.rfl rfl fun _ => ?_
  refine follows_ite (Signature.not_isLow_iff.symm.trans Nat.not_le) rfl fun _ => ?_
  exact follows_checkEquation hkey (hashNumber prehash) sig

/-- A key has a reason for a refusal, on the curve or not. -/
theorem oneReason_verifyPrehash (key : VerifyingKey) (prehash : List UInt8) (sig : Signature) :
    OneReason (key.verifyPrehash prehash sig) := by
  unfold verifyPrehash
  rw [messageNumber_bind]
  split_ifs
  · exact oneReason_error rfl
  · exact oneReason_error rfl
  · exact oneReason_checkEquation _ _ _

end VerifyingKey

/-! ### Recovery -/

/-- The number that the id takes for the x-coordinate of `R`: `r` or `r + n`. -/
def RecoveryId.xOf (id : RecoveryId) (r : Scalar) : ℕ :=
  r.toNat + if id.xReduced then Modulus.order.toNat else 0

/-- The key `r⁻¹ · (s · R - z · G)` in the group. -/
def Signature.keyPoint (sig : Signature) (z : Word256) (point : CurvePoint) : CurvePoint :=
  sig.r.toZMod⁻¹ • (sig.s.toZMod • point - (z.toNat : ZMod Modulus.order.toNat) • basePoint)

/-- The sum `r + n` is no coordinate. -/
def reducedCheck (r : Scalar) (id : RecoveryId) : Check :=
  ⟨id.xReduced = true ∧ Modulus.coordinate.toNat - Modulus.order.toNat ≤ r.toNat,
    ⟨"r + n is not a field element", []⟩⟩

/-- No point of the curve has the x-coordinate. -/
def noPointCheck (r : Scalar) (id : RecoveryId) : Check :=
  ⟨∀ y : Coordinate, y ^ 2 ≠ (id.xOf r : Coordinate) ^ 3 + 7,
    ⟨"no curve point for recovered R.x", []⟩⟩

/-- The point that the id names leads to the identity. -/
def identityCheck (z : Word256) (sig : Signature) (id : RecoveryId) : Check :=
  ⟨∃ point, id.Names sig.r point ∧ sig.keyPoint z point = 0,
    ⟨"verifying key is the identity", []⟩⟩

/-- The checks of recovery. -/
def recoverChecks (prehash : List UInt8) (sig : Signature) (id : RecoveryId) : List Check :=
  [lengthCheck prehash, zeroCheck sig, reducedCheck sig.r id, noPointCheck sig.r id,
    identityCheck (hashNumber prehash) sig id]

/-- No point is found if and only if the equation has no root. -/
theorem AffinePoint.decompress_eq_none_iff {x : FieldElement} {yOdd : Bool} :
    decompress x yOdd = none ↔ ∀ y : Coordinate, y ^ 2 ≠ x.toZMod ^ 3 + 7 := by
  constructor
  · intro hnone y hy
    obtain ⟨y, rfl⟩ := Residue.exists_toZMod_eq y
    obtain ⟨q, hq⟩ := decompress_complete (.finite hy) yOdd
    exact nomatch hnone.symm.trans hq
  · intro h
    -- A point that was found would have such a y-coordinate.
    by_contra hsome
    obtain ⟨q, hq⟩ := Option.ne_none_iff_exists'.1 hsome
    obtain ⟨hcurve, hne, rfl, -⟩ := decompress_eq_some_iff_coordinates.1 hq
    rcases q with _ | ⟨x, y⟩
    · exact hne rfl
    · exact h y.toZMod (onCurve_finite_iff.1 hcurve)

namespace VerifyingKey

variable {point : AffinePoint}

/-- The x-coordinate is found unless `r + n` is no coordinate. -/
theorem recoverX_cases (r : Scalar) (id : RecoveryId) :
    ((reducedCheck r id).fails ∧ recoverX r id.xReduced = .error .reducedXOutOfRange)
    ∨ (¬ (reducedCheck r id).fails
      ∧ ∃ x, recoverX r id.xReduced = .ok x ∧ x.toNat = id.xOf r) := by
  obtain ⟨x, hx, hvalue⟩ := r.toCoordinate?_eq_some
  unfold recoverX reducedCheck RecoveryId.xOf
  rw [hx, ← hvalue]
  dsimp only
  -- Only an id with the flag adds the order, and only that can leave the field.
  cases id.xReduced with
  | false => exact .inr ⟨fun h => Bool.false_ne_true h.1, x, rfl, rfl⟩
  | true =>
    by_cases hlt : x.compare FieldElement.primeLessOrder = .lt
    · have hfits := FieldElement.compare_primeLessOrder_iff.1 hlt
      refine .inr ⟨fun h => ?_, x + FieldElement.order, ?_, FieldElement.toNat_add_order hfits⟩
      · have hlarge := h.2
        omega
      · rw [if_pos rfl, if_neg (not_not_intro hlt)]
    · have hlarge := mt FieldElement.compare_primeLessOrder_iff.2 hlt
      refine .inl ⟨⟨rfl, by omega⟩, ?_⟩
      rw [if_pos rfl, if_pos hlt]

/-- Finding the point makes two checks in front of what is done with it. -/
theorem follows_recoverPoint_bind {α : Type} {f : AffinePoint → Except Rejection α}
    {rest : List Check} (h : ∀ point, recoverPoint r id = .ok point → Follows (f point) rest) :
    Follows (recoverPoint r id >>= f) (reducedCheck r id :: noPointCheck r id :: rest) := by
  obtain ⟨hfails, herror⟩ | ⟨hfits, x, hx, hvalue⟩ := recoverX_cases r id
  · have hrecover : recoverPoint r id = .error .reducedXOutOfRange := by
      rw [recoverPoint, herror]
      rfl
    rw [hrecover]
    exact follows_error hfails rfl
  · refine .of_not_fails hfits ?_
    have hcoordinate : (id.xOf r : Coordinate) = x.toZMod := by
      rw [Residue.toZMod, hvalue]
    have hnone : AffinePoint.decompress x id.yOdd = none ↔ (noPointCheck r id).fails := by
      rw [AffinePoint.decompress_eq_none_iff, ← hcoordinate]
      rfl
    -- The coordinate is settled; what is left is whether the curve has a point over it.
    cases hpoint : AffinePoint.decompress x id.yOdd with
    | none =>
      have hrecover : recoverPoint r id = .error .noPointWithX := by
        unfold recoverPoint
        rw [hx, ok_bind, hpoint]
      rw [hrecover]
      exact follows_error (hnone.1 hpoint) rfl
    | some point =>
      have hrecover := recoverPoint_eq_ok_iff_exists.2 ⟨x, hx, hpoint⟩
      rw [hrecover]
      refine .of_not_fails (mt hnone.2 ?_) (h point hrecover)
      rw [hpoint]
      exact Option.some_ne_none point

/-- Solving for the key fails for the identity only. -/
theorem solveKey_cases (point : AffinePoint) (z : Word256) (hr : sig.r ≠ 0) :
    (∃ key, solveKey point z sig = .ok key) ∨ solveKey point z sig = .error .identityKey := by
  obtain ⟨t, ht⟩ := Scalar.exists_invertByEuclid?_eq hr
  unfold solveKey
  rw [ht]
  dsimp only
  cases (JacobianPoint.combine (-(t * Residue.reduce z)) (t * sig.s)
    (JacobianPoint.ofAffine point)).toAffine with
  | identity => exact .inr rfl
  | finite x y => exact .inl ⟨_, rfl⟩

/-- Solving for the key makes one check. -/
theorem follows_solveKey (hr : sig.r ≠ 0) (hpoint : recoverPoint sig.r id = .ok point)
    (z : Word256) : Follows (solveKey point z sig) [identityCheck z sig id] := by
  obtain ⟨hcurve, hnames⟩ := recoverPoint_eq_ok_iff.1 hpoint
  obtain ⟨key, hkey⟩ | herror := solveKey_cases point z hr
  · rw [hkey]
    refine .of_not_fails ?_ ⟨key, rfl⟩
    rintro ⟨g, hg, hzero⟩
    -- The id names no other point, and a key is not the identity.
    obtain rfl := hg.point_unique hnames
    obtain ⟨hcurve', hgroup⟩ := (solveKey_eq_ok_iff hcurve hr).1 hkey
    exact nomatch (AffinePoint.toGroup_eq_zero_iff hcurve').1 (hgroup.trans hzero)
  · rw [herror]
    refine follows_error ⟨_, hnames, ?_⟩ rfl
    -- Any other point would be a key.
    obtain ⟨q, hq, hgroup⟩ := AffinePoint.exists_toGroup_eq (sig.keyPoint z point.toGroup)
    rcases q with _ | ⟨x, y⟩
    · exact hgroup.symm
    · have hkey : solveKey point z sig = .ok ⟨x, y⟩ :=
        (solveKey_eq_ok_iff hcurve hr).2 ⟨hq, hgroup⟩
      exact nomatch herror.symm.trans hkey

/-- **The last verification never fails**: a key that was solved for satisfies the equation. -/
theorem checkEquation_of_solveKey (hr : sig.r ≠ 0) (hs : sig.s ≠ 0)
    (hpoint : recoverPoint sig.r id = .ok point) (hkey : solveKey point z sig = .ok key) :
    checkEquation key.toAffine z sig = .ok () := by
  obtain ⟨hcurve, hnames⟩ := recoverPoint_eq_ok_iff.1 hpoint
  obtain ⟨hcurve', hgroup⟩ := (solveKey_eq_ok_iff hcurve hr).1 hkey
  rw [checkEquation_eq_ok_iff hcurve']
  refine ⟨id, hr, hs, ?_⟩
  rw [(Signature.noncePoint_eq_iff hr hs).2 hgroup]
  exact hnames

/-- **Recovery** reports the first of its checks that fails. -/
theorem follows_recoverPrehash (prehash : List UInt8) (sig : Signature) (id : RecoveryId) :
    Follows (recoverPrehash prehash sig id) (recoverChecks prehash sig id) := by
  unfold recoverPrehash
  rw [messageNumber_bind]
  refine follows_ite Iff.rfl rfl fun _ => ?_
  refine follows_ite Signature.isZero_or_iff rfl fun hnonzero => ?_
  rw [Signature.isZero_or_iff, not_or] at hnonzero
  obtain ⟨hr, hs⟩ := hnonzero
  refine follows_recoverPoint_bind fun point hpoint => ?_
  -- The last verification adds no check, since it never fails.
  have hsolve := follows_solveKey hr hpoint (hashNumber prehash)
  obtain ⟨key, hkey⟩ | herror := solveKey_cases point (hashNumber prehash) hr
  · have hcheck := checkEquation_of_solveKey hr hs hpoint hkey
    rw [hkey] at hsolve ⊢
    show Follows (checkEquation key.toAffine (hashNumber prehash) sig >>= fun _ => pure key) _
    rw [hcheck]
    exact hsolve
  · rw [herror] at hsolve ⊢
    exact hsolve

end VerifyingKey

/-! ### One reason -/

/-- **Every rejection has exactly one reason.** The equation, a key and recovery report nothing when
    they accept and one event when they refuse, whatever the points.  On the curve it is that of the first
    failing check, and for recovery always.  The silent failures do not occur: a scalar is a coordinate,
    one that is not zero has an inverse, and a key that was solved for passes the verification at the end
    of recovery.  The runs that report on their way have these outcomes, and in the log what the outcome
    says: nothing on an acceptance, and on a refusal that one event. -/
theorem rejection_oneReason :
    (∀ (q : AffinePoint) (z : Word256) (sig : Signature), OneReason (checkEquation q z sig)
      ∧ (q.OnCurve → Follows (checkEquation q z sig)
        (equationChecks sig (sig.noncePoint z q.toGroup))))
    ∧ (∀ (key : VerifyingKey) (prehash : List UInt8) (sig : Signature),
      OneReason (key.verifyPrehash prehash sig)
      ∧ (key.toAffine.OnCurve → Follows (key.verifyPrehash prehash sig)
        (verifyChecks prehash sig key.toAffine.toGroup)))
    ∧ (∀ (prehash : List UInt8) (sig : Signature) (id : RecoveryId),
      OneReason (VerifyingKey.recoverPrehash prehash sig id)
      ∧ Follows (VerifyingKey.recoverPrehash prehash sig id) (recoverChecks prehash sig id))
    ∧ (∀ r : Scalar, ∃ x, r.toCoordinate? = some x ∧ x.toNat = r.toNat)
    ∧ (∀ k : Scalar, k ≠ 0 → ∃ t, k.invertByEuclid? = some t)
    ∧ (∀ (z : Word256) (sig : Signature) (id : RecoveryId) (point : AffinePoint) (key : VerifyingKey),
      sig.r ≠ 0 → sig.s ≠ 0 → VerifyingKey.recoverPoint sig.r id = .ok point →
      VerifyingKey.solveKey point z sig = .ok key → checkEquation key.toAffine z sig = .ok ())
    ∧ (∀ (q : AffinePoint) (z : Word256) (sig : Signature),
      (Logged.checkEquation q z sig).Tells (checkEquation q z sig)
      ∧ (Logged.checkEquation q z sig).OneReport)
    ∧ (∀ (key : VerifyingKey) (prehash : List UInt8) (sig : Signature),
      (Logged.verifyPrehash key prehash sig).Tells (key.verifyPrehash prehash sig)
      ∧ (Logged.verifyPrehash key prehash sig).OneReport)
    ∧ ∀ (prehash : List UInt8) (sig : Signature) (id : RecoveryId),
      (Logged.recoverPrehash prehash sig id).Tells (VerifyingKey.recoverPrehash prehash sig id)
      ∧ (Logged.recoverPrehash prehash sig id).OneReport := by
  refine ⟨?_, ?_, ?_, Scalar.toCoordinate?_eq_some, ?_, ?_, ?_, ?_, ?_⟩
  · intro q z sig
    exact ⟨oneReason_checkEquation q z sig, fun hq => follows_checkEquation hq z sig⟩
  · intro key prehash sig
    exact ⟨key.oneReason_verifyPrehash prehash sig,
      fun hkey => VerifyingKey.follows_verifyPrehash hkey prehash sig⟩
  · intro prehash sig id
    have hfollows := VerifyingKey.follows_recoverPrehash prehash sig id
    exact ⟨hfollows.oneReason, hfollows⟩
  · intro k hk
    exact Scalar.exists_invertByEuclid?_eq hk
  · intro z sig id point key hr hs hpoint hkey
    exact VerifyingKey.checkEquation_of_solveKey hr hs hpoint hkey
  · intro q z sig
    have htells := Logged.tells_checkEquation q z sig
    -- The run reports what its outcome tells, and that is a single event.
    exact ⟨htells, htells.oneReport (oneReason_checkEquation q z sig)⟩
  · intro key prehash sig
    have htells := Logged.tells_verifyPrehash key prehash sig
    exact ⟨htells, htells.oneReport (key.oneReason_verifyPrehash prehash sig)⟩
  · intro prehash sig id
    have htells := Logged.tells_recoverPrehash prehash sig id
    exact ⟨htells, htells.oneReport (VerifyingKey.follows_recoverPrehash prehash sig id).oneReason⟩

/-- One refusal of each operation: of a signature that commits to the identity, of one that is not low,
    and of an id whose x-coordinate would be above the prime.  With its own id the key is recovered. -/
theorem rejection_oneReason_unit :
    (AffinePoint.generator.OnCurve
      ∧ events (checkEquation AffinePoint.generator (-1 : Scalar).word ⟨1, 1⟩)
        = [⟨"u1·G + u2·Q is the identity", []⟩])
    ∧ (SigningKey.unit.verifyingKey.toAffine.OnCurve
      ∧ events (SigningKey.unit.verifyingKey.verifyPrehash Word256.zero.toBytes
          ⟨Scalar.generatorX, -Scalar.half⟩) = [⟨"signature is not low-S", []⟩])
    ∧ events (VerifyingKey.recoverPrehash Word256.zero.toBytes Signed.unit.signature ⟨false, true⟩)
      = [⟨"r + n is not a field element", []⟩]
    ∧ Signed.unit.signature.r ≠ 0 ∧ Signed.unit.signature.s ≠ 0
    ∧ (∃ t, Signed.unit.signature.s.invertByEuclid? = some t)
    ∧ ∃ point key, VerifyingKey.recoverPoint Signed.unit.signature.r Signed.unit.id = .ok point
      ∧ VerifyingKey.solveKey point Word256.zero Signed.unit.signature = .ok key
      ∧ checkEquation key.toAffine Word256.zero Signed.unit.signature = .ok () := by
  obtain ⟨hequation, hverify, hrecover, -, hinverse, hlast, -⟩ := rejection_oneReason
  have hcurve := JacobianPoint.onCurve_generator
  have hcurve' : SigningKey.unit.verifyingKey.toAffine.OnCurve := hcurve
  have hr : Signed.unit.signature.r ≠ 0 := by decide
  have hs : Signed.unit.signature.s ≠ 0 := by decide
  have hlong : ¬ Word256.zero.toBytes.length < 16 := by
    rw [Word256.length_toBytes]
    decide
  refine ⟨⟨hcurve, ?_⟩, ⟨hcurve', ?_⟩, ?_, hr, hs, hinverse _ hs, ?_⟩
  · have hnumber : ((-1 : Scalar).word.toNat : ZMod Modulus.order.toNat) = -(1 : Scalar).toZMod :=
      Residue.toZMod_neg 1
    have hidentity : Signature.noncePoint ⟨1, 1⟩ (-1 : Scalar).word
        AffinePoint.generator.toGroup = 0 := by
      rw [JacobianPoint.toGroup_generator, Signature.noncePoint_eq_smul, hnumber, neg_smul,
        neg_add_cancel, smul_zero]
    have hzero : ¬ ((1 : Scalar) = 0 ∨ (1 : Scalar) = 0) := by decide
    have hfollows := (hequation _ (-1 : Scalar).word ⟨1, 1⟩).2 hcurve
    exact (hfollows.2 hzero).1 hidentity
  · have hhigh : (Modulus.order.toNat - 1) / 2 < (-Scalar.half).toNat := by decide +kernel
    have hfollows := (hverify _ Word256.zero.toBytes ⟨Scalar.generatorX, -Scalar.half⟩).2 hcurve'
    exact (hfollows.2 hlong).1 hhigh
  · have hfollows := (hrecover Word256.zero.toBytes Signed.unit.signature ⟨false, true⟩).2
    exact ((hfollows.2 hlong).2 (not_or_intro hr hs)).1 ⟨rfl, primeLessOrder_le_generatorX⟩
  · have hvalid := (validFor_of_signWithNonce signWithNonce_one).1
    rw [Residue.toZMod_one, one_smul, ← JacobianPoint.toGroup_generator] at hvalid
    have hz := messageNumber_toBytes Word256.zero
    have hrecovered : VerifyingKey.recoverPrehash Word256.zero.toBytes Signed.unit.signature
        Signed.unit.id = .ok SigningKey.unit.verifyingKey :=
      (VerifyingKey.recoverPrehash_eq_ok_iff hz).2 ⟨hcurve', hvalid⟩
    obtain ⟨point, hpoint, hkey, -⟩ :=
      (VerifyingKey.recoverPrehash_eq_ok_iff_exists hz hr hs).1 hrecovered
    exact ⟨point, _, hpoint, hkey, hlast _ _ _ _ _ hr hs hpoint hkey⟩

end CurveSign
