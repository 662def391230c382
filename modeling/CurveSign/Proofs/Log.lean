import CurveSign.Logged
import CurveSign.Proofs.Rejection

namespace CurveSign

/-!
# The log tells the reason

A run `Tells` an outcome if it has that outcome and its log is what the outcome says: empty for an
acceptance and for a refusal in silence, and for any other refusal the event of its reason, once.  Runs in
sequence tell what the operations in sequence give (`Logged.Tells.bind`), since the log of a run that goes
on is empty; so each run tells the operation that it is a run of.
-/

namespace Logged

variable {α β : Type}

/-- The run has the outcome, and has reported what there is to say of it and nothing else. -/
structure Tells (x : Logged α) (outcome : Except Rejection α) : Prop where
  outcome_eq : x.outcome = outcome
  log_eq : x.log = events outcome

/-- The run has reported nothing if it returns, and one event if it refuses. -/
def OneReport (x : Logged α) : Prop := x.log.length = if x.outcome.isOk then 0 else 1

/-- Where each refusal has its reason, telling it takes one event. -/
theorem Tells.oneReport {x : Logged α} {outcome : Except Rejection α} (h : x.Tells outcome)
    (hreason : OneReason outcome) : x.OneReport := by
  rw [OneReport, h.log_eq, h.outcome_eq]
  exact hreason

/-! ### Steps -/

/-- Returning is not reported. -/
theorem tells_pure (a : α) : (pure a : Logged α).Tells (.ok a) := ⟨rfl, rfl⟩

/-- A refusal without a report tells a reason that has none. -/
theorem tells_refuse {e : Rejection} (he : e.event? = none) :
    (refuse e : Logged α).Tells (.error e) := by
  refine ⟨rfl, ?_⟩
  show [] = e.event?.toList
  rw [he]
  rfl

/-- A refusal behind a report tells the reason with that event. -/
theorem tells_reject {e : Rejection} {event : Event} (he : e.event? = some event) :
    (reject event e : Logged α).Tells (.error e) := by
  refine ⟨rfl, ?_⟩
  show [event] = e.event?.toList
  rw [he]
  rfl

/-- **Runs in sequence**: the second is only reached with an empty log. -/
theorem Tells.bind {x : Logged α} {outcome : Except Rejection α} {f : α → Logged β}
    {g : α → Except Rejection β} (hx : x.Tells outcome) (hf : ∀ a, (f a).Tells (g a)) :
    (x >>= f).Tells (outcome >>= g) := by
  obtain ⟨log, outcome'⟩ := x
  obtain ⟨rfl, rfl⟩ : outcome' = outcome ∧ log = events outcome := ⟨hx.outcome_eq, hx.log_eq⟩
  cases outcome' with
  | ok a => exact ⟨(hf a).outcome_eq, (List.nil_append _).trans (hf a).log_eq⟩
  | error e => exact ⟨rfl, rfl⟩

/-- Both sides of a test tell their outcomes. -/
theorem Tells.ite {c : Prop} [Decidable c] {x y : Logged α} {outcome outcome' : Except Rejection α}
    (hx : x.Tells outcome) (hy : y.Tells outcome') :
    (if c then x else y).Tells (if c then outcome else outcome') := by
  by_cases hc : c
  · rw [if_pos hc, if_pos hc]
    exact hx
  · rw [if_neg hc, if_neg hc]
    exact hy

/-! ### Encodings -/

/-- A point that was not found is reported. -/
theorem tells_requirePoint (point : Option AffinePoint) :
    (requirePoint point).Tells (AffinePoint.require point) := by
  cases point with
  | none => exact tells_reject rfl
  | some p => exact tells_pure p

/-- Reading a point reports what it is refused for. -/
theorem tells_pointOfSec1 (bytes : List UInt8) :
    (pointOfSec1 bytes).Tells (AffinePoint.ofSec1 bytes) := by
  cases bytes with
  | nil => exact tells_reject rfl
  | cons tag rest =>
    exact (tells_requirePoint _).ite ((tells_requirePoint _).ite (tells_reject rfl))

/-- Reading a signature reports a component that is out of range, and no length. -/
theorem tells_signatureOfBytes (bytes : List UInt8) :
    (signatureOfBytes bytes).Tells (Signature.ofBytes bytes) := by
  refine Tells.ite ?_ (tells_refuse rfl)
  cases (Residue.ofBytes? (bytes.take 32) : Option Scalar) with
  | none => exact tells_reject rfl
  | some r =>
    cases (Residue.ofBytes? (bytes.drop 32) : Option Scalar) with
    | none => exact tells_reject rfl
    | some s => exact tells_pure _

/-! ### Keys -/

/-- The identity is reported. -/
theorem tells_keyOfAffine (q : AffinePoint) :
    (keyOfAffine q).Tells (VerifyingKey.ofAffine q) := by
  cases q with
  | identity => exact tells_reject rfl
  | finite x y => exact tells_pure _

/-- Reading a key reports what its point is refused for. -/
theorem tells_keyOfSec1 (bytes : List UInt8) :
    (keyOfSec1 bytes).Tells (VerifyingKey.ofSec1 bytes) := by
  have hbind : VerifyingKey.ofSec1 bytes = AffinePoint.ofSec1 bytes >>= VerifyingKey.ofAffine := by
    unfold VerifyingKey.ofSec1
    cases AffinePoint.ofSec1 bytes <;> rfl
  rw [hbind]
  exact (tells_pointOfSec1 bytes).bind tells_keyOfAffine

/-! ### Verification -/

theorem tells_messageNumber (prehash : List UInt8) :
    (messageNumber prehash).Tells (CurveSign.messageNumber prehash) :=
  (tells_reject rfl).ite (tells_pure _)

/-- A point with another x-coordinate is reported, and so is the identity. -/
theorem tells_checkX (point : JacobianPoint) (r : Scalar) :
    (checkX point r).Tells (CurveSign.checkX point r) := by
  refine (tells_reject rfl).ite ?_
  cases r.toCoordinate? with
  | none => exact tells_refuse rfl
  | some x =>
    refine (tells_pure _).ite ?_
    exact (tells_reject rfl).ite ((tells_pure _).ite (tells_reject rfl))

/-- Checking the equation reports what it fails for. -/
theorem tells_checkEquation (q : AffinePoint) (z : Word256) (sig : Signature) :
    (checkEquation q z sig).Tells (CurveSign.checkEquation q z sig) := by
  refine (tells_reject rfl).ite ?_
  cases sig.s.invertByEuclid? with
  | none => exact tells_refuse rfl
  | some sInverse => exact tells_checkX _ _

/-- Verifying reports what a signature is refused for. -/
theorem tells_verifyPrehash (key : VerifyingKey) (prehash : List UInt8) (sig : Signature) :
    (verifyPrehash key prehash sig).Tells (key.verifyPrehash prehash sig) :=
  (tells_messageNumber prehash).bind fun z =>
    (tells_reject rfl).ite (tells_checkEquation key.toAffine z sig)

/-! ### Recovery -/

/-- A sum that is no coordinate is reported. -/
theorem tells_recoverX (r : Scalar) (xReduced : Bool) :
    (recoverX r xReduced).Tells (VerifyingKey.recoverX r xReduced) := by
  unfold recoverX VerifyingKey.recoverX
  cases r.toCoordinate? with
  | none => exact tells_refuse rfl
  | some x => exact ((tells_reject rfl).ite (tells_pure _)).ite (tells_pure x)

/-- An x-coordinate without a point is reported. -/
theorem tells_recoverPoint (r : Scalar) (id : RecoveryId) :
    (recoverPoint r id).Tells (VerifyingKey.recoverPoint r id) := by
  refine (tells_recoverX r id.xReduced).bind fun x => ?_
  cases AffinePoint.decompress x id.yOdd with
  | none => exact tells_reject rfl
  | some point => exact tells_pure point

/-- A key that would be the identity is reported. -/
theorem tells_solveKey (point : AffinePoint) (z : Word256) (sig : Signature) :
    (solveKey point z sig).Tells (VerifyingKey.solveKey point z sig) := by
  unfold solveKey VerifyingKey.solveKey
  cases sig.r.invertByEuclid? with
  | none => exact tells_refuse rfl
  | some rInverse => exact tells_keyOfAffine _

/-- Recovering a key reports what it fails for. -/
theorem tells_recoverPrehash (prehash : List UInt8) (sig : Signature) (id : RecoveryId) :
    (recoverPrehash prehash sig id).Tells (VerifyingKey.recoverPrehash prehash sig id) := by
  refine (tells_messageNumber prehash).bind fun z => (tells_reject rfl).ite ?_
  refine (tells_recoverPoint sig.r id).bind fun point => ?_
  refine (tells_solveKey point z sig).bind fun key => ?_
  exact (tells_checkEquation key.toAffine z sig).bind fun _ => tells_pure key

end Logged

end CurveSign
