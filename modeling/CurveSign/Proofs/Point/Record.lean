import CurveSign.Point.Record
import CurveSign.Proofs.Point.Comparison
import CurveSign.Proofs.Point.Encoding

namespace CurveSign

/-!
# Well-formed records

The well-formed records are those of the identity and of the points of the curve
(`AffineRecord.wellFormed_iff`), a different one for each (`AffinePoint.toRecord_inj`).  The operations
on records work field by field; on well-formed records they give the records of what the operations on
points give, so that they stay well-formed, and a record is written and read as its point is.
-/

open JacobianPoint

/-! ### Records of points -/

namespace AffinePoint

variable {q q' : AffinePoint}

/-- The flag and the coordinates tell the points apart. -/
theorem toRecord_inj : q.toRecord = q'.toRecord ↔ q = q' := by
  refine ⟨fun h => ?_, congrArg toRecord⟩
  have hflags : (1 : UInt8) ≠ 0 := by decide
  rcases q with _ | ⟨x, y⟩ <;> rcases q' with _ | ⟨x', y'⟩
  · rfl
  · exact absurd (congrArg AffineRecord.infinity h) hflags
  · exact absurd (congrArg AffineRecord.infinity h) hflags.symm
  · obtain rfl : x = x' := congrArg AffineRecord.x h
    obtain rfl : y = y' := congrArg AffineRecord.y h
    rfl

/-- The x-coordinate in the record is that of the point, zero for the identity. -/
theorem x_toRecord (q : AffinePoint) : q.toRecord.x = q.x := by
  cases q <;> rfl

/-- The y-coordinate in the record is that of the point, also of the identity. -/
theorem y_toRecord (q : AffinePoint) : q.toRecord.y = q.y := by
  cases q <;> rfl

/-- Only the record of the identity has a flag. -/
theorem infinity_toRecord (q : AffinePoint) :
    q.toRecord.infinity = if q.isIdentity then 1 else 0 := by
  cases q <;> rfl

/-- Negating the record of the identity leaves it as it is: its second coordinate is zero. -/
theorem toRecord_neg (q : AffinePoint) : (-q).toRecord = -q.toRecord := by
  cases q with
  | identity => decide
  | finite x y => rfl

theorem toJacobian_toRecord (q : AffinePoint) : q.toRecord.toJacobian = ofAffine q := by
  cases q <;> rfl

theorem toCompressed_toRecord (q : AffinePoint) : q.toRecord.toCompressed = q.toCompressed := by
  cases q <;> rfl

theorem toUncompressed_toRecord (q : AffinePoint) :
    q.toRecord.toUncompressed = q.toUncompressed := by
  cases q <;> rfl

/-- A record is read from the forms of a point of the curve other than the identity. -/
theorem record_ofSec1_eq_ok_iff {bytes : List UInt8} :
    AffineRecord.ofSec1 bytes = .ok q.toRecord ↔ ofSec1 bytes = .ok q := by
  rw [AffineRecord.ofSec1]
  cases ofSec1 bytes with
  | error e => exact ⟨nofun, nofun⟩
  | ok q' =>
    show (Except.ok q'.toRecord : Except Rejection _) = .ok q.toRecord ↔ _
    rw [Except.ok.injEq, Except.ok.injEq, toRecord_inj]

/-- The equation in numbers. -/
theorem OnCurve.toNat_equation (h : q.OnCurve) (hne : q ≠ .identity) :
    q.y.toNat ^ 2 % Modulus.coordinate.toNat
      = (q.x.toNat ^ 3 + 7) % Modulus.coordinate.toNat := by
  cases h with
  | identity => exact absurd rfl hne
  | @finite x y h =>
    rw [← ZMod.natCast_eq_natCast_iff', Nat.cast_pow, Nat.cast_add, Nat.cast_pow]
    exact h

/-- **What a point is and how it is written**: the identity, with zeros for its coordinates, is written
    as zeros; any other point of the curve is read back from both of its forms. -/
theorem OnCurve.cases_identity (h : q.OnCurve) :
    (q.isIdentity = true ∧ q.x.toNat = 0 ∧ q.y.toNat = 0
      ∧ q.toCompressed = List.replicate 33 0 ∧ q.toUncompressed = List.replicate 65 0)
    ∨ (q.isIdentity = false
      ∧ q.x.toNat < Modulus.coordinate.toNat ∧ q.y.toNat < Modulus.coordinate.toNat
      ∧ q.y.toNat ^ 2 % Modulus.coordinate.toNat
        = (q.x.toNat ^ 3 + 7) % Modulus.coordinate.toNat
      ∧ ofSec1 q.toCompressed = .ok q ∧ ofSec1 q.toUncompressed = .ok q) := by
  rcases q with _ | ⟨x, y⟩
  · exact .inl ⟨rfl, rfl, rfl, rfl, rfl⟩
  · have hne : AffinePoint.finite x y ≠ .identity := nofun
    exact .inr ⟨rfl, x.toNat_lt, y.toNat_lt, h.toNat_equation hne,
      ofSec1_eq_ok_iff.2 ⟨h, hne, .inl rfl⟩, ofSec1_eq_ok_iff.2 ⟨h, hne, .inr rfl⟩⟩

end AffinePoint

/-- The record that a triple is converted to is that of the point it stands for. -/
theorem JacobianPoint.toRecord_eq (p : JacobianPoint) : p.toRecord = p.toAffine.toRecord := by
  rw [toRecord, toAffine]
  cases p.z.invert? <;> rfl

/-! ### Well-formedness -/

namespace AffineRecord

variable {r r' : AffineRecord}

/-- **The well-formed records** are those of the identity and of the points of the curve. -/
theorem wellFormed_iff : r.WellFormed ↔ ∃ q : AffinePoint, q.OnCurve ∧ q.toRecord = r := by
  constructor
  · obtain ⟨x, y, infinity⟩ := r
    rintro (⟨rfl, rfl, rfl⟩ | ⟨rfl, hcurve⟩)
    · exact ⟨.identity, .identity, rfl⟩
    · exact ⟨.finite x y, .finite (isOnCurve_iff.1 hcurve), rfl⟩
  · rintro ⟨q, hcurve, rfl⟩
    cases hcurve with
    | identity => exact .inl ⟨rfl, rfl, rfl⟩
    | finite hcurve => exact .inr ⟨rfl, isOnCurve_iff.2 hcurve⟩

/-- The record of the identity is well-formed. -/
theorem wellFormed_identity : identity.WellFormed := .inl ⟨rfl, rfl, rfl⟩

namespace WellFormed

/-- Negating keeps a record well-formed, that of the identity too. -/
theorem neg (h : r.WellFormed) : (-r).WellFormed := by
  obtain ⟨q, hcurve, rfl⟩ := wellFormed_iff.1 h
  exact wellFormed_iff.2 ⟨-q, hcurve.neg, q.toRecord_neg⟩

/-- Selecting between two records field by field never mixes them. -/
theorem select (h : r.WellFormed) (h' : r'.WellFormed) (second : Bool) :
    (AffineRecord.select r r' second).WellFormed := by
  cases second
  · exact h
  · exact h'

/-- A triple for a well-formed record is on the curve. -/
theorem onCurve_toJacobian (h : r.WellFormed) : r.toJacobian.OnCurve := by
  obtain ⟨q, hcurve, rfl⟩ := wellFormed_iff.1 h
  rw [q.toJacobian_toRecord]
  exact (stands_ofAffine hcurve).onCurve

/-- Converting a well-formed record to a triple and back changes nothing. -/
theorem toRecord_toJacobian (h : r.WellFormed) : r.toJacobian.toRecord = r := by
  obtain ⟨q, -, rfl⟩ := wellFormed_iff.1 h
  rw [q.toJacobian_toRecord, toRecord_eq, toAffine_ofAffine]

/-- **What a well-formed record is and how it is written**, by its flag: what its point is, and how that
    is written. -/
theorem cases_infinity (h : r.WellFormed) :
    (r.infinity = 1 ∧ r.x.toNat = 0 ∧ r.y.toNat = 0
      ∧ r.toCompressed = List.replicate 33 0 ∧ r.toUncompressed = List.replicate 65 0)
    ∨ (r.infinity = 0
      ∧ r.x.toNat < Modulus.coordinate.toNat ∧ r.y.toNat < Modulus.coordinate.toNat
      ∧ r.y.toNat ^ 2 % Modulus.coordinate.toNat
        = (r.x.toNat ^ 3 + 7) % Modulus.coordinate.toNat
      ∧ ofSec1 r.toCompressed = .ok r ∧ ofSec1 r.toUncompressed = .ok r) := by
  obtain ⟨q, hcurve, rfl⟩ := wellFormed_iff.1 h
  rw [q.infinity_toRecord, q.x_toRecord, q.y_toRecord, q.toCompressed_toRecord,
    q.toUncompressed_toRecord, AffinePoint.record_ofSec1_eq_ok_iff,
    AffinePoint.record_ofSec1_eq_ok_iff]
  -- The flag tells the two apart, since only the identity sets it.
  obtain ⟨hid, hzeros⟩ | ⟨hid, hfinite⟩ := hcurve.cases_identity
  · rw [hid]
    exact .inl ⟨rfl, hzeros⟩
  · rw [hid]
    exact .inr ⟨rfl, hfinite⟩

end WellFormed

end AffineRecord

/-- A triple on the curve is converted to a well-formed record. -/
theorem JacobianPoint.OnCurve.wellFormed_toRecord {p : JacobianPoint} (h : p.OnCurve) :
    p.toRecord.WellFormed :=
  AffineRecord.wellFormed_iff.2 ⟨p.toAffine, h.stands.onCurve_toAffine, p.toRecord_eq.symm⟩

end CurveSign
