import CurveSign.Proofs.Key.Signing
import CurveSign.Proofs.Log
import CurveSign.Proofs.Point.Encoding

namespace CurveSign

/-!
# Encoded keys

A verifying key is read from exactly the byte strings that its point is read from, since what is read
is never the identity, and refused for the same reason (`VerifyingKey.ofSec1_eq_ok_iff`,
`VerifyingKey.ofSec1_eq_error_iff`).  With the points this settles what the encodings are
(`AffinePoint.ofSec1_exact`).
-/

namespace VerifyingKey

variable {bytes : List UInt8}

/-- A key is read from what its point is read from. -/
theorem ofSec1_eq_ok_iff {key : VerifyingKey} :
    ofSec1 bytes = .ok key ↔ AffinePoint.ofSec1 bytes = .ok key.toAffine := by
  unfold ofSec1
  cases AffinePoint.ofSec1 bytes with
  | error e => exact ⟨nofun, nofun⟩
  | ok q =>
    rw [Except.ok.injEq]
    exact ofAffine_eq_ok_iff

/-- A key is refused for the reason that its point is refused for. -/
theorem ofSec1_eq_error_iff {e : Rejection} :
    ofSec1 bytes = .error e ↔ AffinePoint.ofSec1 bytes = .error e := by
  unfold ofSec1
  cases hread : AffinePoint.ofSec1 bytes with
  | error e' =>
    dsimp only
    rw [Except.error.injEq, Except.error.injEq]
  | ok q =>
    cases q with
    | identity => exact absurd rfl (AffinePoint.ofSec1_eq_ok_iff.1 hread).2.1
    | finite x y => exact ⟨nofun, nofun⟩

end VerifyingKey

namespace AffinePoint

/-- **The encoding is exact.** Byte strings that are read are the compressed and the uncompressed
    forms, and what is read is a point of the curve, not the identity, with that form.  Keys are read
    from the same byte strings, and what is refused is refused with one event, by the tag and the
    length or else because there is no such point.  Every point other than the identity is read back
    from both its forms, and the two parities decompress to it and to its opposite.  The run that reads
    has nothing in its log if it returns, and if it refuses the event of its reason. -/
theorem ofSec1_exact :
    (∀ bytes : List UInt8,
      ((∃ q, ofSec1 bytes = .ok q) ↔ IsCompressedForm bytes ∨ IsUncompressedForm bytes)
      ∧ (∀ q, ofSec1 bytes = .ok q → q.OnCurve ∧ q ≠ identity
        ∧ (IsCompressedForm bytes → q.toCompressed = bytes)
        ∧ (IsUncompressedForm bytes → q.toUncompressed = bytes))
      ∧ (∀ key : VerifyingKey,
        VerifyingKey.ofSec1 bytes = .ok key ↔ ofSec1 bytes = .ok key.toAffine)
      ∧ ∀ e : Rejection, (VerifyingKey.ofSec1 bytes = .error e ↔ ofSec1 bytes = .error e)
        ∧ (ofSec1 bytes = .error e →
          (e.event? = some ⟨"unsupported SEC1 point encoding", [("len", bytes.length)]⟩
            ↔ ¬ HasSec1Shape bytes)
          ∧ (e.event? = some ⟨"SEC1 point is not on the curve", []⟩ ↔ HasSec1Shape bytes)))
    ∧ (∀ q : AffinePoint, q.OnCurve → q ≠ identity →
      ofSec1 q.toCompressed = .ok q ∧ ofSec1 q.toUncompressed = .ok q
      ∧ decompressBytes q.x.toBytes q.y.isOdd = some q
      ∧ decompressBytes q.x.toBytes (!q.y.isOdd) = some (-q) ∧ -q ≠ q)
    ∧ ∀ bytes : List UInt8, (Logged.pointOfSec1 bytes).Tells (ofSec1 bytes)
      ∧ (Logged.keyOfSec1 bytes).Tells (VerifyingKey.ofSec1 bytes) := by
  refine ⟨?_, ?_, ?_⟩
  · intro bytes
    refine ⟨exists_ofSec1_eq_ok_iff, ?_, fun _ => VerifyingKey.ofSec1_eq_ok_iff, ?_⟩
    · intro q h
      obtain ⟨hcurve, hne, _⟩ := ofSec1_eq_ok_iff.1 h
      exact ⟨hcurve, hne, toCompressed_of_ofSec1 h, toUncompressed_of_ofSec1 h⟩
    · intro e
      refine ⟨VerifyingKey.ofSec1_eq_error_iff, ?_⟩
      intro h
      -- Two reasons are left, told apart by the shape of the bytes.
      rcases reason_of_ofSec1_eq_error h with ⟨hshape, rfl⟩ | ⟨hshape, rfl⟩
      · simp [Rejection.event?, hshape]
      · simp [Rejection.event?, hshape]
  · intro q hcurve hne
    obtain ⟨hsame, hopposite⟩ := decompressBytes_toBytes hcurve hne
    exact ⟨ofSec1_eq_ok_iff.2 ⟨hcurve, hne, Or.inl rfl⟩,
      ofSec1_eq_ok_iff.2 ⟨hcurve, hne, Or.inr rfl⟩, hsame, hopposite,
      neg_ne_self_of_onCurve hcurve hne⟩
  · intro bytes
    exact ⟨Logged.tells_pointOfSec1 bytes, Logged.tells_keyOfSec1 bytes⟩

/-- The base point is read from its compressed form, which has the even parity, and the odd one
    decompresses to its opposite.  The zeros that the identity is written as are refused, and so is a
    tag with a number that is not below `p`. -/
theorem ofSec1_exact_generator :
    generator.OnCurve ∧ generator ≠ identity
    ∧ ofSec1 generator.toCompressed = .ok generator
    ∧ IsCompressedForm generator.toCompressed
    ∧ (∀ q, ofSec1 generator.toCompressed = .ok q → q.toCompressed = generator.toCompressed)
    ∧ decompressBytes generatorX.toBytes true = some (-generator)
    ∧ ofSec1 identity.toCompressed = .error (.unsupportedPointEncoding 33)
    ∧ ¬ HasSec1Shape identity.toCompressed
    ∧ VerifyingKey.ofSec1 (2 :: List.replicate 32 255) = .error .pointNotOnCurve
    ∧ HasSec1Shape (2 :: List.replicate 32 255) := by
  have hcurve := JacobianPoint.onCurve_generator
  have hne : generator ≠ identity := nofun
  obtain ⟨hread, hwritten, -⟩ := ofSec1_exact
  obtain ⟨hcompressed, _, _, hopposite, _⟩ := hwritten generator hcurve hne
  have hform : IsCompressedForm generator.toCompressed :=
    isCompressedForm_iff.2 ⟨_, hcurve, hne, rfl⟩
  have hzeros : ofSec1 identity.toCompressed = .error (.unsupportedPointEncoding 33) := rfl
  have hlarge : ofSec1 (2 :: List.replicate 32 255) = .error .pointNotOnCurve := rfl
  have hodd : (!generator.y.isOdd) = true := by decide
  rw [hodd] at hopposite
  refine ⟨hcurve, hne, hcompressed, hform, ?_, hopposite, hzeros, ?_, ?_, ?_⟩
  · intro q h
    exact ((hread _).2.1 q h).2.2.1 hform
  · exact (((hread _).2.2.2 _).2 hzeros).1.1 rfl
  · exact ((hread _).2.2.2 _).1.2 hlarge
  · exact (((hread _).2.2.2 _).2 hlarge).2.1 rfl

end AffinePoint

end CurveSign
