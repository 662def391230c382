import CurveSign.Point.Encoding
import CurveSign.Proofs.Bytes.FixedWidth
import CurveSign.Proofs.Point.Decompress

namespace CurveSign

/-!
# SEC1 encodings are exact

A point other than the identity is read from its compressed and from its uncompressed form, and from
no other byte string (`AffinePoint.ofSec1_eq_ok_iff`).  Which byte strings those are can be said
without points: the tag and the length are supported (`AffinePoint.HasSec1Shape`), the numbers behind
the tag are below `p`, and they satisfy the curve equation, where a compressed form leaves `y` open
(`AffinePoint.IsCompressedForm`, `AffinePoint.IsUncompressedForm`).
-/

namespace AffinePoint

variable {bytes xBytes yBytes : List UInt8} {q : AffinePoint} {yOdd : Bool}

/-! ### The forms -/

/-- The tags and lengths that are supported: 33 bytes that start with `02` or `03`, and 65 bytes that
    start with `04`. -/
inductive HasSec1Shape : List UInt8 → Prop
  | compressed {tag : UInt8} {xBytes : List UInt8} (htag : tag = 2 ∨ tag = 3)
      (hlength : xBytes.length = 32) : HasSec1Shape (tag :: xBytes)
  | uncompressed {xBytes yBytes : List UInt8} (hxLength : xBytes.length = 32)
      (hyLength : yBytes.length = 32) : HasSec1Shape (4 :: (xBytes ++ yBytes))

/-- A tag `02` or `03`, and 32 bytes that spell a number `x` below `p` with `x³ + 7` a square. -/
inductive IsCompressedForm : List UInt8 → Prop
  | intro {tag : UInt8} {xBytes : List UInt8} (htag : tag = 2 ∨ tag = 3)
      (hlength : xBytes.length = 32) (hx : BigEndian.decode xBytes < Modulus.coordinate.toNat)
      (hsquare : IsSquare ((BigEndian.decode xBytes : Coordinate) ^ 3 + 7)) :
      IsCompressedForm (tag :: xBytes)

/-- The tag `04`, and twice 32 bytes that spell numbers below `p` with `y² = x³ + 7`. -/
inductive IsUncompressedForm : List UInt8 → Prop
  | intro {xBytes yBytes : List UInt8} (hxLength : xBytes.length = 32)
      (hyLength : yBytes.length = 32) (hx : BigEndian.decode xBytes < Modulus.coordinate.toNat)
      (hy : BigEndian.decode yBytes < Modulus.coordinate.toNat)
      (hequation : (BigEndian.decode yBytes : Coordinate) ^ 2
        = (BigEndian.decode xBytes : Coordinate) ^ 3 + 7) :
      IsUncompressedForm (4 :: (xBytes ++ yBytes))

/-- The compressed form of a point other than the identity. -/
theorem toCompressed_eq (h : q ≠ identity) :
    q.toCompressed = (if q.y.isOdd = true then 3 else 2) :: q.x.toBytes := by
  cases q with
  | identity => exact absurd rfl h
  | finite x y => rfl

/-- The uncompressed form of a point other than the identity. -/
theorem toUncompressed_eq (h : q ≠ identity) :
    q.toUncompressed = 4 :: (q.x.toBytes ++ q.y.toBytes) := by
  cases q with
  | identity => exact absurd rfl h
  | finite x y => rfl

/-- The tag of a parity is one of the two. -/
theorem tag_eq_or (yOdd : Bool) :
    (if yOdd = true then 3 else 2 : UInt8) = 2 ∨ (if yOdd = true then 3 else 2 : UInt8) = 3 := by
  cases yOdd <;> decide

/-- The tag of a compressed form tells the parity. -/
theorem tag_eq_iff {tag : UInt8} (htag : tag = 2 ∨ tag = 3) :
    (if yOdd = true then 3 else 2) = tag ↔ yOdd = (tag == 3) := by
  rcases htag with rfl | rfl <;> cases yOdd <;> decide

/-! ### Reading coordinates -/

/-- Decompressing finds the point of the curve that the bytes and the parity are of. -/
theorem decompressBytes_eq_some_iff : decompressBytes xBytes yOdd = some q
    ↔ q.OnCurve ∧ q ≠ identity ∧ xBytes = q.x.toBytes ∧ q.y.isOdd = yOdd := by
  rw [decompressBytes, Option.bind_eq_some_iff]
  simp only [Residue.ofBytes?_eq_some_iff_toBytes, decompress_eq_some_iff_coordinates]
  constructor
  · rintro ⟨x, hbytes, hcurve, hne, rfl, hparity⟩
    exact ⟨hcurve, hne, hbytes, hparity⟩
  · rintro ⟨hcurve, hne, hbytes, hparity⟩
    exact ⟨q.x, hbytes, hcurve, hne, rfl, hparity⟩

/-- Reading coordinates finds the point of the curve that has them. -/
theorem ofCoordinateBytes_eq_some_iff : ofCoordinateBytes xBytes yBytes = some q
    ↔ q.OnCurve ∧ q ≠ identity ∧ xBytes = q.x.toBytes ∧ yBytes = q.y.toBytes := by
  simp only [ofCoordinateBytes, Option.bind_eq_some_iff, Residue.ofBytes?_eq_some_iff_toBytes,
    Option.ite_none_right_eq_some, Option.some.injEq, isOnCurve_iff]
  constructor
  · rintro ⟨x, hx, y, hy, hcurve, rfl⟩
    exact ⟨.finite hcurve, nofun, hx, hy⟩
  · intro h
    cases q with
    | identity => exact absurd rfl h.2.1
    | finite x y => exact ⟨x, h.2.2.1, y, h.2.2.2, onCurve_finite_iff.1 h.1, rfl⟩

theorem require_eq_ok_iff {point : Option AffinePoint} : require point = .ok q ↔ point = some q := by
  cases point <;> simp [require]

/-- There is one reason for a point that was not found. -/
theorem eq_pointNotOnCurve_of_require {point : Option AffinePoint} {e : Rejection}
    (h : require point = .error e) : e = .pointNotOnCurve := by
  cases point with
  | none => exact (Except.error.inj h).symm
  | some p => exact absurd h nofun

/-! ### Reading a point -/

/-- A compressed form is decompressed, with the parity of its tag. -/
theorem ofSec1_compressed {tag : UInt8} (htag : tag = 2 ∨ tag = 3) (hlength : xBytes.length = 32) :
    ofSec1 (tag :: xBytes) = require (decompressBytes xBytes (tag == 3)) :=
  if_pos ⟨htag, hlength⟩

/-- An uncompressed form is read by its coordinates. -/
theorem ofSec1_uncompressed (hxLength : xBytes.length = 32) (hyLength : yBytes.length = 32) :
    ofSec1 (4 :: (xBytes ++ yBytes)) = require (ofCoordinateBytes xBytes yBytes) := by
  have hlength : (xBytes ++ yBytes).length = 64 := by
    rw [List.length_append, hxLength, hyLength]
  rw [ofSec1, if_neg fun h => absurd h.1 (by decide), if_pos ⟨rfl, hlength⟩,
    List.take_left' hxLength, List.drop_left' hxLength]

/-- Any other tag and length are refused for what they are. -/
theorem ofSec1_of_not_hasSec1Shape (h : ¬ HasSec1Shape bytes) :
    ofSec1 bytes = .error (.unsupportedPointEncoding bytes.length) := by
  cases bytes with
  | nil => rfl
  | cons tag rest =>
    have hcompressed : ¬ ((tag = 2 ∨ tag = 3) ∧ rest.length = 32) := by
      intro hshape
      exact h (.compressed hshape.1 hshape.2)
    have huncompressed : ¬ (tag = 4 ∧ rest.length = 64) := by
      intro hshape
      apply h
      -- The 64 bytes are two halves of 32, as the shape has them.
      rw [hshape.1, ← List.take_append_drop 32 rest]
      apply HasSec1Shape.uncompressed
      · rw [List.length_take, hshape.2]
        rfl
      · rw [List.length_drop, hshape.2]
    rw [ofSec1, if_neg hcompressed, if_neg huncompressed, List.length_cons]

/-- **A point is read from its two forms** and from nothing else, and the identity from nothing. -/
theorem ofSec1_eq_ok_iff : ofSec1 bytes = .ok q
    ↔ q.OnCurve ∧ q ≠ identity ∧ (bytes = q.toCompressed ∨ bytes = q.toUncompressed) := by
  constructor
  · intro h
    -- The tag and the length decide which form is tried; there is no second attempt.
    by_cases hshape : HasSec1Shape bytes
    · cases hshape with
      | compressed htag hlength =>
        rw [ofSec1_compressed htag hlength, require_eq_ok_iff, decompressBytes_eq_some_iff] at h
        obtain ⟨hcurve, hne, hbytes, hparity⟩ := h
        refine ⟨hcurve, hne, Or.inl ?_⟩
        rw [toCompressed_eq hne, (tag_eq_iff htag).2 hparity, hbytes]
      | uncompressed hxLength hyLength =>
        rw [ofSec1_uncompressed hxLength hyLength, require_eq_ok_iff,
          ofCoordinateBytes_eq_some_iff] at h
        obtain ⟨hcurve, hne, hxBytes, hyBytes⟩ := h
        refine ⟨hcurve, hne, Or.inr ?_⟩
        rw [toUncompressed_eq hne, hxBytes, hyBytes]
    · rw [ofSec1_of_not_hasSec1Shape hshape] at h
      exact absurd h nofun
  · rintro ⟨hcurve, hne, rfl | rfl⟩
    · have htag := tag_eq_or q.y.isOdd
      rw [toCompressed_eq hne, ofSec1_compressed htag q.x.length_toBytes, require_eq_ok_iff,
        decompressBytes_eq_some_iff]
      exact ⟨hcurve, hne, rfl, (tag_eq_iff htag).1 rfl⟩
    · rw [toUncompressed_eq hne, ofSec1_uncompressed q.x.length_toBytes q.y.length_toBytes,
        require_eq_ok_iff, ofCoordinateBytes_eq_some_iff]
      exact ⟨hcurve, hne, rfl, rfl⟩

/-- The reason for a rejection depends on the tag and the length only. -/
theorem reason_of_ofSec1_eq_error {e : Rejection} (h : ofSec1 bytes = .error e) :
    (HasSec1Shape bytes ∧ e = .pointNotOnCurve)
    ∨ (¬ HasSec1Shape bytes ∧ e = .unsupportedPointEncoding bytes.length) := by
  -- Behind a shape that fits there is one refusal left, whatever the point lacks.
  by_cases hshape : HasSec1Shape bytes
  · left
    refine ⟨hshape, ?_⟩
    cases hshape with
    | compressed htag hlength =>
      rw [ofSec1_compressed htag hlength] at h
      exact eq_pointNotOnCurve_of_require h
    | uncompressed hxLength hyLength =>
      rw [ofSec1_uncompressed hxLength hyLength] at h
      exact eq_pointNotOnCurve_of_require h
  · right
    rw [ofSec1_of_not_hasSec1Shape hshape] at h
    exact ⟨hshape, (Except.error.inj h).symm⟩

/-! ### Forms and points -/

/-- The compressed forms are those of the points of the curve. -/
theorem isCompressedForm_iff : IsCompressedForm bytes
    ↔ ∃ q : AffinePoint, q.OnCurve ∧ q ≠ identity ∧ bytes = q.toCompressed := by
  constructor
  · intro h
    cases h with
    | @intro tag xBytes htag hlength hx hsquare =>
      obtain ⟨r, hr⟩ := hsquare
      obtain ⟨x, hbytes, hvalue⟩ := Residue.exists_toBytes_eq hlength hx
      obtain ⟨y, rfl⟩ := Residue.exists_toZMod_eq r
      have hcurve : (finite x y).OnCurve := by
        refine .finite ?_
        rw [sq, ← hr, ← hvalue]
        rfl
      -- One of the two roots has the parity of the tag.
      have hparity := isOdd_select (y_ne_zero (onCurve_finite_iff.1 hcurve)) (tag == 3)
      refine ⟨_, onCurve_select hcurve (tag == 3), nofun, ?_⟩
      show tag :: xBytes = (if Residue.isOdd _ = true then 3 else 2) :: x.toBytes
      rw [hparity, (tag_eq_iff htag).2 rfl, hbytes]
  · rintro ⟨q, hcurve, hne, rfl⟩
    cases q with
    | identity => exact absurd rfl hne
    | finite x y =>
      refine .intro (tag_eq_or y.isOdd) x.length_toBytes ?_ ⟨y.toZMod, ?_⟩
      · rw [x.decode_toBytes]
        exact x.toNat_lt
      · rw [x.decode_toBytes, ← sq]
        exact (onCurve_finite_iff.1 hcurve).symm

/-- The uncompressed forms are those of the points of the curve. -/
theorem isUncompressedForm_iff : IsUncompressedForm bytes
    ↔ ∃ q : AffinePoint, q.OnCurve ∧ q ≠ identity ∧ bytes = q.toUncompressed := by
  constructor
  · intro h
    cases h with
    | intro hxLength hyLength hx hy hequation =>
      -- Both numbers are below the prime, so there are residues with these bytes.
      obtain ⟨x, hxBytes, hxValue⟩ := Residue.exists_toBytes_eq hxLength hx
      obtain ⟨y, hyBytes, hyValue⟩ := Residue.exists_toBytes_eq hyLength hy
      rw [← hxValue, ← hyValue] at hequation
      refine ⟨finite x y, .finite hequation, nofun, ?_⟩
      rw [← hxBytes, ← hyBytes]
      rfl
  · rintro ⟨q, hcurve, hne, rfl⟩
    cases q with
    | identity => exact absurd rfl hne
    | finite x y =>
      refine .intro x.length_toBytes y.length_toBytes ?_ ?_ ?_
      · rw [x.decode_toBytes]
        exact x.toNat_lt
      · rw [y.decode_toBytes]
        exact y.toNat_lt
      · rw [x.decode_toBytes, y.decode_toBytes]
        exact onCurve_finite_iff.1 hcurve

/-- A compressed form has 33 bytes. -/
theorem length_toCompressed (q : AffinePoint) : q.toCompressed.length = 33 := by
  cases q with
  | identity => rfl
  | finite x y => exact congrArg Nat.succ x.length_toBytes

/-- An uncompressed form has 65 bytes. -/
theorem length_toUncompressed (q : AffinePoint) : q.toUncompressed.length = 65 := by
  cases q with
  | identity => rfl
  | finite x y =>
    rw [toUncompressed, List.length_cons, List.length_append, x.length_toBytes, y.length_toBytes]

/-- No byte string has both forms. -/
theorem toCompressed_ne_toUncompressed (q q' : AffinePoint) :
    q.toCompressed ≠ q'.toUncompressed := by
  intro h
  have hlength := congrArg List.length h
  rw [length_toCompressed, length_toUncompressed] at hlength
  exact absurd hlength (by decide)

/-- What is read from a compressed form has that compressed form. -/
theorem toCompressed_of_ofSec1 (h : ofSec1 bytes = .ok q) (hform : IsCompressedForm bytes) :
    q.toCompressed = bytes := by
  obtain ⟨_, _, hbytes | hbytes⟩ := ofSec1_eq_ok_iff.1 h
  · exact hbytes.symm
  · obtain ⟨q', _, _, hbytes'⟩ := isCompressedForm_iff.1 hform
    exact absurd (hbytes'.symm.trans hbytes) (toCompressed_ne_toUncompressed q' q)

/-- What is read from an uncompressed form has that uncompressed form. -/
theorem toUncompressed_of_ofSec1 (h : ofSec1 bytes = .ok q) (hform : IsUncompressedForm bytes) :
    q.toUncompressed = bytes := by
  obtain ⟨_, _, hbytes | hbytes⟩ := ofSec1_eq_ok_iff.1 h
  · obtain ⟨q', _, _, hbytes'⟩ := isUncompressedForm_iff.1 hform
    exact absurd (hbytes.symm.trans hbytes') (toCompressed_ne_toUncompressed q q')
  · exact hbytes.symm

/-- **What is read** are the byte strings of the two forms. -/
theorem exists_ofSec1_eq_ok_iff :
    (∃ q, ofSec1 bytes = .ok q) ↔ IsCompressedForm bytes ∨ IsUncompressedForm bytes := by
  simp only [ofSec1_eq_ok_iff, isCompressedForm_iff, isUncompressedForm_iff, and_or_left, exists_or]

/-! ### Opposite points -/

/-- The opposite point has the other parity. -/
theorem isOdd_y_neg (hcurve : q.OnCurve) (hne : q ≠ identity) : (-q).y.isOdd = !q.y.isOdd := by
  cases q with
  | identity => exact absurd rfl hne
  | finite x y => exact isOdd_neg (y_ne_zero (onCurve_finite_iff.1 hcurve))

/-- No point other than the identity is its own opposite. -/
theorem neg_ne_self_of_onCurve (hcurve : q.OnCurve) (hne : q ≠ identity) : -q ≠ q := by
  intro h
  -- `y` is not zero on this curve, and `p - y` has the other parity as `p` is odd.
  have hparity := isOdd_y_neg hcurve hne
  rw [h] at hparity
  exact absurd hparity (by cases q.y.isOdd <;> decide)

/-- The two parities decompress to the point and to its opposite. -/
theorem decompressBytes_toBytes (hcurve : q.OnCurve) (hne : q ≠ identity) :
    decompressBytes q.x.toBytes q.y.isOdd = some q
    ∧ decompressBytes q.x.toBytes (!q.y.isOdd) = some (-q) := by
  constructor
  · exact decompressBytes_eq_some_iff.2 ⟨hcurve, hne, rfl, rfl⟩
  · rw [decompressBytes_eq_some_iff, x_neg]
    exact ⟨hcurve.neg, mt neg_eq_identity_iff.1 hne, rfl, isOdd_y_neg hcurve hne⟩

end AffinePoint

end CurveSign
