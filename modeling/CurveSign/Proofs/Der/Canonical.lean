import CurveSign.Proofs.Der.RoundTrip

namespace CurveSign

/-!
# One encoding for each signature

An integer has one shortest content (`Der.IsContentOf.unique`), so an input that reads as two scalars
other than zero is the one written for them (`Der.encode_eq_of_decode`).  Many inputs read as a zero,
and what is written for it is no longer than any of them (`Der.length_encode_le_of_decode`).
-/

namespace Der

/-! ### Shortest contents -/

/-- A content spells its integer modulo a power of 256. -/
theorem twosComplement_emod (content : List UInt8) :
    twosComplement content % 256 ^ content.length = BigEndian.decode content := by
  have hlt : (BigEndian.decode content : ℤ) < 256 ^ content.length := by
    exact_mod_cast BigEndian.decode_lt content
  have hmod := Int.emod_eq_of_lt (Int.natCast_nonneg (BigEndian.decode content)) hlt
  rw [twosComplement]
  split_ifs
  · rw [Int.sub_emod_right, hmod]
  · exact hmod

/-- **The shortest content of an integer is unique.** -/
theorem IsContentOf.unique {content content' : List UInt8} {value : ℤ} (h : IsContentOf content value)
    (h' : IsContentOf content' value) : content = content' := by
  have hlength : content.length = content'.length :=
    le_antisymm (h.length_le _ h'.ne_nil h'.value_eq) (h'.length_le _ h.ne_nil h.value_eq)
  have hdecode : (BigEndian.decode content : ℤ) = BigEndian.decode content' := by
    rw [← twosComplement_emod, ← twosComplement_emod, h.value_eq, h'.value_eq, hlength]
  rw [← BigEndian.encode_decode content, hlength, Int.natCast_inj.1 hdecode, BigEndian.encode_decode]

/-! ### Contents that read as a scalar -/

variable {content : List UInt8} {value : ℤ} {s : Scalar}

/-- Only one integer reads as a scalar other than zero. -/
theorem eq_toNat_of_scalarPart (hs : (s.toNat : ℤ) = scalarPart value) (hne : s ≠ 0) :
    value = s.toNat := by
  rw [scalarPart] at hs
  split_ifs at hs with hvalue
  · exact hs.symm
  · exact absurd (Residue.toNat_inj.1 (Int.natCast_inj.1 hs)) hne

/-- Content that reads as a scalar other than zero is the content that the scalar is written as. -/
theorem IsContentOf.eq_integerContent (h : IsContentOf content value)
    (hs : (s.toNat : ℤ) = scalarPart value) (hne : s ≠ 0) : content = integerContent s := by
  rw [eq_toNat_of_scalarPart hs hne] at h
  exact h.unique (isContentOf_integerContent s)

/-- Zero is written as one byte. -/
theorem integerContent_zero : integerContent 0 = [0] :=
  (isContentOf_integerContent 0).unique (isContentOf_iff.2 ⟨isMinimal_singleton 0, rfl⟩)

/-- What is written for a scalar is no longer than any content that reads as the scalar. -/
theorem IsContentOf.length_integerContent_le (h : IsContentOf content value)
    (hs : (s.toNat : ℤ) = scalarPart value) : (integerContent s).length ≤ content.length := by
  by_cases hne : s = 0
  · rw [hne, integerContent_zero]
    exact List.length_pos_iff.2 h.ne_nil
  · rw [h.eq_integerContent hs hne]

/-! ### Sequences that read as two scalars -/

/-- A tag and one octet for the length at least stand in front of the content. -/
theorem le_length_element (tag : UInt8) (content : List UInt8) :
    2 + content.length ≤ (element tag content).length := by
  have hoctets : 1 ≤ (definiteLength content.length).length := by
    rw [definiteLength]
    split_ifs <;> simp
  rw [element, List.length_cons, List.length_append]
  omega

variable {bytes : List UInt8} {r : Scalar}

/-- **An input that reads as two scalars other than zero is what is written for them.** -/
theorem encode_eq_of_decode (h : bytes.length < 2 ^ 56) (hdecode : decode bytes = .ok (r, s))
    (hr : r ≠ 0) (hs : s ≠ 0) : encode r s = bytes := by
  obtain ⟨a, b, ⟨content, content', ha, hb, rfl⟩, hra, hsb⟩ := (decode_eq_ok_iff h).1 hdecode
  rw [encode_eq_element, ha.eq_integerContent hra hr, hb.eq_integerContent hsb hs]

/-- What is written for two scalars is no longer than any input that reads as them. -/
theorem length_encode_le_of_decode (h : bytes.length < 2 ^ 56) (hdecode : decode bytes = .ok (r, s)) :
    (encode r s).length ≤ bytes.length := by
  obtain ⟨a, b, ⟨content, content', ha, hb, rfl⟩, hra, hsb⟩ := (decode_eq_ok_iff h).1 hdecode
  have hle := ha.length_integerContent_le hra
  have hle' := hb.length_integerContent_le hsb
  have hbody := le_length_element sequenceTag (element integerTag content ++ element integerTag content')
  have hfirst := le_length_element integerTag content
  have hsecond := le_length_element integerTag content'
  rw [List.length_append] at hbody
  rw [length_encode, encodedLength]
  omega

/-- **Encodings are not malleable.** Of two scalars other than zero only what is written for them is
    read.  Whatever is read, what is written for it reads the same, is no longer than the input and
    than 72 bytes, and is what is stored for the input and for itself. -/
theorem decode_canonical (bytes : List UInt8) (h : bytes.length < 2 ^ 56) (r s : Scalar)
    (hdecode : decode bytes = .ok (r, s)) :
    (r ≠ 0 → s ≠ 0 → encode r s = bytes
      ∧ ∀ other, other.length < 2 ^ 56 → decode other = .ok (r, s) → other = bytes)
    ∧ decode (encode r s) = .ok (r, s)
    ∧ (encode r s).length ≤ bytes.length ∧ (encode r s).length ≤ 72
    ∧ ∃ stored, Encoded.ofBytes (encode r s) = .ok stored ∧ stored.bytes = encode r s
      ∧ Encoded.ofBytes bytes = .ok stored := by
  have hagain := decode_encode r s
  refine ⟨?_, hagain, length_encode_le_of_decode h hdecode, length_encode_le r s,
    Encoded.ofScalars r s, ?_, Encoded.bytes_ofScalars r s, ?_⟩
  · intro hr hs
    -- Both byte strings are the encoding of the two scalars.
    have hbytes := encode_eq_of_decode h hdecode hr hs
    refine ⟨hbytes, ?_⟩
    intro other hlength hother
    rw [← hbytes, encode_eq_of_decode hlength hother hr hs]
  · rw [Encoded.ofBytes, hagain]
  · rw [Encoded.ofBytes, hdecode]

/-- A sequence of 128 and 255, which both need a zero in front. -/
def guardedSequence : List UInt8 :=
  [0x30, 0x08, 0x02, 0x02, 0x00, 0x80, 0x02, 0x02, 0x00, 0xFF]

/-- The sequence is read as the two numbers. -/
theorem decode_guardedSequence :
    decode guardedSequence = .ok (Residue.ofWord 128, Residue.ofWord 255) := by
  decide +kernel

/-- Its components are not zero, so it is what they are written as, guarding zeros included. -/
theorem decode_canonical_guardedSequence :
    guardedSequence.length < 2 ^ 56
    ∧ (Residue.ofWord 128 : Scalar) ≠ 0 ∧ (Residue.ofWord 255 : Scalar) ≠ 0
    ∧ decode guardedSequence = .ok (Residue.ofWord 128, Residue.ofWord 255)
    ∧ encode (Residue.ofWord 128) (Residue.ofWord 255) = guardedSequence := by
  have hlength : guardedSequence.length < 2 ^ 56 := by decide
  have hr : (Residue.ofWord 128 : Scalar) ≠ 0 := by decide
  have hs : (Residue.ofWord 255 : Scalar) ≠ 0 := by decide
  have hcanonical := decode_canonical _ hlength _ _ decode_guardedSequence
  exact ⟨hlength, hr, hs, decode_guardedSequence, (hcanonical.1 hr hs).1⟩

end Der

end CurveSign
