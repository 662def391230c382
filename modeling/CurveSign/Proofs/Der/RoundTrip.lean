import CurveSign.Der.Writer
import CurveSign.Proofs.Der.Signature
import CurveSign.Signature.Basic

namespace CurveSign

/-!
# DER signatures read back

What is written for two scalars is the sequence of their numbers (`Der.isSequenceOf_encode`): its
contents are shortest, and none is long enough for a long length.  So it reads as the two scalars
(`Der.decode_encode`), also from the front of the buffer that it was written into
(`Der.take_writeInto`).
-/

namespace Der

/-! ### Written contents -/

/-- A zero is dropped only where it does not change the number. -/
theorem twosComplement_stripZeros (bytes : List UInt8) :
    twosComplement (stripZeros bytes) = twosComplement bytes := by
  fun_induction stripZeros bytes with
  | case1 a b rest h ih => rw [ih, twosComplement_drop rest (Or.inl h)]
  | case2 => rfl
  | case3 => rfl

/-- What starts with a byte below 128 is minimal after stripping. -/
theorem isMinimal_stripZeros {first : UInt8} {rest : List UInt8} (hfirst : first < 0x80) :
    IsMinimal (stripZeros (first :: rest)) := by
  -- A zero is dropped only before a byte below 128, which is the first of what is left.
  induction rest generalizing first with
  | nil => exact isMinimal_singleton first
  | cons second rest ih =>
    rw [stripZeros]
    split_ifs with h
    · exact ih h.2
    · refine isMinimal_cons_cons_iff.2 ⟨h, ?_⟩
      rintro ⟨rfl, _⟩
      exact absurd hfirst (by decide)

/-- The content written for a scalar is a shortest one of its number. -/
theorem isContentOf_integerContent (s : Scalar) : IsContentOf (integerContent s) s.toNat := by
  rw [isContentOf_iff, integerContent]
  refine ⟨isMinimal_stripZeros (by decide), ?_⟩
  have hzero : signedByte 0 = 0 := by decide
  rw [twosComplement_stripZeros, twosComplement_cons, hzero, s.decode_toBytes, zero_mul, zero_add]

/-! ### Written signatures -/

/-- A content of less than 128 bytes is written as an element. -/
theorem tagged_eq_element {tag : UInt8} {content : List UInt8} (h : content.length < 128) :
    tagged tag content = element tag content := by
  rw [tagged, element, definiteLength_of_lt h, List.singleton_append]

/-- What is written for two scalars is an element of two elements. -/
theorem encode_eq_element (r s : Scalar) :
    encode r s = element sequenceTag
      (element integerTag (integerContent r) ++ element integerTag (integerContent s)) := by
  have hr := length_integerContent_le r
  have hs := length_integerContent_le s
  have hsize := length_encode_le r s
  rw [maxLength, encode, tagged, List.length_cons, List.length_cons] at hsize
  rw [encode, tagged_eq_element (by omega), tagged_eq_element (by omega), tagged_eq_element (by omega)]

/-- What is written for two scalars is the sequence of their numbers. -/
theorem isSequenceOf_encode (r s : Scalar) : IsSequenceOf (encode r s) r.toNat s.toNat :=
  ⟨_, _, isContentOf_integerContent r, isContentOf_integerContent s, encode_eq_element r s⟩

theorem scalarPart_toNat (s : Scalar) : scalarPart s.toNat = s.toNat := by
  rw [scalarPart_natCast, if_pos s.toNat_lt]

theorem length_encode_lt (r s : Scalar) : (encode r s).length < 2 ^ 56 :=
  Nat.lt_of_le_of_lt (length_encode_le r s) (by decide)

/-- **What is written for two scalars is read as the two scalars.** -/
theorem decode_encode (r s : Scalar) : decode (encode r s) = .ok (r, s) := by
  rw [decode_eq_ok_iff (length_encode_lt r s)]
  exact ⟨_, _, isSequenceOf_encode r s, (scalarPart_toNat r).symm, (scalarPart_toNat s).symm⟩

end Der

/-- The DER form of a signature is read back as the signature. -/
theorem Signature.ofDer_toDer (sig : Signature) : ofDer sig.toDer.bytes = .ok sig := by
  rw [ofDer, toDer, Der.Encoded.bytes_ofScalars, Der.decode_encode]

/-- **Whatever is written is read back**: any two scalars, zeros included, from the stored form, which
    is what writing leaves at the front of 72 bytes; and any signature from its DER form. -/
theorem Signature.decode_written :
    (∀ r s : Scalar, Der.decode (Der.Encoded.ofScalars r s).bytes = .ok (r, s)
      ∧ ∃ length, (Der.writeInto (List.replicate 72 0) r s).outcome = .ok length
        ∧ (Der.writeInto (List.replicate 72 0) r s).buffer.take length
          = (Der.Encoded.ofScalars r s).bytes)
    ∧ ∀ sig : Signature, ofDer sig.toDer.bytes = .ok sig := by
  refine ⟨?_, ofDer_toDer⟩
  intro r s
  have hfits : Der.encodedLength r s ≤ (List.replicate 72 (0 : UInt8)).length := by
    rw [List.length_replicate]
    exact Der.encodedLength_le r s
  -- What is stored is the encoding without the zeros behind it.
  rw [Der.Encoded.bytes_ofScalars]
  exact ⟨Der.decode_encode r s, _, Der.take_writeInto hfits⟩

end CurveSign
