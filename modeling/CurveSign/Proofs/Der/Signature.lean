import CurveSign.Proofs.Der.Integer

namespace CurveSign

/-!
# Reading signatures

A byte string of less than `2 ^ 56` bytes is read exactly if it is a sequence of two integers, each of
any sign and size, and what is returned are the two integers, with zero in place of one that is no
scalar (`Der.decode_ok_iff_isSequenceOf`).
-/

namespace Der

namespace Read

variable {r r' : Reader}

/-! ### The content of a sequence -/

/-- Reads two integers that end with the input. -/
def twoIntegers : Read (Scalar × Scalar) := do
  let a ← integer
  let b ← integer
  let left ← remaining
  if left ≠ 0 then throw (.trailingBytes left) else return (a, b)

/-- Two integers are read exactly from two integer elements with nothing behind them. -/
theorem run_twoIntegers_eq_ok_iff (h : r.Sound) {a b : Scalar} :
    (∃ r', twoIntegers.run r = .ok (a, b) r')
      ↔ ∃ content content', r.unread = element integerTag content ++ element integerTag content'
        ∧ (IsMinimal content ∧ (a.toNat : ℤ) = scalarPart (twosComplement content))
        ∧ IsMinimal content' ∧ (b.toNat : ℤ) = scalarPart (twosComplement content') := by
  unfold twoIntegers
  constructor
  · rintro ⟨r', hrun⟩
    obtain ⟨a', r₁, hfirst, hrun⟩ := run_bind_eq_ok_iff.1 hrun
    obtain ⟨content, rest, hunread, hminimal, hvalue, rfl⟩ := (run_integer_eq_ok_iff h).1 hfirst
    obtain ⟨hsound, hrest⟩ := h.skip_append hunread
    obtain ⟨b', r₂, hsecond, hrun⟩ := run_bind_eq_ok_iff.1 hrun
    obtain ⟨content', rest', hunread', hminimal', hvalue', rfl⟩ :=
      (run_integer_eq_ok_iff hsound).1 hsecond
    obtain ⟨hsound', hrest'⟩ := hsound.skip_append hunread'
    -- Nothing may be left behind the second integer.
    rw [run_bind (run_remaining hsound'), run_refuse_eq_ok_iff, not_not, run_pure_eq_ok_iff,
      Prod.mk.injEq, hrest', List.length_eq_zero_iff] at hrun
    obtain ⟨rfl, ⟨rfl, rfl⟩, _⟩ := hrun
    rw [hrest, List.append_nil] at hunread'
    rw [hunread'] at hunread
    exact ⟨content, content', hunread, ⟨hminimal, hvalue⟩, hminimal', hvalue'⟩
  · rintro ⟨content, content', hunread, ⟨hminimal, hvalue⟩, hminimal', hvalue'⟩
    obtain ⟨hsound, hrest⟩ := h.skip_append hunread
    rw [← List.append_nil (element integerTag content')] at hrest
    obtain ⟨hsound', hrest'⟩ := hsound.skip_append hrest
    have hfirst := (run_integer_eq_ok_iff h).2 ⟨content, _, hunread, hminimal, hvalue, rfl⟩
    have hsecond := (run_integer_eq_ok_iff hsound).2 ⟨content', _, hrest, hminimal', hvalue', rfl⟩
    rw [run_bind hfirst, run_bind hsecond, run_bind (run_remaining hsound'), hrest',
      if_neg (not_not_intro List.length_nil)]
    exact ⟨_, rfl⟩

/-! ### Sequences -/

/-- In front of a sequence that ends with the input, its content is read. -/
theorem run_signature_of_element (h : r.Sound) {content : List UInt8}
    (hunread : r.unread = element sequenceTag content) :
    ∃ r₁, r₁.Sound ∧ r₁.unread = content ∧ signature.run r = twoIntegers.run r₁ := by
  rw [← List.append_nil (element sequenceTag content)] at hunread
  obtain ⟨r₁, hlength, hsound, hrest, _⟩ := run_length_of_element h hunread
  rw [List.append_nil] at hrest
  have hleft := run_remaining hsound
  rw [hrest] at hleft
  refine ⟨r₁, hsound, hrest, ?_⟩
  unfold signature
  -- The tag and the length agree with the element, and then the integers are read.
  rw [run_bind (run_byte h hunread), if_neg (not_not_intro rfl), run_bind hlength, run_bind hleft,
    if_neg (not_not_intro rfl)]
  rfl

/-- A signature that is read is a sequence with some content. -/
theorem element_of_run_signature (h : r.Sound) {scalars : Scalar × Scalar}
    (hrun : signature.run r = .ok scalars r') :
    ∃ content, r.unread = element sequenceTag content := by
  unfold signature at hrun
  obtain ⟨tag, r₀, hbyte, hrun⟩ := run_bind_eq_ok_iff.1 hrun
  obtain ⟨tail, hunread, rfl⟩ := (run_byte_eq_ok_iff h).1 hbyte
  rw [run_refuse_eq_ok_iff, not_not] at hrun
  obtain ⟨rfl, hrun⟩ := hrun
  obtain ⟨m, r₁, hlength, hrun⟩ := run_bind_eq_ok_iff.1 hrun
  obtain ⟨hsound, helement⟩ := element_of_run_length h hunread hlength
  rw [run_bind (run_remaining hsound), run_refuse_eq_ok_iff, not_not] at hrun
  obtain ⟨content, rest, hcontent, helement, hrest⟩ := helement hrun.1.le
  -- The length is that of all the bytes behind it, so nothing stands behind the content.
  have hcount := hrun.1
  rw [hrest, List.length_append, hcontent, Nat.left_eq_add, List.length_eq_zero_iff] at hcount
  rw [hcount, List.append_nil] at helement
  exact ⟨content, helement⟩

/-- A signature is read exactly from a sequence of two integer elements with minimal contents. -/
theorem run_signature_eq_ok_iff (h : r.Sound) {a b : Scalar} :
    (∃ r', signature.run r = .ok (a, b) r')
      ↔ ∃ content content',
        r.unread = element sequenceTag (element integerTag content ++ element integerTag content')
        ∧ (IsMinimal content ∧ (a.toNat : ℤ) = scalarPart (twosComplement content))
        ∧ IsMinimal content' ∧ (b.toNat : ℤ) = scalarPart (twosComplement content') := by
  constructor
  · rintro ⟨r', hrun⟩
    -- The element is found first, since only then what is inside it can be read.
    obtain ⟨body, hunread⟩ := element_of_run_signature h hrun
    obtain ⟨r₁, hsound, hbody, heq⟩ := run_signature_of_element h hunread
    rw [heq] at hrun
    obtain ⟨content, content', hcontents, hrest⟩ := (run_twoIntegers_eq_ok_iff hsound).1 ⟨r', hrun⟩
    rw [hunread, ← hbody, hcontents]
    exact ⟨content, content', rfl, hrest⟩
  · rintro ⟨content, content', hunread, hrest⟩
    obtain ⟨r₁, hsound, hbody, heq⟩ := run_signature_of_element h hunread
    rw [heq]
    exact (run_twoIntegers_eq_ok_iff hsound).2 ⟨content, content', hbody, hrest⟩

end Read

/-! ### Whole signatures -/

variable {bytes : List UInt8}

/-- Decoding is a run from the start of the bytes, whatever reader it leaves behind. -/
theorem decode_eq_ok_iff_run {scalars : Scalar × Scalar} :
    decode bytes = .ok scalars
      ↔ ∃ r', Read.signature.run (Reader.start bytes) = .ok scalars r' := by
  rw [decode]
  cases Read.signature.run (Reader.start bytes) with
  | ok scalars' r' =>
    rw [Except.ok.injEq]
    exact ⟨fun h => ⟨r', h ▸ rfl⟩, fun ⟨_, h⟩ => (EStateM.Result.ok.inj h).1⟩
  | error e r' => exact ⟨nofun, fun ⟨_, h⟩ => nomatch h⟩

/-- Two scalars are read exactly from a sequence of two integers of which they are the scalars. -/
theorem decode_eq_ok_iff (h : bytes.length < 2 ^ 56) {r s : Scalar} :
    decode bytes = .ok (r, s)
      ↔ ∃ a b, IsSequenceOf bytes a b ∧ (r.toNat : ℤ) = scalarPart a
        ∧ (s.toNat : ℤ) = scalarPart b := by
  rw [decode_eq_ok_iff_run, Read.run_signature_eq_ok_iff (Reader.sound_start h), Reader.unread_start]
  constructor
  · rintro ⟨content, content', hbytes, ⟨hminimal, hr⟩, hminimal', hs⟩
    -- The numbers are those that the contents spell.
    have hcontent := isContentOf_iff.2 ⟨hminimal, rfl⟩
    have hcontent' := isContentOf_iff.2 ⟨hminimal', rfl⟩
    exact ⟨_, _, ⟨content, content', hcontent, hcontent', hbytes⟩, hr, hs⟩
  · rintro ⟨a, b, ⟨content, content', hcontent, hcontent', hbytes⟩, hr, hs⟩
    obtain ⟨hminimal, rfl⟩ := isContentOf_iff.1 hcontent
    obtain ⟨hminimal', rfl⟩ := isContentOf_iff.1 hcontent'
    exact ⟨content, content', hbytes, ⟨hminimal, hr⟩, hminimal', hs⟩

/-- **Strict DER.** A byte string of less than `2 ^ 56` bytes is read exactly if it is a sequence of two
    integers, and then as those of them that are scalars, with zero for the others. -/
theorem decode_ok_iff_isSequenceOf (h : bytes.length < 2 ^ 56) :
    ((∃ scalars, decode bytes = .ok scalars) ↔ ∃ a b, IsSequenceOf bytes a b)
      ∧ ∀ a b, IsSequenceOf bytes a b → ∃ r s, decode bytes = .ok (r, s)
        ∧ (r.toNat : ℤ) = scalarPart a ∧ (s.toNat : ℤ) = scalarPart b := by
  -- Every number has a scalar part, so no sequence is refused for its numbers.
  have hread : ∀ a b, IsSequenceOf bytes a b → ∃ r s, decode bytes = .ok (r, s)
      ∧ (r.toNat : ℤ) = scalarPart a ∧ (s.toNat : ℤ) = scalarPart b := by
    intro a b hsequence
    obtain ⟨r, hr⟩ := exists_toNat_eq_scalarPart a
    obtain ⟨s, hs⟩ := exists_toNat_eq_scalarPart b
    exact ⟨r, s, (decode_eq_ok_iff h).2 ⟨a, b, hsequence, hr, hs⟩, hr, hs⟩
  refine ⟨⟨?_, ?_⟩, hread⟩
  · rintro ⟨⟨r, s⟩, hdecode⟩
    obtain ⟨a, b, hsequence, _⟩ := (decode_eq_ok_iff h).1 hdecode
    exact ⟨a, b, hsequence⟩
  · rintro ⟨a, b, hsequence⟩
    obtain ⟨r, s, hdecode, _⟩ := hread a b hsequence
    exact ⟨(r, s), hdecode⟩

/-- A sequence of `256 ^ 127`, which is no scalar, and 5.  It and its first integer have long lengths. -/
def longSequence : List UInt8 :=
  0x30 :: 0x81 :: 0x86 :: 0x02 :: 0x81 :: 0x80 :: 0x01 :: (List.replicate 127 0x00 ++ [0x02, 0x01, 0x05])

/-- The integers are a power of two far above the order, and five. -/
theorem isSequenceOf_longSequence : IsSequenceOf longSequence (256 ^ 127) 5 := by
  -- The first byte is not zero, so no byte is one too many.
  have hfirst : IsContentOf (0x01 :: List.replicate 127 0x00) (256 ^ 127) := by
    refine isContentOf_iff.2 ⟨?_, ?_⟩
    · rw [List.replicate_succ, isMinimal_cons_cons_iff]
      decide
    · have hzeros : BigEndian.decode (List.replicate 127 0x00) = 0 := by
        rw [← List.append_nil (List.replicate 127 0x00), BigEndian.decode_replicate_append]
        rfl
      rw [twosComplement_cons, hzeros, List.length_replicate]
      rfl
  have hsecond : IsContentOf [0x05] 5 := isContentOf_iff.2 ⟨isMinimal_singleton _, rfl⟩
  -- The content has 128 bytes, the first length that takes two octets.
  have helement : element integerTag (0x01 :: List.replicate 127 0x00)
      = 0x02 :: 0x81 :: 0x80 :: 0x01 :: List.replicate 127 0x00 := by
    rw [element, List.length_cons, List.length_replicate]
    exact congrArg (fun octets => 0x02 :: (octets ++ _)) (definiteLength_toNat (b := 0x80) (by decide))
  have helement' : element integerTag [0x05] = [0x02, 0x01, 0x05] := rfl
  have hlength : (0x02 :: 0x81 :: 0x80 :: 0x01 :: List.replicate 127 0x00 ++ [0x02, 0x01, 0x05]
      : List UInt8).length = (0x86 : UInt8).toNat := by
    simp
  refine ⟨_, _, hfirst, hsecond, ?_⟩
  rw [helement, helement', element, hlength, definiteLength_toNat (by decide)]
  rfl

/-- The sequence is read, with zero for the number that is no scalar. -/
theorem decode_longSequence :
    longSequence.length < 2 ^ 56 ∧ IsSequenceOf longSequence (256 ^ 127) 5
      ∧ ∃ r s, decode longSequence = .ok (r, s) ∧ (r.toNat : ℤ) = 0 ∧ (s.toNat : ℤ) = 5 := by
  have hlength : longSequence.length < 2 ^ 56 := by
    simp [longSequence]
  refine ⟨hlength, isSequenceOf_longSequence, ?_⟩
  obtain ⟨r, s, hdecode, hr, hs⟩ :=
    (decode_ok_iff_isSequenceOf hlength).2 _ _ isSequenceOf_longSequence
  -- An integer of 1017 bits is well-formed, and no scalar.
  have hlarge : scalarPart (256 ^ 127) = 0 := by
    refine if_neg ?_
    decide
  have hsmall : scalarPart 5 = 5 := by
    refine if_pos ?_
    decide
  exact ⟨r, s, hdecode, hr.trans hlarge, hs.trans hsmall⟩

end Der

end CurveSign
