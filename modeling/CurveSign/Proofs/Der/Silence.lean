import CurveSign.Proofs.Der.Log

namespace CurveSign

/-!
# Refusals in silence

Reading a signature refuses bytes in silence exactly if they end where its first byte or the first octet
of a length is needed (`Der.EndsEarly`); all others that it refuses have one reason, the first check that
fails (`Signature.ofDer_firstReason`).  What the run reports on its way is what the outcome tells.

Two more steps would refuse in silence: the next byte in the loop over the octets of a length, and the
content of an integer.  Neither does, for what is tested in front of them: with any other rejections in
their place, reading is the same run (`Der.Read.run_signatureOr`).
-/

namespace Der

namespace Read

variable {α β : Type} {r r' : Reader}

/-! ### Bytes that end early -/

theorem outcome_of_run_eq_error {x : Read α} {e : Rejection} (h : x.run r = .error e r') :
    x.outcome r = .error e := by
  rw [outcome, h]

theorem run_length_of_nil (hunread : r.unread = []) : length.run r = .error .truncated r :=
  run_bind_error (run_bind_error (run_nextByte_of_nil hunread) _) _

/-- The tag of an integer as the last byte is refused for what is missing behind it. -/
theorem run_integer_of_last (h : r.Sound) (hunread : r.unread = [integerTag]) :
    integer.run r = .error .truncated (r.skip 1) := by
  obtain ⟨-, hnil⟩ := h.skip_one hunread
  have hpeek : peek.run r = .ok (some integerTag) r := by
    rw [run_peek, hunread]
    rfl
  unfold integer
  rw [run_bind hpeek, if_neg (not_not_intro rfl), run_bind (run_advance_one h hunread),
    run_bind_error (run_length_of_nil hnil)]

/-- Bytes that end early are refused for what is missing behind them. -/
theorem outcome_signature_of_endsEarly (h : r.Sound) (hends : EndsEarly r.unread) :
    signature.outcome r = .error .truncated := by
  generalize hunread : r.unread = bytes at hends
  -- Each end lies in front of a read of one byte, which refuses without a report.
  cases hends with
  | empty =>
    exact outcome_of_run_eq_error (run_bind_error (run_bind_error (run_nextByte_of_nil hunread) _) _)
  | sequence =>
    obtain ⟨-, hnil⟩ := h.skip_one hunread
    have hlength := run_length_of_nil hnil
    unfold signature
    rw [outcome_bind (run_byte h hunread), if_neg (not_not_intro rfl)]
    exact outcome_of_run_eq_error (run_bind_error hlength _)
  | first =>
    obtain ⟨r₁, hsound, hcontent, hrun⟩ := run_signature_of_element h hunread
    rw [outcome, hrun]
    exact outcome_of_run_eq_error (run_bind_error (run_integer_of_last hsound hcontent) _)
  | @second content value hcontent =>
    obtain ⟨r₁, hsound, hbytes, hrun⟩ := run_signature_of_element h hunread
    obtain ⟨hminimal, -⟩ := isContentOf_iff.1 hcontent
    obtain ⟨s, hs⟩ := exists_toNat_eq_scalarPart (twosComplement content)
    have hinteger := (run_integer_eq_ok_iff hsound).2 ⟨content, _, hbytes, hminimal, hs, rfl⟩
    obtain ⟨hsound', hlast⟩ := hsound.skip_append hbytes
    rw [outcome, hrun]
    unfold twoIntegers
    rw [run_bind hinteger]
    exact outcome_of_run_eq_error (run_bind_error (run_integer_of_last hsound' hlast) _)

/-! ### Failures that do not occur -/

/-- The next byte, or a rejection. -/
def nextByteOr (e : Rejection) : Read UInt8 := do
  match ← peek with
  | some b => return b
  | none => throw e

/-- The loop over the octets of a long length, with a rejection for a byte that is missing. -/
def lengthOctetsOr (e : Rejection) : (octetsLeft : ℕ) → (length : ℕ) → Read ℕ
  | 0, length => return length
  | octetsLeft + 1, length => do
    let octet ← nextByteOr e
    let length := appendOctet length octet
    let bound ← addWord length (octetsLeft + 1)
    let left ← remaining
    if left < bound then throw (.lengthExceedsInput length)
    else
      advance 1
      lengthOctetsOr e octetsLeft length

/-- Reads `count` bytes, with a rejection where there are fewer. -/
def sliceOr (e : Rejection) (count : ℕ) : Read (List UInt8) := do
  let left ← remaining
  if left < count then throw e
  else
    let r ← get
    advance count
    return (r.bytes.drop r.position).take count

/-- An integer whose length and content are read by `lengthRead` and `sliceRead`. -/
def integerBy (lengthRead : Read ℕ) (sliceRead : ℕ → Read (List UInt8)) : Read Scalar := do
  let tag ← peek
  if tag ≠ some integerTag then throw .expectedInteger
  else
    advance 1
    let length ← lengthRead
    let left ← remaining
    if length = 0 ∨ left < length then throw (.integerLengthOutOfBounds length)
    else
      let content ← sliceRead length
      let first ← byteAt content 0
      checkPadding content first
      scalarOfContent content first

/-- A signature whose lengths and contents are read by `lengthRead` and `sliceRead`. -/
def signatureBy (lengthRead : Read ℕ) (sliceRead : ℕ → Read (List UInt8)) : Read (Scalar × Scalar) := do
  let tag ← byte
  if tag ≠ sequenceTag then throw .expectedSequence
  else
    let length ← lengthRead
    let left ← remaining
    if length ≠ left then throw (.sequenceLengthMismatch length left)
    else
      let r ← integerBy lengthRead sliceRead
      let s ← integerBy lengthRead sliceRead
      let left ← remaining
      if left ≠ 0 then throw (.trailingBytes left) else return (r, s)

/-- A length, with a rejection for a byte that is missing among its octets. -/
def lengthOr (e : Rejection) : Read ℕ := lengthBy (lengthOctetsOr e · 0)

/-- A signature, with rejections for a byte that is missing among the octets of a length and for content
    that is missing behind one. -/
def signatureOr (inLength inContent : Rejection) : Read (Scalar × Scalar) :=
  signatureBy (lengthOr inLength) (sliceOr inContent)

theorem signatureBy_length_slice : signatureBy length slice = signature := rfl

theorem nextByteOr_truncated : nextByteOr .truncated = nextByte := rfl

theorem sliceOr_truncated : sliceOr .truncated = slice := rfl

/-- With the rejection that it has, the loop is the loop. -/
theorem lengthOctetsOr_truncated (octetsLeft m : ℕ) :
    lengthOctetsOr .truncated octetsLeft m = lengthOctets octetsLeft m := by
  induction octetsLeft generalizing m with
  | zero => rfl
  | succ octetsLeft ih =>
    simp only [lengthOctetsOr, lengthOctets, nextByteOr_truncated, ih]

/-- Two runs are the same if their first steps are and what follows on them is. -/
theorem run_bind_congr {x y : Read α} {f g : α → Read β} (h : x.run r = y.run r)
    (hfg : ∀ a r', y.run r = .ok a r' → (f a).run r' = (g a).run r') :
    (x >>= f).run r = (y >>= g).run r := by
  cases hy : y.run r with
  | ok a r' => rw [run_bind (h.trans hy), run_bind hy, hfg a r' hy]
  | error e r' => rw [run_bind_error (h.trans hy), run_bind_error hy]

/-- Where there is a byte, no rejection is needed for a missing one. -/
theorem run_nextByteOr (e : Rejection) {b : UInt8} {rest : List UInt8} (hunread : r.unread = b :: rest) :
    (nextByteOr e).run r = .ok b r := by
  have hpeek : peek.run r = .ok (some b) r := by
    rw [run_peek, hunread]
    rfl
  exact run_bind hpeek _

/-- A sum leaves the reader where it is. -/
theorem eq_of_run_addWord {a b c : ℕ} (h : (addWord a b).run r = .ok c r') : r = r' := by
  unfold addWord at h
  split_ifs at h
  · exact (run_pure_eq_ok_iff.1 h).2
  · exact nomatch h

/-- The loop misses no byte, since all octets have been found to lie inside the bytes. -/
theorem run_lengthOctetsOr (h : r.Sound) (e : Rejection) {octetsLeft : ℕ}
    (hinside : octetsLeft ≤ r.unread.length) (m : ℕ) :
    (lengthOctetsOr e octetsLeft m).run r = (lengthOctets octetsLeft m).run r := by
  -- The octets are all there, so the refusal the two loops differ in is never reached.
  induction octetsLeft generalizing r m with
  | zero => rfl
  | succ octetsLeft ih =>
    obtain ⟨octet, rest, hunread⟩ := List.exists_cons_of_length_pos (Nat.zero_lt_of_lt hinside)
    obtain ⟨hsound, hrest⟩ := h.skip_one hunread
    rw [hunread, List.length_cons] at hinside
    rw [lengthOctetsOr, lengthOctets, run_bind (run_nextByteOr e hunread), run_bind (run_nextByte hunread)]
    refine run_bind_congr rfl fun bound r₁ hbound => ?_
    obtain rfl := eq_of_run_addWord hbound
    rw [run_bind (run_remaining h), run_bind (run_remaining h)]
    split_ifs
    · rfl
    · rw [run_bind (run_advance_one h hunread), run_bind (run_advance_one h hunread)]
      refine ih hsound ?_ _
      rw [hrest]
      exact Nat.le_of_succ_le_succ hinside

/-- Reading a length never gets to the rejection: the octets that are read have been counted. -/
theorem run_lengthOr (h : r.Sound) (e : Rejection) : (lengthOr e).run r = length.run r := by
  rw [lengthOr, ← lengthBy_lengthOctets]
  rcases run_lengthBy_cases h with ⟨outcome, hsettled⟩ | ⟨octets, r₁, h₁, -, -, hinside, hrun⟩
  · rw [hsettled, hsettled]
  · rw [hrun, hrun]
    exact run_bind_congr (run_lengthOctetsOr h₁ e hinside 0) fun _ _ _ => rfl

/-- Reading bytes never gets to the rejection where there are as many. -/
theorem run_sliceOr (h : r.Sound) (e : Rejection) {count : ℕ} (hcount : count ≤ r.unread.length) :
    (sliceOr e count).run r = (slice count).run r := by
  unfold sliceOr slice
  rw [run_bind (run_remaining h), run_bind (run_remaining h), if_neg (by omega), if_neg (by omega)]

/-- The content of an integer is not missed, since its length has been compared with the bytes left. -/
theorem run_integerOr (h : r.Sound) (inLength inContent : Rejection) :
    (integerBy (lengthOr inLength) (sliceOr inContent)).run r = integer.run r := by
  unfold integerBy integer
  rw [run_bind run_peek, run_bind run_peek]
  split_ifs with htag
  · rfl
  rw [not_not] at htag
  obtain ⟨tail, hunread⟩ := List.head?_eq_some_iff.1 htag
  obtain ⟨hsound, -⟩ := h.skip_one hunread
  rw [run_bind (run_advance_one h hunread), run_bind (run_advance_one h hunread)]
  refine run_bind_congr (run_lengthOr hsound inLength) fun m r₁ hrun => ?_
  obtain ⟨hsound₁, -, -⟩ := front_of_run_length hsound hrun
  rw [run_bind (run_remaining hsound₁), run_bind (run_remaining hsound₁)]
  split_ifs with hbounds
  · rfl
  -- The test of the length has already passed, so the slice is within the bytes.
  rw [not_or, not_lt] at hbounds
  exact run_bind_congr (run_sliceOr hsound₁ inContent hbounds.2) fun _ _ _ => rfl

/-- **Neither failure occurs**: whatever would be reported for them, reading a signature is the same run. -/
theorem run_signatureOr (h : r.Sound) (inLength inContent : Rejection) :
    (signatureOr inLength inContent).run r = signature.run r := by
  unfold signatureOr signatureBy signature
  refine run_bind_congr rfl fun tag r₁ htag => ?_
  obtain ⟨rest, hunread, rfl⟩ := (run_byte_eq_ok_iff h).1 htag
  obtain ⟨hsound, -⟩ := h.skip_one hunread
  split_ifs
  · rfl
  -- The two readers share every test; only the two named refusals differ.
  refine run_bind_congr (run_lengthOr hsound inLength) fun m r₁ hrun => ?_
  obtain ⟨hsound₁, -, -⟩ := front_of_run_length hsound hrun
  rw [run_bind (run_remaining hsound₁), run_bind (run_remaining hsound₁)]
  split_ifs
  · rfl
  refine run_bind_congr (run_integerOr hsound₁ inLength inContent) fun a r₂ hrun => ?_
  obtain ⟨hsound₂, -, -⟩ := behind_of_run_integer hsound₁ hrun
  exact run_bind_congr (run_integerOr hsound₂ inLength inContent) fun _ _ _ => rfl

end Read

/-- The two scalars of a DER signature, with rejections for a byte that is missing among the octets of a
    length and for content that is missing behind one. -/
def decodeOr (inLength inContent : Rejection) (bytes : List UInt8) : Except Rejection (Scalar × Scalar) :=
  (Read.signatureOr inLength inContent).outcome (Reader.start bytes)

/-- Decoding is the outcome of reading from the start. -/
theorem decode_eq_outcome (bytes : List UInt8) :
    decode bytes = Read.signature.outcome (Reader.start bytes) := by
  unfold decode Read.outcome
  cases Read.signature.run (Reader.start bytes) <;> rfl

/-- With the rejections that it has, decoding is decoding. -/
theorem decodeOr_truncated : decodeOr .truncated .truncated = decode := by
  have hoctets : (Read.lengthOctetsOr .truncated · 0) = (Read.lengthOctets · 0) :=
    funext fun octets => Read.lengthOctetsOr_truncated octets 0
  funext bytes
  rw [decodeOr, Read.signatureOr, Read.lengthOr, hoctets, Read.lengthBy_lengthOctets,
    Read.sliceOr_truncated, Read.signatureBy_length_slice, decode_eq_outcome]

end Der

/-- Bytes that end early end in a tag, if there are any. -/
theorem Der.EndsEarly.getLast?_ne_zero {bytes : List UInt8} (h : Der.EndsEarly bytes) :
    bytes.getLast? ≠ some 0x00 := by
  cases h with
  | empty => decide
  | sequence => decide
  | first => decide
  | @second content value _ =>
    rw [Der.element, ← List.append_assoc, ← List.cons_append, List.getLast?_concat]
    decide

/-! ### Signatures -/

namespace Signature

/-- A signature is what is decoded, put together. -/
theorem ofDer_eq_map (bytes : List UInt8) :
    ofDer bytes = (Der.decode bytes).map fun scalars => ⟨scalars.1, scalars.2⟩ := by
  unfold ofDer
  cases Der.decode bytes <;> rfl

/-- **A refusal of DER has one reason, or none if the bytes end early.** An acceptance is silent.  A refusal
    is silent exactly if the bytes are in order up to their end and end where their first byte or the first
    octet of a length is needed; any other has one event, that of the first check that fails.  The two other
    steps that would refuse in silence do not: `Der.decode` is what it is with any rejections for them.
    Taken step by step, with the reports among the steps, reading has just these events in its log. -/
theorem ofDer_firstReason (bytes : List UInt8) (h : bytes.length < 2 ^ 56) :
    (∀ sig, ofDer bytes = .ok sig → events (ofDer bytes) = [])
    ∧ (((∃ e, ofDer bytes = .error e) ∧ events (ofDer bytes) = []) ↔ Der.EndsEarly bytes)
    ∧ (¬ Der.EndsEarly bytes →
      OneReason (ofDer bytes) ∧ Follows (ofDer bytes) (Der.sequenceChecks bytes))
    ∧ Der.decodeOr .truncated .truncated = Der.decode
    ∧ (∀ inLength inContent : Rejection, Der.decodeOr inLength inContent bytes = Der.decode bytes)
    ∧ Der.Script.signature.toRead = Der.Read.signature
    ∧ Der.Script.signature.log (Der.Reader.start bytes) = events (ofDer bytes) := by
  have hsound := Der.Reader.sound_start h
  have hfollows : ¬ Der.EndsEarly bytes → Follows (ofDer bytes) (Der.sequenceChecks bytes) := by
    intro hends
    rw [ofDer_eq_map, Der.decode_eq_outcome]
    exact (Der.Read.follows_signature hsound hends).map _
  refine ⟨?_, ⟨?_, ?_⟩, fun hends => ⟨(hfollows hends).oneReason, hfollows hends⟩,
    Der.decodeOr_truncated, ?_, Der.Script.toRead_signature, ?_⟩
  · intro sig hsig
    rw [hsig]
    rfl
  · rintro ⟨⟨e, herror⟩, hsilent⟩
    -- Any other rejection would follow the checks and so report once.
    by_contra hends
    have hone := (hfollows hends).oneReason
    rw [OneReason, hsilent, herror] at hone
    exact nomatch hone
  · intro hends
    have hdecode := Der.Read.outcome_signature_of_endsEarly hsound hends
    rw [ofDer_eq_map, Der.decode_eq_outcome, hdecode]
    exact ⟨⟨_, rfl⟩, rfl⟩
  · intro inLength inContent
    rw [Der.decodeOr, Der.Read.outcome, Der.Read.run_signatureOr hsound, Der.decode_eq_outcome]
    rfl
  · rw [Der.Script.tells_signature, Der.Script.toRead_signature, ofDer_eq_map, events_map,
      Der.decode_eq_outcome]

/-- A sequence that ends behind the tag of its second integer. -/
def cutBytes : List UInt8 := [0x30, 0x04, 0x02, 0x01, 0x05, 0x02]

/-- A sequence of 256 bytes, by its length, which are not there. -/
def claimingBytes : List UInt8 := [0x30, 0x82, 0x01, 0x00]

/-- The first is refused in silence.  The second is refused after the first of the two octets, with what is
    read by then. -/
theorem ofDer_firstReason_cut :
    cutBytes.length < 2 ^ 56 ∧ Der.EndsEarly cutBytes ∧ (∃ e, ofDer cutBytes = .error e)
    ∧ events (ofDer cutBytes) = []
    ∧ claimingBytes.length < 2 ^ 56 ∧ ¬ Der.EndsEarly claimingBytes
    ∧ events (ofDer claimingBytes) = [⟨"DER length exceeds input", [("len", 1)]⟩]
    ∧ Der.decodeOr .zeroS .highS claimingBytes = Der.decode claimingBytes := by
  have hcut : cutBytes.length < 2 ^ 56 := by decide
  have hclaiming : claimingBytes.length < 2 ^ 56 := by decide
  obtain ⟨-, hsilent, -⟩ := ofDer_firstReason cutBytes hcut
  obtain ⟨-, -, hfirst, -, hother, -⟩ := ofDer_firstReason claimingBytes hclaiming
  have hends : Der.EndsEarly cutBytes :=
    .second (Der.isContentOf_iff.2 ⟨Der.isMinimal_singleton 0x05, rfl⟩)
  have hgoesOn : ¬ Der.EndsEarly claimingBytes := fun h => absurd h.getLast?_ne_zero (by decide)
  obtain ⟨hrefused, hnone⟩ := hsilent.2 hends
  have hreport : events (ofDer claimingBytes) = [⟨"DER length exceeds input", [("len", 1)]⟩] := by
    -- The checks of the tag, of the first octet and of the number of octets pass.
    have hlength := ((hfirst hgoesOn).2.2 (by decide)).2 (by decide)
    have hoctets := ((hlength.2 (by decide)).2 (by decide)).2 (by decide)
    have hclaims : claimingBytes.tail.tail.length < 2 + BigEndian.decode [0x01] := by decide
    exact (hoctets.2 (by decide)).1 hclaims
  exact ⟨hcut, hends, hrefused, hnone, hclaiming, hgoesOn, hreport, hother _ _⟩

end Signature

end CurveSign
