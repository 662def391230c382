import CurveSign.Proofs.Der.Canonical
import CurveSign.Proofs.Rejection

namespace CurveSign

/-!
# Writing in place

An encoding is written into a buffer piece by piece, at places that are counted from the sizes of the
contents, and a size is known before anything is written.  With a fault wherever an index, a length or a
difference is out of range (`Der.InPlace`), the pieces follow on each other (`Der.InPlace.fill_eq`), so a
buffer with room has the encoding at its front and is unchanged behind it, and one without room is
unchanged (`Der.writeInto_exact`).
-/

namespace Der

/-! ### Fronts of buffers -/

/-- The buffer with other bytes in place of its first ones. -/
def fronted (front buffer : List UInt8) : List UInt8 := front ++ buffer.drop front.length

/-- A buffer before and after its first bytes were replaced. -/
structure FrontChanged (before after front : List UInt8) : Prop where
  length_eq : after.length = before.length
  take_eq : after.take front.length = front
  getElem?_eq : ∀ i, front.length ≤ i → after[i]? = before[i]?

/-- What writing some bytes into a buffer leads to: they replace its front if it has that much room, and
    otherwise it stays as it is and the size that is needed is reported. -/
structure IsWritten (bytes buffer : List UInt8) (written : Written) : Prop where
  ok_iff : (∃ size, written.outcome = .ok size) ↔ bytes.length ≤ buffer.length
  of_room : bytes.length ≤ buffer.length →
    written.outcome = .ok bytes.length ∧ FrontChanged buffer written.buffer bytes
  of_short : buffer.length < bytes.length →
    written.outcome = .error ⟨bytes.length⟩ ∧ written.buffer = buffer

variable {front buffer : List UInt8}

/-- A buffer keeps its size when its front is replaced. -/
theorem length_fronted (hroom : front.length ≤ buffer.length) :
    (fronted front buffer).length = buffer.length := by
  rw [fronted, List.length_append, List.length_drop]
  omega

/-- Replacing the front changes the front and nothing behind it. -/
theorem frontChanged_fronted (hroom : front.length ≤ buffer.length) :
    FrontChanged buffer (fronted front buffer) front := by
  refine ⟨length_fronted hroom, List.take_left, ?_⟩
  intro i hi
  rw [fronted, List.getElem?_append_right hi, List.getElem?_drop, Nat.add_sub_cancel' hi]

/-! ### Writing as a change of the front -/

/-- A sequence of two integers has four bytes more than their contents. -/
theorem tagged_sequence (content content' : List UInt8) :
    tagged sequenceTag (tagged integerTag content ++ tagged integerTag content')
      = [sequenceTag, UInt8.ofNat (4 + content.length + content'.length)]
        ++ tagged integerTag content ++ tagged integerTag content' := by
  have hlength : (tagged integerTag content ++ tagged integerTag content').length
      = 4 + content.length + content'.length := by
    simp +arith [tagged]
  rw [tagged, hlength, List.append_assoc]
  rfl

variable {r s : Scalar}

/-- With room the encoding replaces the front of the buffer. -/
theorem writeInto_of_le (hroom : encodedLength r s ≤ buffer.length) :
    writeInto buffer r s = ⟨.ok (encodedLength r s), fronted (encode r s) buffer⟩ := by
  rw [writeInto, if_neg (Nat.not_lt.2 hroom), fronted, length_encode]

/-- Without room the size that is needed comes back, and the buffer as it was. -/
theorem writeInto_of_lt (hshort : buffer.length < encodedLength r s) :
    writeInto buffer r s = ⟨.error ⟨encodedLength r s⟩, buffer⟩ := by
  rw [writeInto, if_pos hshort]

/-- Two integers of one byte each, and the tags and lengths, take 8 bytes. -/
theorem le_encodedLength (r s : Scalar) : 8 ≤ encodedLength r s := by
  have hr := List.length_pos_iff.2 (isContentOf_integerContent r).ne_nil
  have hs := List.length_pos_iff.2 (isContentOf_integerContent s).ne_nil
  rw [encodedLength]
  omega

/-- What is written is the encoding, and only at the front. -/
theorem isWritten_writeInto (buffer : List UInt8) (r s : Scalar) :
    IsWritten (encode r s) buffer (writeInto buffer r s) := by
  refine ⟨⟨?_, ?_⟩, ?_, ?_⟩
  · -- Nothing is written without room, so a success shows that there was room.
    rintro ⟨size, hsize⟩
    by_contra hshort
    rw [length_encode] at hshort
    rw [writeInto_of_lt (Nat.not_le.1 hshort)] at hsize
    exact nomatch hsize
  · intro hroom
    rw [length_encode] at hroom
    exact ⟨_, congrArg Written.outcome (writeInto_of_le hroom)⟩
  · intro hroom
    have hfront := frontChanged_fronted hroom
    rw [length_encode] at hroom ⊢
    rw [writeInto_of_le hroom]
    exact ⟨rfl, hfront⟩
  · intro hshort
    rw [length_encode] at hshort ⊢
    rw [writeInto_of_lt hshort]
    exact ⟨rfl, rfl⟩

namespace InPlace

/-! ### Steps -/

/-- The byte at an index, which must be inside the buffer. -/
def byteAt (buffer : List UInt8) (index : ℕ) : Except Fault UInt8 :=
  match buffer[index]? with
  | some b => .ok b
  | none => .error .outOfRange

/-- The bytes from `start` to `stop`, which must not be past the end. -/
def slice (buffer : List UInt8) (start stop : ℕ) : Except Fault (List UInt8) :=
  if start ≤ stop ∧ stop ≤ buffer.length then .ok ((buffer.take stop).drop start)
  else .error .outOfRange

/-- A difference, which must not be negative. -/
def difference (a b : ℕ) : Except Fault ℕ := if b ≤ a then .ok (a - b) else .error .overflow

/-- Replaces the byte at an index, which must be inside the buffer. -/
def put (buffer : List UInt8) (index : ℕ) (b : UInt8) : Except Fault (List UInt8) :=
  if index < buffer.length then .ok (buffer.set index b) else .error .outOfRange

/-- Replaces the bytes from `start` to `stop`, which must be as many as the new ones. -/
def copy (buffer : List UInt8) (start stop : ℕ) (bytes : List UInt8) : Except Fault (List UInt8) :=
  if start ≤ stop ∧ stop ≤ buffer.length ∧ bytes.length = stop - start then
    .ok (buffer.take start ++ bytes ++ buffer.drop stop)
  else .error .outOfRange

/-! ### Contents -/

/-- Where a content starts in 33 bytes: a zero is passed while the byte after it is below 128. -/
def contentStart (buffer : List UInt8) (start : ℕ) : Except Fault ℕ :=
  if start < 32 then do
    let first ← byteAt buffer start
    if first = 0 then
      let second ← byteAt buffer (start + 1)
      if second < 0x80 then contentStart buffer (start + 1) else return start
    else return start
  else return start
termination_by 32 - start

/-- The bytes of a scalar behind a zero, and where its content starts in them. -/
def guardedContent (s : Scalar) : Except Fault (List UInt8 × ℕ) := do
  let buffer ← copy (List.replicate 33 0) 1 33 s.toBytes
  let start ← contentStart buffer 0
  return (buffer, start)

/-- The size of the encoding of two scalars. -/
def length (r s : Scalar) : Except Fault ℕ := do
  let (_, rStart) ← guardedContent r
  let (_, sStart) ← guardedContent s
  let rLength ← difference 33 rStart
  let sLength ← difference 33 sStart
  return 6 + rLength + sLength

/-! ### Encodings -/

/-- Puts the header of an integer at a place, and its content from there to `stop`. -/
def putInteger (buffer : List UInt8) (position stop : ℕ) (bytes : List UInt8) :
    Except Fault (List UInt8) := do
  let buffer ← put buffer position integerTag
  let buffer ← put buffer (position + 1) (UInt8.ofNat bytes.length)
  copy buffer (position + 2) stop bytes

/-- Puts the header of a sequence of `required` bytes and its integers at their places. -/
def fill (buffer rBytes sBytes : List UInt8) (required : ℕ) : Except Fault (List UInt8) := do
  let buffer ← put buffer 0 sequenceTag
  let buffer ← put buffer 1 (UInt8.ofNat (4 + rBytes.length + sBytes.length))
  let buffer ← putInteger buffer 2 (4 + rBytes.length) rBytes
  putInteger buffer (4 + rBytes.length) required sBytes

/-- Writes the encoding of two scalars into a buffer that has room for it. -/
def write (buffer : List UInt8) (r s : Scalar) : Except Fault Written := do
  let (rBuffer, rStart) ← guardedContent r
  let (sBuffer, sStart) ← guardedContent s
  let rBytes ← slice rBuffer rStart rBuffer.length
  let sBytes ← slice sBuffer sStart sBuffer.length
  let required := 6 + rBytes.length + sBytes.length
  if buffer.length < required then
    return { outcome := .error { required := required }, buffer := buffer }
  else
    let buffer ← fill buffer rBytes sBytes required
    return { outcome := .ok required, buffer := buffer }

/-- An encoding at the front of 72 bytes, and its size. -/
structure Stored where
  buffer : List UInt8
  length : ℕ

/-- The bytes of a stored encoding. -/
def Stored.bytes (stored : Stored) : Except Fault (List UInt8) := slice stored.buffer 0 stored.length

/-- Writes the encoding of two scalars into 72 zeros, which must have room for it. -/
def store (r s : Scalar) : Except Fault Stored := do
  let written ← write (List.replicate maxLength 0) r s
  match written.outcome with
  | .ok length => return { buffer := written.buffer, length := length }
  | .error _ => throw .outOfRange

/-! ### No step of the contents fails -/

/-- The byte at an index is the first of what is left from there. -/
theorem byteAt_eq {rest : List UInt8} {index : ℕ} {b : UInt8} (h : buffer.drop index = b :: rest) :
    byteAt buffer index = .ok b := by
  have hget : (buffer.drop index)[0]? = buffer[index]? := List.getElem?_drop
  rw [h, List.getElem?_cons_zero] at hget
  rw [byteAt, ← hget]

/-- One turn of the loop over the bytes of a scalar. -/
theorem contentStart_of_lt (hlength : buffer.length = 33) {start : ℕ} (hstart : start < 32) :
    contentStart buffer start
      = if buffer[start] = 0 ∧ buffer[start + 1] < 0x80 then contentStart buffer (start + 1)
        else .ok start := by
  have hfirst := List.drop_eq_getElem_cons (show start < buffer.length by omega)
  have hsecond := List.drop_eq_getElem_cons (show start + 1 < buffer.length by omega)
  rw [contentStart, if_pos hstart, byteAt_eq hfirst, ok_bind, byteAt_eq hsecond, ok_bind]
  -- The second byte is looked at only behind a zero, but it exists in any case.
  by_cases hzero : buffer[start] = 0
  · rw [if_pos hzero]
    exact if_congr (by rw [hzero, eq_self, true_and]) rfl rfl
  · rw [if_neg hzero, if_neg (fun h => hzero h.1)]
    rfl

/-- Passing zeros from an index on leaves what stripping them leaves. -/
theorem contentStart_eq (hlength : buffer.length = 33) {start : ℕ} (hstart : start ≤ 32) :
    ∃ stop ≤ 32, contentStart buffer start = .ok stop
      ∧ buffer.drop stop = stripZeros (buffer.drop start) := by
  -- By the number of turns left; the last byte is never passed, so both reads stay inside.
  induction hleft : 32 - start generalizing start with
  | zero =>
    obtain ⟨last, hlast⟩ : ∃ last, buffer.drop start = [last] := by
      rw [← List.length_eq_one_iff, List.length_drop]
      omega
    refine ⟨start, hstart, ?_, ?_⟩
    · rw [contentStart, if_neg (by omega)]
      rfl
    · simp [hlast, stripZeros]
  | succ left ih =>
    have hinside : start < 32 := by omega
    have hfirst := List.drop_eq_getElem_cons (show start < buffer.length by omega)
    have hsecond := List.drop_eq_getElem_cons (show start + 1 < buffer.length by omega)
    rw [contentStart_of_lt hlength hinside, hfirst, hsecond, stripZeros, ← hsecond, ← hfirst]
    split_ifs
    · exact ih (by omega) (by omega)
    · exact ⟨start, hstart, rfl, rfl⟩

/-- No step over the bytes of a scalar fails.  What is left of them is its content, and is as long as
    the difference says. -/
theorem guardedContent_eq (s : Scalar) : ∃ guarded start, guardedContent s = .ok (guarded, start)
    ∧ difference 33 start = .ok (integerContent s).length
    ∧ slice guarded start guarded.length = .ok (integerContent s) := by
  have hbytes : s.toBytes.length = 32 := Word256.length_toBytes _
  have hlength : (0 :: s.toBytes).length = 33 := by rw [List.length_cons, hbytes]
  -- The copy starts with the guard, and the scan may go as far as the last byte.
  have hcopy : copy (List.replicate 33 0) 1 33 s.toBytes = .ok (0 :: s.toBytes) := by
    simp [copy, hbytes]
  obtain ⟨start, hstart, hrun, hdrop⟩ := contentStart_eq hlength (Nat.zero_le 32)
  have hcontent : (0 :: s.toBytes).drop start = integerContent s := hdrop
  refine ⟨0 :: s.toBytes, start, ?_, ?_, ?_⟩
  · rw [guardedContent, hcopy, ok_bind, hrun]
    rfl
  · rw [difference, if_pos (by omega), ← hcontent, List.length_drop, hlength]
  · rw [slice, if_pos ⟨by omega, le_rfl⟩, List.take_length, hcontent]

/-- The size is counted without a fault. -/
theorem length_eq (r s : Scalar) : length r s = .ok (encodedLength r s) := by
  obtain ⟨_, _, hr, hrLength, -⟩ := guardedContent_eq r
  obtain ⟨_, _, hs, hsLength, -⟩ := guardedContent_eq s
  simp only [length, hr, hs, ok_bind, hrLength, hsLength]
  rfl

/-! ### The pieces follow on each other -/

/-- Writing the byte behind a front that is done adds it to the front. -/
theorem put_fronted {index : ℕ} (hindex : index = front.length) (hroom : index < buffer.length)
    (b : UInt8) : put (fronted front buffer) index b = .ok (fronted (front ++ [b]) buffer) := by
  subst hindex
  rw [put, length_fronted hroom.le, if_pos hroom, fronted, fronted, List.drop_eq_getElem_cons hroom,
    List.set_append_right _ _ le_rfl, Nat.sub_self, List.set_cons_zero, List.length_append,
    List.append_assoc]
  rfl

/-- Copying bytes behind a front that is done adds them to the front. -/
theorem copy_fronted {start stop : ℕ} {bytes : List UInt8} (hstart : start = front.length)
    (hstop : stop = start + bytes.length) (hroom : stop ≤ buffer.length) :
    copy (fronted front buffer) start stop bytes = .ok (fronted (front ++ bytes) buffer) := by
  subst hstart hstop
  have hfits : front.length ≤ buffer.length := by omega
  have hcount : bytes.length = front.length + bytes.length - front.length := by omega
  rw [copy, length_fronted hfits, if_pos ⟨Nat.le_add_right _ _, hroom, hcount⟩, fronted, fronted,
    List.take_left, ← List.drop_drop, List.drop_left, List.drop_drop, List.length_append]

/-- An integer that is put behind a front extends it. -/
theorem putInteger_fronted {position stop : ℕ} {bytes : List UInt8} (hposition : position = front.length)
    (hstop : stop = position + 2 + bytes.length) (hroom : stop ≤ buffer.length) :
    putInteger (fronted front buffer) position stop bytes
      = .ok (fronted (front ++ tagged integerTag bytes) buffer) := by
  subst hposition
  rw [putInteger, put_fronted rfl (by omega), ok_bind, put_fronted (by simp) (by omega), ok_bind,
    copy_fronted (by simp) hstop hroom]
  simp [tagged]

/-- **The pieces follow on each other**, so what is behind them stays as it was. -/
theorem fill_eq {rBytes sBytes : List UInt8} {required : ℕ}
    (hrequired : required = 6 + rBytes.length + sBytes.length) (hroom : required ≤ buffer.length) :
    fill buffer rBytes sBytes required = .ok (fronted
      (tagged sequenceTag (tagged integerTag rBytes ++ tagged integerTag sBytes)) buffer) := by
  -- Each piece starts where the front that is written ends, so it extends that front.
  show fill (fronted [] buffer) rBytes sBytes required = _
  rw [fill, put_fronted (by simp) (by omega), ok_bind, put_fronted (by simp) (by omega), ok_bind,
    putInteger_fronted (by simp) (by omega) (by omega), ok_bind,
    putInteger_fronted (by simp +arith [tagged]) (by omega) hroom, tagged_sequence]
  rfl

/-- Writing in place is writing the encoding in front of what is left of the buffer. -/
theorem write_eq (buffer : List UInt8) (r s : Scalar) :
    write buffer r s = .ok (writeInto buffer r s) := by
  obtain ⟨_, _, hr, -, hrBytes⟩ := guardedContent_eq r
  obtain ⟨_, _, hs, -, hsBytes⟩ := guardedContent_eq s
  have hsize : 6 + (integerContent r).length + (integerContent s).length = encodedLength r s := by
    rw [encodedLength]
  simp only [write, hr, hs, ok_bind, hrBytes, hsBytes, hsize]
  -- The size is checked before the first byte is written.
  by_cases hshort : buffer.length < encodedLength r s
  · rw [if_pos hshort, writeInto_of_lt hshort]
    rfl
  · have hroom := Nat.not_lt.1 hshort
    rw [if_neg hshort, fill_eq hsize.symm hroom, ok_bind, writeInto_of_le hroom, encode]
    rfl

/-- What is stored is the encoding in 72 bytes and its size. -/
theorem store_eq (r s : Scalar) :
    store r s = .ok ⟨(Encoded.ofScalars r s).buffer, (Encoded.ofScalars r s).length⟩ := by
  have hfits : encodedLength r s ≤ (List.replicate maxLength (0 : UInt8)).length := by
    rw [List.length_replicate]
    exact encodedLength_le r s
  rw [store, write_eq, ok_bind, (take_writeInto hfits).1]
  simp only [Encoded.ofScalars]
  rfl

/-- The bytes of a stored encoding are inside its buffer. -/
theorem bytes_stored (e : Encoded) : Stored.bytes ⟨e.buffer, e.length⟩ = .ok e.bytes := by
  have hinside : e.length ≤ e.buffer.length := e.length_le.trans_eq e.length_buffer.symm
  rw [Stored.bytes, slice, if_pos ⟨Nat.zero_le _, hinside⟩, List.drop_zero, Encoded.bytes]

end InPlace

/-! ### Encodings with single bytes for lengths -/

/-- The bytes are the shortest contents of two integers behind their headers, whose lengths, and that
    of the sequence, are single bytes. -/
def IsShortSequenceOf (bytes : List UInt8) (a b : ℤ) : Prop :=
  ∃ content content', IsContentOf content a ∧ IsContentOf content' b
    ∧ 4 + content.length + content'.length < 128
    ∧ bytes = [0x30, UInt8.ofNat (4 + content.length + content'.length)]
      ++ [0x02, UInt8.ofNat content.length] ++ content
      ++ [0x02, UInt8.ofNat content'.length] ++ content'

/-- No integer of a signature needs a long length, so that all lengths have one octet. -/
theorem isShortSequenceOf_encode (r s : Scalar) : IsShortSequenceOf (encode r s) r.toNat s.toNat := by
  have hr := length_integerContent_le r
  have hs := length_integerContent_le s
  refine ⟨_, _, isContentOf_integerContent r, isContentOf_integerContent s, by omega, ?_⟩
  rw [encode, tagged_sequence]
  simp [tagged, sequenceTag, integerTag]

/-- Two scalars have one encoding, which is the one that is written. -/
theorem isSequenceOf_iff_eq_encode {bytes : List UInt8} :
    IsSequenceOf bytes r.toNat s.toNat ↔ bytes = encode r s := by
  refine ⟨?_, fun h => h ▸ isSequenceOf_encode r s⟩
  rintro ⟨content, content', hr, hs, rfl⟩
  rw [encode_eq_element, hr.unique (isContentOf_integerContent r), hs.unique (isContentOf_integerContent s)]

/-- **Writing in two phases.** An encoding has from 8 to 72 bytes, and is the one sequence of the two
    integers.  Writing it succeeds exactly into a buffer with that much room: the size is returned, and the
    encoding replaces the front of the buffer, whatever that was, and nothing else of it.  A smaller buffer
    stays as it is, and the size that is needed is reported.  No index is out of range on the way, and 72
    bytes have room for every encoding: the buffer that is stored holds it in front, with the size that is
    counted first, and copying that front out gives the encoding alone. -/
theorem writeInto_exact (r s : Scalar) (buffer : List UInt8) :
    8 ≤ encodedLength r s ∧ encodedLength r s ≤ 72 ∧ (encode r s).length = encodedLength r s
    ∧ IsShortSequenceOf (encode r s) r.toNat s.toNat
    ∧ (∀ bytes, IsSequenceOf bytes r.toNat s.toNat ↔ bytes = encode r s)
    ∧ IsWritten (encode r s) buffer (writeInto buffer r s)
    ∧ InPlace.write buffer r s = .ok (writeInto buffer r s)
    ∧ InPlace.length r s = .ok (encodedLength r s)
    ∧ (∃ stored, InPlace.store r s = .ok stored ∧ stored.length = encodedLength r s
      ∧ stored.bytes = .ok (encode r s)
      ∧ stored.buffer = (Signature.mk r s).toDer.buffer
      ∧ stored.length = (Signature.mk r s).toDer.length)
    ∧ (Signature.mk r s).toDer.bytes = encode r s ∧ (Signature.mk r s).toDerBytes = encode r s
    ∧ (Signature.mk r s).derLength = (Signature.mk r s).toDerBytes.length
    ∧ IsWritten (Signature.mk r s).toDerBytes buffer ((Signature.mk r s).writeDer buffer) := by
  have hbytes := Encoded.bytes_ofScalars r s
  refine ⟨le_encodedLength r s, encodedLength_le r s, length_encode r s, isShortSequenceOf_encode r s, ?_,
    isWritten_writeInto buffer r s, InPlace.write_eq buffer r s, InPlace.length_eq r s, ?_, hbytes, hbytes,
    ?_, ?_⟩
  · intro bytes
    exact isSequenceOf_iff_eq_encode
  · refine ⟨_, InPlace.store_eq r s, ?_, ?_, ?_, ?_⟩
    · simp only [Encoded.ofScalars]
    · rw [InPlace.bytes_stored, hbytes]
    · rw [Signature.toDer]
    · rw [Signature.toDer]
  · -- The copy has the size that was counted before.
    rw [Signature.toDerBytes, Signature.toDer, hbytes, length_encode]
    rfl
  · rw [Signature.toDerBytes, Signature.toDer, hbytes]
    exact isWritten_writeInto buffer r s

/-- A sequence of 0 and 128: the first keeps the only zero that it has, and the second needs one in
    front. -/
def zeroSequence : List UInt8 := [0x30, 0x07, 0x02, 0x01, 0x00, 0x02, 0x02, 0x00, 0x80]

theorem encode_zeroSequence : encode 0 (Residue.ofWord 128) = zeroSequence := by
  decide +kernel

/-- It is written into 11 bytes, of which the last two stay, and not into 8. -/
theorem writeInto_exact_zeroSequence :
    (writeInto (List.replicate 11 0xAA) 0 (Residue.ofWord 128)).outcome = .ok 9
    ∧ FrontChanged (List.replicate 11 0xAA)
      (writeInto (List.replicate 11 0xAA) 0 (Residue.ofWord 128)).buffer zeroSequence
    ∧ (writeInto (List.replicate 8 0xAA) 0 (Residue.ofWord 128)).outcome = .error ⟨9⟩
    ∧ (writeInto (List.replicate 8 0xAA) 0 (Residue.ofWord 128)).buffer = List.replicate 8 0xAA := by
  obtain ⟨-, -, -, -, -, hwritten, -⟩ :=
    writeInto_exact 0 (Residue.ofWord 128) (List.replicate 11 0xAA)
  obtain ⟨-, -, -, -, -, hrefused, -⟩ :=
    writeInto_exact 0 (Residue.ofWord 128) (List.replicate 8 0xAA)
  rw [encode_zeroSequence] at hwritten hrefused
  obtain ⟨houtcome, hfront⟩ := hwritten.of_room (by decide)
  exact ⟨houtcome, hfront, hrefused.of_short (by decide)⟩

end Der

end CurveSign
