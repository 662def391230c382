import CurveSign.Proofs.Der.Length
import CurveSign.Proofs.Der.Safety

namespace CurveSign

/-!
# Definite forms of a length

A length has many definite forms, and one of them is shortest: the octets of `Der.definiteLength`
(`Der.isLengthOf_iff`).  A reader accepts that one and no other (`Der.Read.length_exact`).

What the test inside the loop over the octets does, and what the arithmetic there does, is told by two
more ways to read the octets, put in place of the loop by `Der.Read.lengthBy`:

* `Der.Read.octetsThenTest` — all octets as a number of any size, and one test of the complete length: it
  accepts the same lengths, so the tests on the way refuse nothing that this one would not;
* `Der.Read.checkedOctets` — the loop with a fault where a shift would lose bits: it is the same run, and
  no run ends in a fault, so no bits are lost and no sum overflows, also on the way to a rejection.
-/

namespace Der

/-! ### Passing over bytes -/

/-- The first reader is in front of `front`, and the second is the same reader behind it, with `rest`
    and nothing else unread. -/
structure Reader.Passes (r : Reader) (front rest : List UInt8) (r' : Reader) : Prop where
  unread_eq : r.unread = front ++ rest
  bytes_eq : r'.bytes = r.bytes
  position_eq : r'.position = r.position + front.length
  rest_eq : r'.unread = rest

/-- Passing over some bytes is skipping as many. -/
theorem Reader.passes_iff {r r' : Reader} {front rest : List UInt8} :
    r.Passes front rest r' ↔ r.unread = front ++ rest ∧ r.skip front.length = r' := by
  constructor
  · rintro ⟨hunread, hbytes, hposition, -⟩
    obtain ⟨bytes, position⟩ := r'
    exact ⟨hunread, congrArg₂ Reader.mk hbytes.symm hposition.symm⟩
  · rintro ⟨hunread, rfl⟩
    refine ⟨hunread, rfl, rfl, ?_⟩
    rw [Reader.unread_skip, hunread, List.drop_left]

/-! ### Forms -/

/-- The octets are a definite form of the length: the length itself below 128, or the number of the
    octets that follow, counted from 128, and octets that spell the length.  The count 127 is reserved. -/
inductive IsDefiniteForm : List UInt8 → ℕ → Prop
  | short {length : ℕ} (hlt : length < 128) : IsDefiniteForm [UInt8.ofNat length] length
  | long {octets : List UInt8} (hne : octets ≠ []) (hcount : octets.length < 127) :
      IsDefiniteForm (UInt8.ofNat (128 + octets.length) :: octets) (BigEndian.decode octets)

/-- The octets are a definite form of the length, and no definite form of it is shorter. -/
structure IsLengthOf (octets : List UInt8) (length : ℕ) : Prop where
  form : IsDefiniteForm octets length
  length_le : ∀ other, IsDefiniteForm other length → octets.length ≤ other.length

variable {octets : List UInt8} {m : ℕ}

/-- What a length is written as is a definite form of it. -/
theorem isDefiniteForm_definiteLength (h : m < 256 ^ 126) : IsDefiniteForm (definiteLength m) m := by
  rcases Nat.lt_or_ge m 128 with hlt | hle
  · rw [definiteLength_of_lt hlt]
    exact .short hlt
  · have hne : BigEndian.shortest m ≠ [] := by
      rw [Ne, BigEndian.shortest_eq_nil_iff]
      omega
    have hform := IsDefiniteForm.long hne (Nat.lt_succ_of_le (BigEndian.length_shortest_le h))
    rwa [BigEndian.decode_shortest, ← definiteLength_of_le hle] at hform

/-- Among the octets of one count, those of a number are its bytes. -/
theorem eq_shortest_of_length_eq (h : octets.length = (BigEndian.shortest (BigEndian.decode octets)).length) :
    octets = BigEndian.shortest (BigEndian.decode octets) := by
  have hencode := BigEndian.encode_decode (BigEndian.shortest (BigEndian.decode octets))
  rwa [← h, BigEndian.decode_shortest, BigEndian.encode_decode] at hencode

/-- Any other definite form is longer. -/
theorem IsDefiniteForm.eq_or_length_lt (h : IsDefiniteForm octets m) :
    octets = definiteLength m ∨ (definiteLength m).length < octets.length := by
  cases h with
  | short hlt => exact .inl (definiteLength_of_lt hlt).symm
  | @long octets hne hcount =>
    -- A long form of a number below 128 is too long, and so is one with zeros in front.
    rcases Nat.lt_or_ge (BigEndian.decode octets) 128 with hlt | hle
    · right
      rw [definiteLength_of_lt hlt, List.length_singleton, List.length_cons]
      exact Nat.succ_lt_succ (List.length_pos_iff.2 hne)
    · rw [definiteLength_of_le hle, List.length_cons, List.length_cons]
      rcases Nat.lt_or_eq_of_le (BigEndian.length_shortest_le (BigEndian.decode_lt octets)) with hless | heq
      · exact .inr (Nat.succ_lt_succ hless)
      · left
        rw [← eq_shortest_of_length_eq heq.symm]

/-- A definite form has at most 126 octets for its number. -/
theorem IsDefiniteForm.lt (h : IsDefiniteForm octets m) : m < 256 ^ 126 := by
  cases h with
  | short hlt => exact hlt.trans_le (by norm_num)
  | @long octets hne hcount =>
    exact (BigEndian.decode_lt octets).trans_le
      (Nat.pow_le_pow_right (by decide) (Nat.le_of_lt_succ hcount))

/-- **The shortest definite form** of a length are the octets of `definiteLength`. -/
theorem isLengthOf_iff : IsLengthOf octets m ↔ octets = definiteLength m ∧ m < 256 ^ 126 := by
  constructor
  · rintro ⟨hform, hle⟩
    refine ⟨?_, hform.lt⟩
    -- The shortest form is no longer than what the length is written as.
    rcases hform.eq_or_length_lt with heq | hlt
    · exact heq
    · exact absurd (hle _ (isDefiniteForm_definiteLength hform.lt)) (Nat.not_le.2 hlt)
  · rintro ⟨rfl, h⟩
    refine ⟨isDefiniteForm_definiteLength h, fun other hother => ?_⟩
    rcases hother.eq_or_length_lt with rfl | hlt
    · exact le_rfl
    · exact hlt.le

namespace Read

/-! ### Other ways to read the octets -/

/-- What follows on the octets of a long length. -/
def finishLength (length : ℕ) : Read ℕ :=
  if length < 128 then throw (.longFormBelow128 length) else return length

/-- A long length whose octets are read by `octetsRead`. -/
def longLengthBy (octetsRead : ℕ → Read ℕ) (octets : ℕ) : Read ℕ := do
  let left ← remaining
  let first ← peek
  if left < octets then throw (.lengthOctetsExceedInput octets)
  else if first = some 0 then throw .leadingZeroLengthOctet
  else if 8 < octets then throw (.lengthTooWide octets)
  else octetsRead octets >>= finishLength

/-- A length whose octets, if it is long, are read by `octetsRead`. -/
def lengthBy (octetsRead : ℕ → Read ℕ) : Read ℕ := do
  let b ← byte
  if b = 0xFF then throw .reservedLengthOctet
  else if b < 0x80 then return b.toNat
  else if b = 0x80 then throw .indefiniteLength
  else longLengthBy octetsRead (b.toNat - 0x80)

theorem lengthBy_lengthOctets : lengthBy (lengthOctets · 0) = length := rfl

/-- Octets as a number of any size, behind the length so far, without any test. -/
def octetsUntested : (octetsLeft : ℕ) → (length : ℕ) → Read ℕ
  | 0, length => return length
  | octetsLeft + 1, length => do
    let octet ← byte
    octetsUntested octetsLeft (256 * length + octet.toNat)

/-- Octets as a number of any size, which is compared with the bytes after them once it is complete. -/
def octetsThenTest (octets : ℕ) : Read ℕ := do
  let length ← octetsUntested octets 0
  let left ← remaining
  if left < length then throw (.lengthExceedsInput length) else return length

/-- The loop over the octets, with a fault where shifting the length so far would lose bits. -/
def checkedOctets : (octetsLeft : ℕ) → (length : ℕ) → Read ℕ
  | 0, length => return length
  | octetsLeft + 1, length => do
    let octet ← nextByte
    if Word.base ≤ 256 * length then throw (.fault .overflow)
    else
      let length := 256 * length + octet.toNat
      let bound ← addWord length (octetsLeft + 1)
      let left ← remaining
      if left < bound then throw (.lengthExceedsInput length)
      else
        advance 1
        checkedOctets octetsLeft length

variable {r r' : Reader}

/-! ### What all ways share -/

/-- A long length is refused before its octets, or they are read and lie inside the bytes. -/
theorem run_longLengthBy_cases (h : r.Sound) (octets : ℕ) :
    (∃ outcome, ∀ octetsRead, (longLengthBy octetsRead octets).run r = outcome)
      ∨ octets ≤ 8 ∧ octets ≤ r.unread.length
        ∧ ∀ octetsRead, (longLengthBy octetsRead octets).run r = (octetsRead octets >>= finishLength).run r := by
  simp only [longLengthBy, run_bind (run_remaining h), run_bind run_peek]
  -- Three tests may settle the length before any octet is read.
  by_cases hleft : r.unread.length < octets
  · exact .inl ⟨_, fun _ => by rw [if_pos hleft]⟩
  by_cases hzero : r.unread.head? = some 0
  · exact .inl ⟨_, fun _ => by rw [if_neg hleft, if_pos hzero]⟩
  by_cases hwide : 8 < octets
  · exact .inl ⟨_, fun _ => by rw [if_neg hleft, if_neg hzero, if_pos hwide]⟩
  · refine .inr ⟨by omega, by omega, fun _ => ?_⟩
    rw [if_neg hleft, if_neg hzero, if_neg hwide]

/-- A length is settled before any octets, or they are read and lie inside the bytes. -/
theorem run_lengthBy_cases (h : r.Sound) :
    (∃ outcome, ∀ octetsRead, (lengthBy octetsRead).run r = outcome)
      ∨ ∃ octets r₁, r₁.Sound ∧ octets ≠ 0 ∧ octets ≤ 8 ∧ octets ≤ r₁.unread.length
        ∧ ∀ octetsRead, (lengthBy octetsRead).run r = (octetsRead octets >>= finishLength).run r₁ := by
  unfold lengthBy
  cases hunread : r.unread with
  | nil =>
    have hbyte : byte.run r = .error .truncated r := run_bind_error (run_nextByte_of_nil hunread) _
    exact .inl ⟨_, fun _ => run_bind_error hbyte _⟩
  | cons b rest =>
    simp only [run_bind (run_byte h hunread)]
    -- Of the first octet, only one from 0x81 to 0xFE is followed by others.
    by_cases hreserved : b = 0xFF
    · exact .inl ⟨_, fun _ => by rw [if_pos hreserved]⟩
    by_cases hshort : b < 0x80
    · exact .inl ⟨_, fun _ => by rw [if_neg hreserved, if_pos hshort]⟩
    by_cases hindefinite : b = 0x80
    · exact .inl ⟨_, fun _ => by rw [if_neg hreserved, if_neg hshort, if_pos hindefinite]⟩
    simp only [if_neg hreserved, if_neg hshort, if_neg hindefinite]
    obtain ⟨hsound, -⟩ := h.skip_one hunread
    have hsome : b.toNat - 128 ≠ 0 := by
      rw [UInt8.not_lt, UInt8.le_iff_toNat_le] at hshort
      rw [← UInt8.toNat_inj] at hindefinite
      change 128 ≤ b.toNat at hshort
      change b.toNat ≠ 128 at hindefinite
      omega
    rcases run_longLengthBy_cases hsound (b.toNat - 128) with hsettled | ⟨hfew, hinside, hrun⟩
    · exact .inl hsettled
    · exact .inr ⟨_, _, hsound, hsome, hfew, hinside, hrun⟩

/-! ### One test at the end -/

/-- Without a test the loop reads the number that the octets spell behind those read before. -/
theorem run_octetsUntested (h : r.Sound) {octetsLeft : ℕ} (hinside : octetsLeft ≤ r.unread.length)
    (length : ℕ) :
    (octetsUntested octetsLeft length).run r
      = .ok (length * 256 ^ octetsLeft + BigEndian.decode (r.unread.take octetsLeft))
          (r.skip octetsLeft) := by
  induction octetsLeft generalizing r length with
  | zero =>
    rw [octetsUntested, run_pure, List.take_zero, BigEndian.decode_nil, pow_zero, mul_one, Nat.add_zero]
    rfl
  | succ octetsLeft ih =>
    obtain ⟨octet, rest, hunread⟩ := List.exists_cons_of_length_pos (Nat.zero_lt_of_lt hinside)
    obtain ⟨hsound, hrest⟩ := h.skip_one hunread
    have hinside' : octetsLeft ≤ rest.length := by
      rw [hunread] at hinside
      exact Nat.le_of_succ_le_succ hinside
    -- What is read so far, with the octet behind it, is the new number in front of the rest.
    have hvalue := octets_value length octet (rest.take octetsLeft)
    rw [List.length_cons, List.length_take_of_le hinside'] at hvalue
    rw [octetsUntested, run_bind (run_byte h hunread), ih hsound (hrest ▸ hinside'), hrest, hunread,
      List.take_succ_cons, hvalue, Reader.skip_skip, Nat.add_comm 1]

/-- **The tests on the way** refuse no octets that one test of the complete length would accept. -/
theorem run_octetsThenTest_eq_ok_iff (h : r.Sound) {octets m : ℕ} (hsome : octets ≠ 0)
    (hfew : octets ≤ 8) (hinside : octets ≤ r.unread.length) :
    (octetsThenTest octets).run r = .ok m r' ↔ (lengthOctets octets 0).run r = .ok m r' := by
  have hafter := run_remaining (h.skip hinside)
  rw [Reader.unread_skip, List.length_drop] at hafter
  rw [octetsThenTest, run_bind (run_octetsUntested h hinside 0), run_bind hafter, run_refuse_eq_ok_iff,
    run_pure_eq_ok_iff, run_lengthOctets_eq_ok_iff h hfew (by norm_num), Nat.zero_mul, Nat.zero_add]
  -- With at most eight octets nothing was lost on the way, so the test at the end sees the number.
  constructor
  · rintro ⟨hfit, rfl, hr⟩
    exact ⟨hinside, rfl, fun _ => by omega, hr⟩
  · rintro ⟨-, rfl, hfit, hr⟩
    have hfit' := hfit hsome
    exact ⟨by omega, rfl, hr⟩

/-! ### Shifts with a test -/

/-- One octet, for a length so far that leaves room for it. -/
theorem run_checkedOctets_succ (h : r.Sound) {octet : UInt8} {rest : List UInt8}
    (hunread : r.unread = octet :: rest) {octetsLeft length : ℕ} (hfew : octetsLeft ≤ 8)
    (hlength : length + 1 < 2 ^ 56) :
    (checkedOctets (octetsLeft + 1) length).run r
      = if rest.length < 256 * length + octet.toNat + octetsLeft then
          .error (.lengthExceedsInput (256 * length + octet.toNat)) r
        else (checkedOctets octetsLeft (256 * length + octet.toNat)).run (r.skip 1) := by
  have hoctet := octet.toNat_lt
  -- Neither the shift nor the sum leaves a machine word, since the number so far fits the input.
  have hkept : ¬ Word.base ≤ 256 * length := by
    rw [Word.base]
    omega
  have hfits : 256 * length + octet.toNat + (octetsLeft + 1) < Word.base := by
    rw [Word.base]
    omega
  have hleft := run_remaining h
  rw [hunread, List.length_cons] at hleft
  rw [checkedOctets, run_bind (run_nextByte hunread), if_neg hkept]
  dsimp only
  rw [run_bind (run_addWord hfits), run_bind hleft]
  by_cases hlt : rest.length < 256 * length + octet.toNat + octetsLeft
  · rw [if_pos hlt, if_pos (by omega)]
    rfl
  · rw [if_neg hlt, if_neg (by omega), run_bind (run_advance_one h hunread)]

/-- **No bits are lost.** With a fault in the place of a loss the loop over the octets is the same run. -/
theorem run_checkedOctets (h : r.Sound) {octetsLeft length : ℕ} (hfew : octetsLeft ≤ 8)
    (hlength : length + 1 < 2 ^ 56) :
    (checkedOctets octetsLeft length).run r = (lengthOctets octetsLeft length).run r := by
  induction octetsLeft generalizing r length with
  | zero => rfl
  | succ octetsLeft ih =>
    have hfew' := Nat.le_of_succ_le hfew
    cases hunread : r.unread with
    | nil =>
      have hnext := run_nextByte_of_nil hunread
      rw [checkedOctets, lengthOctets, run_bind_error hnext, run_bind_error hnext]
    | cons octet rest =>
      obtain ⟨hsound, -⟩ := h.skip_one hunread
      rw [run_lengthOctets_succ h hunread hfew' hlength, run_checkedOctets_succ h hunread hfew' hlength]
      split_ifs with hlt
      · rfl
      · -- What passes the test is below the number of bytes left, as the next shift needs it.
        have hsize := h.length_lt
        have hcount := r.length_unread
        rw [hunread, List.length_cons] at hcount
        exact ih hsound hfew' (by omega)

/-! ### Lengths -/

/-- Reading a length meets no fault. -/
theorem length_ne_fault (h : r.Sound) (f : Fault) (r' : Reader) : length.run r ≠ .error (.fault f) r' := by
  have hrun := (Script.safe_length (Q := fun _ _ => True) h fun _ _ _ _ => trivial).run
  rw [Script.toRead_length] at hrun
  rcases hrun with ⟨m, r₁, hok, -⟩ | ⟨e, r₁, herror, he⟩
  · rw [hok]
    exact nofun
  · rw [herror]
    rintro ⟨⟩
    exact he f rfl

/-- A length that is read, as the shortest of its definite forms. -/
theorem run_length_eq_ok_iff_isLengthOf (h : r.Sound) {m : ℕ} :
    length.run r = .ok m r' ↔ ∃ octets rest,
      IsLengthOf octets m ∧ r.Passes octets rest r' ∧ (m < 128 ∨ 128 ≤ m ∧ m ≤ rest.length) := by
  rw [run_length_eq_ok_iff h]
  constructor
  · rintro ⟨rest, hunread, hfit, rfl⟩
    have hsize := h.length_lt
    have hcount := congrArg List.length hunread
    rw [Reader.length_unread, List.length_append] at hcount
    -- The length is one octet, or it fits the bytes behind it.
    have hsmall : m < 2 ^ 56 := by
      rcases Nat.lt_or_ge m 128 with hlt | hle
      · omega
      · have hinside := hfit hle
        omega
    refine ⟨_, rest, isLengthOf_iff.2 ⟨rfl, hsmall.trans_le (by norm_num)⟩,
      Reader.passes_iff.2 ⟨hunread, rfl⟩, ?_⟩
    exact (Nat.lt_or_ge m 128).imp_right fun hle => ⟨hle, hfit hle⟩
  · rintro ⟨octets, rest, hlength, hpasses, hfit⟩
    obtain ⟨rfl, -⟩ := isLengthOf_iff.1 hlength
    obtain ⟨hunread, rfl⟩ := Reader.passes_iff.1 hpasses
    exact ⟨rest, hunread, fun hle => by omega, rfl⟩

/-- **Lengths.** A length is read exactly from its shortest definite form, and one from 128 on only if as
    many bytes follow; the bytes behind the form stay unread.  One test of the complete length would
    accept the same.  A fault in the place of every loss of bits would change no run, and no run meets a
    fault. -/
theorem length_exact (r : Reader) (h : r.Sound) :
    (∀ m r', length.run r = .ok m r' ↔ ∃ octets rest,
      IsLengthOf octets m ∧ r.Passes octets rest r' ∧ (m < 128 ∨ 128 ≤ m ∧ m ≤ rest.length))
    ∧ (∀ m r', (lengthBy octetsThenTest).run r = .ok m r' ↔ length.run r = .ok m r')
    ∧ (lengthBy (checkedOctets · 0)).run r = length.run r
    ∧ ∀ f r', length.run r ≠ .error (.fault f) r' := by
  refine ⟨fun m r' => run_length_eq_ok_iff_isLengthOf h, ?_, ?_, length_ne_fault h⟩
  · intro m r'
    -- Either the octets are never reached, or the two loops start from the same reader.
    rw [← lengthBy_lengthOctets]
    rcases run_lengthBy_cases h with ⟨outcome, hsettled⟩ | ⟨octets, r₁, h₁, hsome, hfew, hinside, hrun⟩
    · rw [hsettled, hsettled]
    · simp only [hrun, run_bind_eq_ok_iff, run_octetsThenTest_eq_ok_iff h₁ hsome hfew hinside]
  · rw [← lengthBy_lengthOctets]
    rcases run_lengthBy_cases h with ⟨outcome, hsettled⟩ | ⟨octets, r₁, h₁, hsome, hfew, hinside, hrun⟩
    · rw [hsettled, hsettled]
    · rw [hrun, hrun, EStateM.run_bind, EStateM.run_bind, run_checkedOctets h₁ hfew (by norm_num)]

/-- A byte, the length 256 in three octets, and exactly so many bytes. -/
def filledBytes : List UInt8 := 0x05 :: 0x82 :: 0x01 :: 0x00 :: List.replicate 256 0xAA

/-- The length 256 takes two octets behind the first one. -/
theorem isLengthOf_256 : IsLengthOf [0x82, 0x01, 0x00] 256 := by
  have hshortest : [0x01, 0x00] = BigEndian.shortest 256 :=
    BigEndian.eq_shortest_iff.2 ⟨rfl, by decide⟩
  refine isLengthOf_iff.2 ⟨?_, by norm_num⟩
  rw [definiteLength_of_le (by norm_num), ← hshortest]
  rfl

/-- Behind its first byte the length is read, and the 256 bytes after it stay unread. -/
theorem length_exact_filled :
    Reader.Sound ⟨filledBytes, 1⟩
    ∧ length.run ⟨filledBytes, 1⟩ = .ok 256 ⟨filledBytes, 4⟩
    ∧ (lengthBy octetsThenTest).run ⟨filledBytes, 1⟩ = .ok 256 ⟨filledBytes, 4⟩
    ∧ (lengthBy (checkedOctets · 0)).run ⟨filledBytes, 1⟩ = .ok 256 ⟨filledBytes, 4⟩ := by
  have hbytes : filledBytes.length = 260 := by
    simp only [filledBytes, List.length_cons, List.length_replicate]
  have hsound : Reader.Sound ⟨filledBytes, 1⟩ := by
    refine ⟨?_, ?_⟩
    · rw [hbytes]
      norm_num
    · rw [hbytes]
      norm_num
  obtain ⟨hread, htest, hchecked, -⟩ := length_exact _ hsound
  have hlength : length.run ⟨filledBytes, 1⟩ = .ok 256 ⟨filledBytes, 4⟩ :=
    (hread _ _).2 ⟨_, List.replicate 256 0xAA, isLengthOf_256, ⟨rfl, rfl, rfl, rfl⟩,
      -- The content is there in full, as the reader asks of a length of several octets.
      .inr ⟨by norm_num, List.length_replicate.ge⟩⟩
  exact ⟨hsound, hlength, (htest _ _).2 hlength, hchecked.trans hlength⟩

end Read

end Der

end CurveSign
