import CurveSign.Proofs.Der.DefiniteForm
import CurveSign.Proofs.Der.Signature
import CurveSign.Proofs.Rejection
import CurveSign.Signature.Basic
import Mathlib.Data.List.GetD

namespace CurveSign

/-!
# Reasons of a reader

What reading a signature checks, in order and in terms of the bytes, with the event of each check
(`Der.sequenceChecks`).  The first check that fails is the one that is reported, unless the bytes are in
order up to their end and end where one more is needed (`Der.Read.follows_signature`).

The checks of a later part are told by where it starts, which is behind whatever form the parts in front
have (`Der.behindLength`, `Der.behindInteger`).  For the octets of a length that is one check each: of the
number that they spell so far, which is what the loop over them has computed by then
(`Der.Read.follows_lengthOctets`).
-/

namespace Der

/-! ### Checks -/

/-- After an octet: the bytes cannot hold all octets and as many bytes as those so far count. -/
def octetCheck (octets : ℕ) (bytes : List UInt8) (before : ℕ) : Check :=
  let length := BigEndian.decode (bytes.take (before + 1))
  ⟨bytes.length < octets + length, ⟨"DER length exceeds input", [("len", length)]⟩⟩

/-- The checks of a long length in front of its octets. -/
def longLengthChecks (octets : ℕ) (bytes : List UInt8) : List Check :=
  let length := BigEndian.decode (bytes.take octets)
  ⟨bytes.length < octets, ⟨"DER length octets exceed input", [("octets_left", octets)]⟩⟩
    :: ⟨bytes.head? = some 0, ⟨"non-minimal DER length: leading zero octet", []⟩⟩
    :: ⟨8 < octets, ⟨"DER length does not fit in usize", [("octets_left", octets)]⟩⟩
    :: ((List.range octets).map (octetCheck octets bytes)
      ++ [⟨length < 128, ⟨"non-minimal DER length: long form below 128", [("len", length)]⟩⟩])

/-- The checks of a length in front of the bytes. -/
def lengthChecks : List UInt8 → List Check
  | [] => []
  | b :: rest =>
    if b < 0x80 then []
    else ⟨b = 0xFF, ⟨"DER length octet 0xFF is reserved", []⟩⟩
      :: ⟨b = 0x80, ⟨"indefinite DER length", []⟩⟩
      :: longLengthChecks (b.toNat - 128) rest

/-- The length in front of the bytes. -/
def frontLength : List UInt8 → ℕ
  | [] => 0
  | b :: rest => if b < 0x80 then b.toNat else BigEndian.decode (rest.take (b.toNat - 128))

/-- The bytes behind a length. -/
def behindLength : List UInt8 → List UInt8
  | [] => []
  | b :: rest => rest.drop (b.toNat - 128)

/-- The checks of the content of an integer. -/
def contentChecks (content : List UInt8) : List Check :=
  [⟨∃ second rest, content = 0x00 :: second :: rest ∧ second < 0x80,
      ⟨"superfluous 0x00 padding in DER INTEGER", []⟩⟩,
    ⟨∃ second rest, content = 0xFF :: second :: rest ∧ 0x80 ≤ second,
      ⟨"superfluous 0xFF padding in DER INTEGER", []⟩⟩]

/-- The checks of an integer in front of the bytes. -/
def integerChecks (bytes : List UInt8) : List Check :=
  let length := frontLength bytes.tail
  let rest := behindLength bytes.tail
  ⟨bytes.head? ≠ some integerTag, ⟨"expected DER INTEGER tag", []⟩⟩
    :: (lengthChecks bytes.tail
      ++ ⟨length = 0 ∨ rest.length < length, ⟨"DER INTEGER length out of bounds", [("len", length)]⟩⟩
        :: contentChecks (rest.take length))

/-- The bytes behind an integer. -/
def behindInteger (bytes : List UInt8) : List UInt8 :=
  (behindLength bytes.tail).drop (frontLength bytes.tail)

/-- The checks of two integers with nothing behind them. -/
def twoIntegersChecks (bytes : List UInt8) : List Check :=
  let left := (behindInteger (behindInteger bytes)).length
  integerChecks bytes
    ++ (integerChecks (behindInteger bytes)
      ++ [⟨left ≠ 0, ⟨"trailing bytes inside DER SEQUENCE", [("remaining", left)]⟩⟩])

/-- The checks of a sequence of two integers. -/
def sequenceChecks (bytes : List UInt8) : List Check :=
  let length := frontLength bytes.tail
  let content := behindLength bytes.tail
  ⟨bytes.head? ≠ some sequenceTag, ⟨"expected DER SEQUENCE tag", []⟩⟩
    :: (lengthChecks bytes.tail
      ++ ⟨length ≠ content.length, ⟨"DER SEQUENCE length does not match input",
          [("len", length), ("remaining", content.length)]⟩⟩
        :: twoIntegersChecks content)

/-- The bytes are in order up to their end, which is where their first byte or the first octet of a
    length is needed. -/
inductive EndsEarly : List UInt8 → Prop
  | empty : EndsEarly []
  | sequence : EndsEarly [sequenceTag]
  | first : EndsEarly (element sequenceTag [integerTag])
  | second {content : List UInt8} {value : ℤ} (h : IsContentOf content value) :
      EndsEarly (element sequenceTag (element integerTag content ++ [integerTag]))

/-! ### Fronts of bytes -/

/-- The length in front of bytes is read off from what it is written as. -/
theorem frontLength_definiteLength {m : ℕ} (hsmall : m < 2 ^ 56) (rest : List UInt8) :
    frontLength (definiteLength m ++ rest) = m := by
  -- One octet that is the length, or a first octet that counts the others.
  rcases Nat.lt_or_ge m 128 with hlt | hle
  · have hvalue : (UInt8.ofNat m).toNat = m := by
      rw [UInt8.toNat_ofNat']
      omega
    have hshort : UInt8.ofNat m < 0x80 := by
      rw [UInt8.lt_iff_toNat_lt, hvalue]
      exact hlt
    rw [definiteLength_of_lt hlt, List.singleton_append, frontLength, if_pos hshort, hvalue]
  · obtain ⟨hvalue, -, -⟩ := Read.toNat_longOctet hle hsmall
    have hlong : ¬ UInt8.ofNat (128 + (BigEndian.shortest m).length) < 0x80 := by
      rw [UInt8.lt_iff_toNat_lt, hvalue]
      exact Nat.not_lt.2 (Nat.le_add_right _ _)
    rw [definiteLength_of_le hle, List.cons_append, frontLength, if_neg hlong, hvalue,
      Nat.add_sub_cancel_left, List.take_left, BigEndian.decode_shortest]

/-- What stands behind a length is what it was written in front of. -/
theorem behindLength_definiteLength {m : ℕ} (hsmall : m < 2 ^ 56) (rest : List UInt8) :
    behindLength (definiteLength m ++ rest) = rest := by
  rcases Nat.lt_or_ge m 128 with hlt | hle
  · have hvalue : (UInt8.ofNat m).toNat - 128 = 0 := by
      rw [UInt8.toNat_ofNat']
      omega
    rw [definiteLength_of_lt hlt, List.singleton_append, behindLength, hvalue, List.drop_zero]
  · obtain ⟨hvalue, -, -⟩ := Read.toNat_longOctet hle hsmall
    rw [definiteLength_of_le hle, List.cons_append, behindLength, hvalue, Nat.add_sub_cancel_left,
      List.drop_left]

/-- What stands behind an integer is what it was written in front of. -/
theorem behindInteger_element {content : List UInt8} (hsmall : content.length < 2 ^ 56)
    (rest : List UInt8) : behindInteger (element integerTag content ++ rest) = rest := by
  rw [behindInteger, element, List.cons_append, List.tail_cons, List.append_assoc,
    behindLength_definiteLength hsmall, frontLength_definiteLength hsmall, List.drop_left]

namespace Read

variable {α β : Type} {r r' : Reader}

/-! ### Outcomes -/

/-- The outcome of a call, without the reader that it leaves behind. -/
def outcome (x : Read α) (r : Reader) : Except Rejection α :=
  match x.run r with
  | .ok a _ => .ok a
  | .error e _ => .error e

theorem outcome_of_run_eq_ok {x : Read α} {a : α} (h : x.run r = .ok a r') : x.outcome r = .ok a := by
  rw [outcome, h]

/-- A call with an outcome that is no refusal leaves a reader behind. -/
theorem exists_run_of_outcome {x : Read α} {a : α} (h : x.outcome r = .ok a) :
    ∃ r', x.run r = .ok a r' := by
  unfold outcome at h
  cases hrun : x.run r with
  | ok b r' =>
    rw [hrun] at h
    exact ⟨r', by rw [Except.ok.inj h]⟩
  | error e r' =>
    rw [hrun] at h
    exact nomatch h

/-- After a step that succeeds the outcome is that of the rest. -/
theorem outcome_bind {x : Read α} {a : α} (h : x.run r = .ok a r') (f : α → Read β) :
    (x >>= f).outcome r = (f a).outcome r' := by
  rw [outcome, run_bind h, outcome]

/-- A test decides on the outcome. -/
theorem outcome_ite {c : Prop} [Decidable c] (e : Rejection) (x : Read α) (r : Reader) :
    (if c then throw e else x : Read α).outcome r = if c then .error e else x.outcome r := by
  split_ifs <;> rfl

/-- What a refusal reports does not depend on what would have followed. -/
theorem events_bind {x : Read α} {event : Event} (h : events (x.outcome r) = [event])
    (f : α → Read β) : events ((x >>= f).outcome r) = [event] := by
  unfold outcome at h ⊢
  cases hrun : x.run r with
  | ok a r' =>
    rw [hrun] at h
    exact nomatch h
  | error e r' =>
    rw [run_bind_error hrun]
    rwa [hrun] at h

/-- **Two steps in sequence** make the checks of the first and then those of the second. -/
theorem follows_bind {x : Read α} {f : α → Read β} {checks rest : List Check}
    (h : Follows (x.outcome r) checks)
    (hf : ∀ a r', x.run r = .ok a r' → Follows ((f a).outcome r') rest) :
    Follows ((x >>= f).outcome r) (checks ++ rest) := by
  induction checks with
  | nil =>
    obtain ⟨a, ha⟩ := h
    obtain ⟨r', hrun⟩ := exists_run_of_outcome ha
    rw [outcome_bind hrun]
    exact hf a r' hrun
  | cons check checks ih => exact ⟨fun hfails => events_bind (h.1 hfails) f, fun hnot => ih (h.2 hnot)⟩

/-- A test in front of the rest is a check in front of its checks. -/
theorem follows_refuse {c : Prop} [Decidable c] {e : Rejection} {x : Read α} {check : Check}
    {rest : List Check} (hc : c ↔ check.fails) (he : e.event? = some check.event)
    (hrest : ¬ c → Follows (x.outcome r) rest) :
    Follows ((if c then throw e else x : Read α).outcome r) (check :: rest) := by
  rw [outcome_ite]
  exact follows_ite hc he hrest

theorem follows_pure (a : α) (r : Reader) : Follows ((pure a : Read α).outcome r) [] := ⟨a, rfl⟩

/-! ### Lengths -/

/-- The octets behind some that are read already make one check each. -/
theorem follows_lengthOctets (h : r.Sound) (front : List UInt8) {octetsLeft : ℕ}
    (hoctets : octetsLeft ≤ 8) (hinside : octetsLeft ≤ r.unread.length)
    (hfront : BigEndian.decode front + 1 < 2 ^ 56) :
    Follows ((lengthOctets octetsLeft (BigEndian.decode front)).outcome r)
      ((List.range' front.length octetsLeft).map
        (octetCheck (front.length + octetsLeft) (front ++ r.unread))) := by
  -- Each octet moves from the bytes that are unread to those that are read.
  induction octetsLeft generalizing r front with
  | zero => exact follows_pure _ r
  | succ octetsLeft ih =>
    obtain ⟨octet, rest, hunread⟩ := List.exists_cons_of_length_pos (Nat.zero_lt_of_lt hinside)
    obtain ⟨hsound, hrest⟩ := h.skip_one hunread
    have hsize := h.length_lt
    have hcount := r.length_unread
    rw [hunread, List.length_cons] at hcount hinside
    have hvalue : 256 * BigEndian.decode front + octet.toNat = BigEndian.decode (front ++ [octet]) :=
      (BigEndian.decode_append_singleton front octet).symm
    have htake : (front ++ octet :: rest).take (front.length + 1) = front ++ [octet] := by
      rw [List.append_cons]
      exact List.take_left' (by simp)
    have hstep := run_lengthOctets_succ h hunread (Nat.le_of_succ_le hoctets) hfront
    rw [hvalue] at hstep
    rw [List.range'_succ, List.map_cons, hunread]
    refine ⟨fun hfails => ?_, fun hnot => ?_⟩
    · unfold octetCheck at hfails ⊢
      simp only [htake, List.length_append, List.length_cons] at hfails ⊢
      rw [outcome, hstep, if_pos (by omega)]
      rfl
    · unfold octetCheck at hnot
      simp only [htake, List.length_append, List.length_cons] at hnot
      have hleft := ih hsound (front ++ [octet]) (Nat.le_of_succ_le hoctets)
        (by rw [hrest]; omega) (by omega)
      rw [hrest, List.length_append, List.length_singleton, List.append_assoc, List.singleton_append,
        Nat.add_assoc, Nat.add_comm 1] at hleft
      rw [outcome, hstep, if_neg (by omega)]
      exact hleft

/-- A long length makes its checks. -/
theorem follows_longLength (h : r.Sound) (octets : ℕ) :
    Follows ((longLength octets).outcome r) (longLengthChecks octets r.unread) := by
  unfold longLength
  rw [outcome_bind (run_remaining h), outcome_bind run_peek]
  refine follows_refuse Iff.rfl rfl fun hinside => ?_
  refine follows_refuse Iff.rfl rfl fun _ => ?_
  refine follows_refuse Iff.rfl rfl fun hfew => ?_
  rw [not_lt] at hinside hfew
  have hloop := follows_lengthOctets h [] hfew hinside (by rw [BigEndian.decode_nil]; norm_num)
  rw [List.length_nil, Nat.zero_add, List.nil_append, ← List.range_eq_range'] at hloop
  refine follows_bind hloop fun m r' hrun => ?_
  -- The complete length is the number of all octets.
  obtain ⟨-, hvalue, -, -⟩ :=
    (run_lengthOctets_eq_ok_iff h hfew (by norm_num)).1 hrun
  rw [Nat.zero_mul, Nat.zero_add] at hvalue
  rw [hvalue]
  exact follows_refuse Iff.rfl rfl fun _ => follows_pure m r'

/-- **A length** reports the first of its checks that fails, if there is an octet to start with. -/
theorem follows_length (h : r.Sound) (hne : r.unread ≠ []) :
    Follows (length.outcome r) (lengthChecks r.unread) := by
  obtain ⟨b, rest, hunread⟩ := List.exists_cons_of_ne_nil hne
  obtain ⟨hsound, hrest⟩ := h.skip_one hunread
  unfold length
  rw [outcome_bind (run_byte h hunread), hunread, lengthChecks]
  -- A short first octet passes the reserved value too, so no check is left.
  by_cases hshort : b < 0x80
  · have hreserved : b ≠ 0xFF := by
      rintro rfl
      exact absurd hshort (by decide)
    rw [if_neg hreserved, if_pos hshort, if_pos hshort]
    exact follows_pure _ _
  · rw [if_neg hshort, if_neg hshort, ← hrest]
    refine follows_refuse Iff.rfl rfl fun _ => ?_
    refine follows_refuse Iff.rfl rfl fun _ => ?_
    -- The checks behind it are on the octets counted by the low seven bits.
    exact follows_longLength hsound (b.toNat - 128)

/-- A length that is read is the one in front, and the bytes behind it are left. -/
theorem front_of_run_length (h : r.Sound) {m : ℕ} (hrun : length.run r = .ok m r') :
    r'.Sound ∧ m = frontLength r.unread ∧ r'.unread = behindLength r.unread := by
  obtain ⟨rest, hunread, hfit, rfl⟩ := (run_length_eq_ok_iff h).1 hrun
  obtain ⟨hsound, hrest⟩ := h.skip_append hunread
  have hsize := h.length_lt
  have hcount := congrArg List.length hunread
  rw [Reader.length_unread, List.length_append] at hcount
  -- What was read is the length only while it fits the octets in front of it.
  have hsmall : m < 2 ^ 56 := by
    rcases Nat.lt_or_ge m 128 with hlt | hle
    · omega
    · have hinside := hfit hle
      omega
  rw [hrest, hunread, frontLength_definiteLength hsmall, behindLength_definiteLength hsmall]
  exact ⟨hsound, rfl, rfl⟩

/-! ### Integers -/

/-- A content makes the checks of its padding, and its scalar is taken without any. -/
theorem follows_content (first : UInt8) (rest : List UInt8) :
    Follows ((checkPadding (first :: rest) first >>= fun _ =>
      scalarOfContent (first :: rest) first : Read Scalar).outcome r) (contentChecks (first :: rest)) := by
  obtain ⟨s, hscalar, -⟩ := run_scalarOfContent (r := r) first rest
  have haccepted : Follows ((scalarOfContent (first :: rest) first).outcome r) [] :=
    ⟨s, outcome_of_run_eq_ok hscalar⟩
  unfold checkPadding
  cases rest with
  | nil =>
    have hone : [first].length ≤ 1 := Nat.le_refl 1
    rw [if_pos hone, outcome_bind (run_pure ())]
    exact .of_not_fails nofun (.of_not_fails nofun haccepted)
  | cons second rest =>
    have hsecond : (byteAt (first :: second :: rest) 1).run r = .ok second r := run_byteAt rfl
    have htwo : ¬ (first :: second :: rest).length ≤ 1 := by
      rw [List.length_cons, List.length_cons]
      omega
    have hchecks : Follows ((if first = 0x00 ∧ second < 0x80 then throw .superfluousZeros
        else if first = 0xFF ∧ 0x80 ≤ second then throw .superfluousOnes
        else return () : Read Unit).outcome r) (contentChecks (first :: second :: rest)) := by
      refine follows_refuse ?_ rfl fun _ => follows_refuse ?_ rfl fun _ => follows_pure () r
      · simp
      · simp
    rw [if_neg htwo, bind_assoc, outcome_bind hsecond, ← List.append_nil (contentChecks _)]
    refine follows_bind hchecks fun _ r' hrun => ?_
    -- The test of the padding leaves the reader where it is.
    rw [run_refuse_eq_ok_iff, run_refuse_eq_ok_iff, run_pure_eq_ok_iff] at hrun
    rw [← hrun.2.2.2]
    exact haccepted

/-- **An integer** reports the first of its checks that fails, unless its tag is the last byte. -/
theorem follows_integer (h : r.Sound) (hlast : r.unread ≠ [integerTag]) :
    Follows (integer.outcome r) (integerChecks r.unread) := by
  unfold integer
  rw [outcome_bind run_peek]
  refine follows_refuse Iff.rfl rfl fun htag => ?_
  rw [not_not] at htag
  obtain ⟨tail, hunread⟩ := List.head?_eq_some_iff.1 htag
  obtain ⟨hsound, htail⟩ := h.skip_one hunread
  -- A tag with nothing behind it is the one end the checks do not see.
  have hne : tail ≠ [] := by
    rintro rfl
    exact hlast hunread
  have hlength := follows_length hsound (htail ▸ hne)
  rw [htail] at hlength
  rw [outcome_bind (run_advance_one h hunread), hunread, List.tail_cons]
  refine follows_bind hlength fun m r₁ hrun => ?_
  obtain ⟨hsound₁, hm, hrest⟩ := front_of_run_length hsound hrun
  rw [htail] at hm hrest
  rw [outcome_bind (run_remaining hsound₁), ← hm, ← hrest]
  refine follows_refuse Iff.rfl rfl fun hfits => ?_
  rw [not_or, not_lt] at hfits
  have hcount := List.length_take_of_le hfits.2
  -- The content is not empty, so the look at its first byte is no fault.
  obtain ⟨first, rest, hcontent⟩ := List.exists_cons_of_length_pos (by omega : 0 < (r₁.unread.take m).length)
  rw [outcome_bind (run_slice hsound₁ hfits.2), hcontent, outcome_bind (run_byteAt rfl)]
  exact follows_content first rest

/-! ### Signatures -/

/-- An integer that is read stands in an element with its shortest content, and the bytes behind the
    element are left. -/
theorem behind_of_run_integer (h : r.Sound) {s : Scalar} (hrun : integer.run r = .ok s r') :
    r'.Sound ∧ r'.unread = behindInteger r.unread
      ∧ ∃ content value, IsContentOf content value ∧ r.unread = element integerTag content ++ r'.unread := by
  obtain ⟨content, rest, hunread, hminimal, -, rfl⟩ := (run_integer_eq_ok_iff h).1 hrun
  obtain ⟨hsound, hrest⟩ := h.skip_append hunread
  have hsize := h.length_lt
  have hcount := congrArg List.length hunread
  -- The content lies inside the bytes, so its length is read back.
  have hsmall : content.length < 2 ^ 56 := by
    simp only [Reader.length_unread, List.length_append, element, List.length_cons] at hcount
    omega
  rw [hrest, hunread, behindInteger_element hsmall]
  exact ⟨hsound, rfl, content, _, isContentOf_iff.2 ⟨hminimal, rfl⟩, rfl⟩

/-- Two integers report the first of their checks that fails, unless a tag is the last byte. -/
theorem follows_twoIntegers (h : r.Sound) (hfirst : r.unread ≠ [integerTag])
    (hsecond : ∀ content value, IsContentOf content value →
      r.unread ≠ element integerTag content ++ [integerTag]) :
    Follows (twoIntegers.outcome r) (twoIntegersChecks r.unread) := by
  refine follows_bind (follows_integer h hfirst) fun a r₁ hrun => ?_
  obtain ⟨hsound, hrest, content, value, hcontent, hunread⟩ := behind_of_run_integer h hrun
  -- The bytes do not end behind the tag of the second integer either.
  have hlast : r₁.unread ≠ [integerTag] := by
    intro heq
    rw [heq] at hunread
    exact hsecond content value hcontent hunread
  rw [← hrest]
  refine follows_bind (follows_integer hsound hlast) fun b r₂ hrun' => ?_
  obtain ⟨hsound', hrest', -⟩ := behind_of_run_integer hsound hrun'
  rw [outcome_bind (run_remaining hsound'), ← hrest']
  exact follows_refuse Iff.rfl rfl fun _ => follows_pure (a, b) r₂

/-- **A signature** reports the first of its checks that fails, unless the bytes end early. -/
theorem follows_signature (h : r.Sound) (hends : ¬ EndsEarly r.unread) :
    Follows (signature.outcome r) (sequenceChecks r.unread) := by
  cases hunread : r.unread with
  | nil => exact absurd (hunread ▸ .empty) hends
  | cons tag tail =>
    obtain ⟨hsound, htail⟩ := h.skip_one hunread
    unfold signature
    rw [outcome_bind (run_byte h hunread)]
    refine follows_refuse (by simp) rfl fun htag => ?_
    obtain rfl := not_not.1 htag
    have hne : tail ≠ [] := by
      rintro rfl
      exact hends (hunread ▸ .sequence)
    have hlength := follows_length hsound (htail ▸ hne)
    rw [htail] at hlength
    rw [List.tail_cons]
    refine follows_bind hlength fun m r₁ hrun => ?_
    obtain ⟨hsound₁, hm, hrest⟩ := front_of_run_length hsound hrun
    obtain ⟨-, helement⟩ := element_of_run_length h hunread hrun
    rw [htail] at hm hrest
    rw [outcome_bind (run_remaining hsound₁), ← hm, ← hrest]
    refine follows_refuse Iff.rfl rfl fun hmatch => ?_
    rw [not_not] at hmatch
    -- The bytes are a sequence with what is left for its content, and do not end in a tag.
    obtain ⟨content, rest, hcount, hbytes, hleft⟩ := helement hmatch.le
    rw [hmatch, hleft, List.length_append, Nat.left_eq_add, List.length_eq_zero_iff] at hcount
    rw [hcount, List.append_nil] at hbytes hleft
    rw [hbytes, ← hleft] at hends
    refine follows_twoIntegers hsound₁ (fun heq => hends (heq ▸ .first)) ?_
    intro content' value hcontent heq
    exact hends (heq ▸ .second hcontent)

end Read

end Der

end CurveSign
