import CurveSign.Proofs.Der.Course
import CurveSign.Proofs.Bytes.RoundTrip

namespace CurveSign

/-!
# Calls stay inside the bytes

Whatever the bytes and whatever the calls before, a call on a reader never leaves the bytes, not even on
its way to a failure, relies on nothing that does not hold, and moves forward when it succeeds.

A script is told from its end: `Script.Safe Q` says of a reader that the script taken from there is in
order at each step, and that `Q` holds of what it returns and of the reader then.  Each part of a call has
one lemma, which asks for `Q` at all that the part may return.
-/

namespace Der

namespace Reader

/-- The second reader is over the bytes of the first, not before it, and inside them. -/
structure Leads (r r' : Reader) : Prop where
  bytes_eq : r'.bytes = r.bytes
  position_le : r.position ≤ r'.position
  inside : r'.position ≤ r.bytes.length

theorem Sound.leads_self {r : Reader} (h : r.Sound) : r.Leads r := ⟨rfl, Nat.le_refl _, h.position_le⟩

/-- Skipping bytes that are there leads forward. -/
theorem Sound.leads_skip {r : Reader} (h : r.Sound) {count : ℕ} (hcount : count ≤ r.unread.length) :
    r.Leads (r.skip count) :=
  ⟨rfl, Nat.le_add_right _ _, (h.skip hcount).position_le⟩

/-- A sound reader only leads to sound readers. -/
theorem Sound.of_leads {r r' : Reader} (h : r.Sound) (hleads : r.Leads r') : r'.Sound := by
  refine ⟨?_, ?_⟩
  · rw [hleads.bytes_eq]
    exact hleads.inside
  · rw [hleads.bytes_eq]
    exact h.length_lt

/-- Steps forward add up. -/
theorem Leads.trans {r r' r'' : Reader} (h : r.Leads r') (h' : r'.Leads r'') : r.Leads r'' := by
  refine ⟨h'.bytes_eq.trans h.bytes_eq, Nat.le_trans h.position_le h'.position_le, ?_⟩
  rw [← h.bytes_eq]
  exact h'.inside

end Reader

namespace Script

variable {α β : Type} {r : Reader}

/-- From this reader on every step of the script succeeds, moves forward if at all and stays inside the
bytes, no condition that the script relies on fails, and `Q` holds where it returns. -/
def Safe (Q : α → Reader → Prop) : Script α → Reader → Prop
  | done a, r => Q a r
  | refuse e, _ => ∀ f, e ≠ .fault f
  | step s next, r => ∃ b r', s.toRead.run r = .ok b r' ∧ r.Leads r' ∧ (next b).Safe Q r'

/-! ### What safety says of a run -/

/-- **The way of a call.** The readers that a safe script passes through stay inside the bytes. -/
theorem Safe.leads_of_mem_course {Q : α → Reader → Prop} {x : Script α} (h : x.Safe Q r)
    (hr : r.Sound) : ∀ v ∈ x.course r, r.Leads v := by
  -- The rest of the script starts from a later reader, which is sound again.
  induction x generalizing r with
  | done a =>
    intro v hv
    rw [List.mem_singleton.1 hv]
    exact hr.leads_self
  | refuse e =>
    intro v hv
    rw [List.mem_singleton.1 hv]
    exact hr.leads_self
  | step s next ih =>
    obtain ⟨b, r', hrun, hleads, hnext⟩ := h
    intro v hv
    simp only [course, hrun, List.mem_cons] at hv
    obtain rfl | hv := hv
    · exact hr.leads_self
    · exact hleads.trans (ih b hnext (hr.of_leads hleads) v hv)

/-- A safe script returns as `Q` says, or refuses the input. -/
theorem Safe.run {Q : α → Reader → Prop} {x : Script α} (h : x.Safe Q r) :
    (∃ a r', x.toRead.run r = .ok a r' ∧ Q a r') ∨
      ∃ e r', x.toRead.run r = .error e r' ∧ ∀ f, e ≠ .fault f := by
  induction x generalizing r with
  | done a => exact .inl ⟨a, r, rfl, h⟩
  | refuse e => exact .inr ⟨e, r, rfl, h⟩
  | step s next ih =>
    -- A safe step succeeds, so what is left is what the rest of the script does.
    obtain ⟨b, r', hrun, -, hnext⟩ := h
    show (∃ a r', (s.toRead >>= fun b => (next b).toRead).run r = _ ∧ _) ∨
      ∃ e r', (s.toRead >>= fun b => (next b).toRead).run r = _ ∧ _
    rw [Read.run_bind hrun]
    exact ih b hnext

/-- The last reader of the course is the one that the call leaves behind. -/
theorem getLast?_course (x : Script α) (r : Reader) :
    (x.course r).getLast? = some (match x.toRead.run r with | .ok _ r' | .error _ r' => r') := by
  induction x generalizing r with
  | done a => rfl
  | refuse e => rfl
  | step s next ih =>
    show _ = some (match (s.toRead >>= fun b => (next b).toRead).run r with
      | .ok _ r' | .error _ r' => r')
    -- A step that succeeds puts its reader in front of the rest, and one that fails is the last.
    cases hrun : s.toRead.run r with
    | ok b r' =>
      have hcourse : (step s next).course r = r :: (next b).course r' := by
        simp only [course, hrun]
      rw [hcourse, List.getLast?_cons, ih b r', Read.run_bind hrun]
      rfl
    | error e r' =>
      simp only [course, EStateM.run_bind, hrun]
      rfl

/-! ### Safety step by step -/

section Steps

variable {Q : α → Reader → Prop}

/-- **Two scripts in sequence** are safe if the second is wherever the first may end. -/
theorem Safe.bind {Q : β → Reader → Prop} {x : Script α} {f : α → Script β}
    (h : x.Safe (fun a r' => (f a).Safe Q r') r) : (x >>= f).Safe Q r := by
  induction x generalizing r with
  | done a => exact h
  | refuse e => exact h
  | step s next ih =>
    obtain ⟨b, r', hrun, hleads, hnext⟩ := h
    exact ⟨b, r', hrun, hleads, ih b hnext⟩

/-- A test that refuses the input is safe if what follows is where it does not apply. -/
theorem safe_refuse_or {c : Prop} [Decidable c] {e : Rejection} {x : Script α}
    (he : ∀ f, e ≠ .fault f) (hx : ¬ c → x.Safe Q r) : (if c then refuse e else x).Safe Q r := by
  by_cases hc : c
  · rw [if_pos hc]
    exact he
  · rw [if_neg hc]
    exact hx hc

/-- Reporting a refusal is safe: the reader stays as it is. -/
theorem safe_reject (h : r.Sound) {event : Event} {e : Rejection} (he : ∀ f, e ≠ .fault f) :
    (reject event e : Script α).Safe Q r :=
  ⟨(), r, rfl, h.leads_self, he⟩

/-- A test that reports and refuses is safe likewise. -/
theorem safe_reject_or (h : r.Sound) {c : Prop} [Decidable c] {event : Event} {e : Rejection}
    {x : Script α} (he : ∀ f, e ≠ .fault f) (hx : ¬ c → x.Safe Q r) :
    (if c then reject event e else x).Safe Q r := by
  by_cases hc : c
  · rw [if_pos hc]
    exact safe_reject h he
  · rw [if_neg hc]
    exact hx hc

/-- Looking at the next byte is always safe. -/
theorem safe_peek {Q : Option UInt8 → Reader → Prop} (h : r.Sound) (hnext : Q r.unread.head? r) :
    (take .peek).Safe Q r :=
  ⟨_, _, Read.run_peek, h.leads_self, hnext⟩

/-- Counting the bytes that are left is safe for a sound reader. -/
theorem safe_remaining {Q : ℕ → Reader → Prop} (h : r.Sound) (hnext : Q r.unread.length r) :
    (take .remaining).Safe Q r :=
  ⟨_, _, Read.run_remaining h, h.leads_self, hnext⟩

/-- Looking at bytes is safe if there are as many. -/
theorem safe_window {Q : List UInt8 → Reader → Prop} (h : r.Sound) {count : ℕ}
    (hcount : count ≤ r.unread.length) (hnext : Q (r.unread.take count) r) :
    (take (.window count)).Safe Q r := by
  refine ⟨_, _, ?_, h.leads_self, hnext⟩
  have hposition := h.position_le
  rw [r.length_unread] at hcount
  have hfits : r.position + count ≤ r.bytes.length := by omega
  show (Read.window count).run r = _
  simp [Read.window, EStateM.run_bind, hfits, Reader.unread]

/-- Moving forward is safe if there are as many bytes. -/
theorem safe_advance {Q : Unit → Reader → Prop} (h : r.Sound) {count : ℕ}
    (hcount : count ≤ r.unread.length) (hnext : Q () (r.skip count)) :
    (take (.advance count)).Safe Q r :=
  ⟨_, _, Read.run_advance h hcount, h.leads_skip hcount, hnext⟩

/-- A sum is safe if it fits a machine word. -/
theorem safe_addWord {Q : ℕ → Reader → Prop} {a b : ℕ} (hfits : a + b < Word.base)
    (hnext : Q (a + b) r) : (addWord a b).Safe Q r := by
  unfold addWord
  rw [if_pos hfits]
  exact hnext

/-- An index is safe inside the bytes. -/
theorem safe_byteAt {Q : UInt8 → Reader → Prop} {content : List UInt8} {index : ℕ}
    (hindex : index < content.length) (hnext : ∀ b, Q b r) : (byteAt content index).Safe Q r := by
  unfold byteAt
  rw [List.getElem?_eq_getElem hindex]
  exact hnext _

end Steps

/-! ### Safety of the calls -/

section Calls

/-- Where the next byte is returned there is one. -/
theorem safe_nextByte {Q : UInt8 → Reader → Prop} (h : r.Sound)
    (hnext : ∀ b, 1 ≤ r.unread.length → Q b r) : nextByte.Safe Q r := by
  refine Safe.bind (safe_peek h ?_)
  cases hunread : r.unread with
  | nil => exact nofun
  | cons b rest => exact hnext b (by simp [hunread])

/-- Reading a byte moves forward. -/
theorem safe_byte {Q : UInt8 → Reader → Prop} (h : r.Sound)
    (hnext : ∀ b r', r.Leads r' → r.position < r'.position → Q b r') : byte.Safe Q r := by
  refine Safe.bind (safe_nextByte h fun b hcount => ?_)
  refine Safe.bind (safe_advance h hcount ?_)
  exact hnext b (r.skip 1) (h.leads_skip hcount) (Nat.lt_succ_self _)

/-- What is returned has the size that was asked for. -/
theorem safe_slice {Q : List UInt8 → Reader → Prop} (h : r.Sound) {count : ℕ}
    (hnext : ∀ content r', content.length = count → r.Leads r' → Q content r') :
    (slice count).Safe Q r := by
  refine Safe.bind (safe_remaining h ?_)
  refine safe_refuse_or nofun fun hle => ?_
  have hcount : count ≤ r.unread.length := by omega
  refine Safe.bind (safe_window h hcount ?_)
  refine Safe.bind (safe_advance h hcount ?_)
  exact hnext _ _ (List.length_take_of_le hcount) (h.leads_skip hcount)

/-- The length read so far is below the number of bytes left, so that neither the next octet nor the sum
that the test forms leaves a machine word. -/
theorem safe_lengthOctets {Q : ℕ → Reader → Prop} {octetsLeft length : ℕ} (h : r.Sound)
    (hoctets : octetsLeft ≤ 8) (hlength : length + 1 < 2 ^ 56)
    (hnext : ∀ n r', r.Leads r' → Q n r') : (lengthOctets octetsLeft length).Safe Q r := by
  induction octetsLeft generalizing r length with
  | zero => exact hnext length r h.leads_self
  | succ octetsLeft ih =>
    refine Safe.bind (safe_nextByte h fun octet hcount => ?_)
    -- The test of the octet before leaves room for this one.
    have hvalue : Read.appendOctet length octet ≤ length * 256 + 255 := by
      have hoctet := octet.toNat_lt
      have hmod := Nat.mod_le (length * 256) Word.base
      unfold Read.appendOctet
      omega
    have hfits : Read.appendOctet length octet + (octetsLeft + 1) < Word.base := by
      rw [Word.base]
      omega
    refine Safe.bind (safe_addWord hfits ?_)
    refine Safe.bind (safe_remaining h ?_)
    refine safe_reject_or h (by simp) fun hle => ?_
    refine Safe.bind (safe_advance h hcount ?_)
    -- What passes the test is below the number of bytes left, as the next octet needs it.
    have hleads := h.leads_skip hcount
    have hbytes := h.length_lt
    have hleft := r.length_unread
    apply ih (h.skip hcount) (by omega) (by omega)
    exact fun n r' hr' => hnext n r' (hleads.trans hr')

/-- At most eight octets are read, as the loop over them needs it. -/
theorem safe_longLength {Q : ℕ → Reader → Prop} {octets : ℕ} (h : r.Sound)
    (hnext : ∀ n r', r.Leads r' → Q n r') : (longLength octets).Safe Q r := by
  refine Safe.bind (safe_remaining h ?_)
  refine Safe.bind (safe_peek h ?_)
  refine safe_reject_or h nofun fun _ => ?_
  refine safe_reject_or h nofun fun _ => ?_
  refine safe_reject_or h nofun fun hoctets => ?_
  refine Safe.bind (safe_lengthOctets h (by omega) (by decide) fun n r' hleads => ?_)
  exact safe_reject_or (h.of_leads hleads) nofun fun _ => hnext n r' hleads

/-- Reading a length is safe and moves forward. -/
theorem safe_length {Q : ℕ → Reader → Prop} (h : r.Sound)
    (hnext : ∀ n r', r.Leads r' → r.position < r'.position → Q n r') : length.Safe Q r := by
  refine Safe.bind (safe_byte h fun b r₁ hleads hlt => ?_)
  have h₁ := h.of_leads hleads
  refine safe_reject_or h₁ nofun fun _ => ?_
  -- The first octet has been moved past in either case.
  by_cases hshort : b < 0x80
  · rw [if_pos hshort]
    exact hnext _ r₁ hleads hlt
  · rw [if_neg hshort]
    refine safe_reject_or h₁ nofun fun _ => ?_
    refine safe_longLength h₁ fun n r' hleads' => ?_
    exact hnext n r' (hleads.trans hleads') (Nat.lt_of_lt_of_le hlt hleads'.position_le)

/-- The second byte is looked at only where there is one. -/
theorem safe_checkPadding {Q : Unit → Reader → Prop} (h : r.Sound) {content : List UInt8}
    {first : UInt8} (hnext : Q () r) : (checkPadding content first).Safe Q r := by
  unfold checkPadding
  by_cases hone : content.length ≤ 1
  · rw [if_pos hone]
    exact hnext
  · rw [if_neg hone]
    refine Safe.bind (safe_byteAt (by omega) fun second => ?_)
    exact safe_reject_or h nofun fun _ => safe_reject_or h nofun fun _ => hnext

/-- At most 32 bytes can be padded to 32, so the scalar is not looked for outside of them. -/
theorem safe_scalarOfBytes {Q : Scalar → Reader → Prop} {bytes : List UInt8} (h : bytes.length ≤ 32)
    (hnext : ∀ k, Q k r) : (scalarOfBytes bytes).Safe Q r := by
  obtain ⟨padded, hpad, hwidth, -⟩ := BigEndian.padLeft?_eq_some h
  have hword : Word256.ofBytes? padded = some (Word256.ofNat (BigEndian.decode padded)) := if_pos hwidth
  unfold scalarOfBytes
  rw [hpad, Option.bind_some, hword]
  exact hnext _

/-- At most 32 bytes go into the buffer. -/
theorem safe_scalarOfContent {Q : Scalar → Reader → Prop} {content : List UInt8} {first : UInt8}
    (hnext : ∀ k, Q k r) : (scalarOfContent content first).Safe Q r := by
  unfold scalarOfContent
  by_cases hzero : 0x80 ≤ first ∨ 32 < (content.dropWhile (· == 0)).length
  · simp only [if_pos hzero]
    exact hnext 0
  · simp only [if_neg hzero]
    exact safe_scalarOfBytes (by omega) hnext

/-- Reading an integer is safe and moves forward. -/
theorem safe_integer {Q : Scalar → Reader → Prop} (h : r.Sound)
    (hnext : ∀ k r', r.Leads r' → r.position < r'.position → Q k r') : integer.Safe Q r := by
  refine Safe.bind (safe_peek h ?_)
  refine safe_reject_or h nofun fun htag => ?_
  -- There is a tag, so it can be moved past.
  have hcount : 1 ≤ r.unread.length := by
    cases hunread : r.unread with
    | nil => simp [hunread] at htag
    | cons b rest => simp
  refine Safe.bind (safe_advance h hcount ?_)
  have hleads := h.leads_skip hcount
  have hlt : r.position < (r.skip 1).position := Nat.lt_succ_self _
  refine Safe.bind (safe_length (h.skip hcount) fun length r₁ hleads₁ _ => ?_)
  have h₁ := (h.skip hcount).of_leads hleads₁
  refine Safe.bind (safe_remaining h₁ ?_)
  refine safe_reject_or h₁ nofun fun hfits => ?_
  refine Safe.bind (safe_slice h₁ fun content r₂ hcontent hleads₂ => ?_)
  -- The content has a first byte, since its length is not zero.
  refine Safe.bind (safe_byteAt (by omega) fun first => ?_)
  refine Safe.bind (safe_checkPadding (h₁.of_leads hleads₂) ?_)
  refine safe_scalarOfContent fun k => ?_
  have hafter := hleads₁.trans hleads₂
  exact hnext k r₂ (hleads.trans hafter) (Nat.lt_of_lt_of_le hlt hafter.position_le)

/-- Reading a signature is safe. -/
theorem safe_signature (h : r.Sound) : signature.Safe (fun _ _ => True) r := by
  -- Each part starts where the one before it left the reader, which is sound there.
  refine Safe.bind (safe_byte h fun tag r₁ hleads₁ _ => ?_)
  have h₁ := h.of_leads hleads₁
  refine safe_reject_or h₁ nofun fun _ => ?_
  refine Safe.bind (safe_length h₁ fun length r₂ hleads₂ _ => ?_)
  have h₂ := h₁.of_leads hleads₂
  refine Safe.bind (safe_remaining h₂ ?_)
  refine safe_reject_or h₂ nofun fun _ => ?_
  refine Safe.bind (safe_integer h₂ fun first r₃ hleads₃ _ => ?_)
  have h₃ := h₂.of_leads hleads₃
  refine Safe.bind (safe_integer h₃ fun second r₄ hleads₄ _ => ?_)
  have h₄ := h₃.of_leads hleads₄
  refine Safe.bind (safe_remaining h₄ ?_)
  exact safe_reject_or h₄ nofun fun _ => trivial

end Calls

end Script

/-! ### Sequences of calls -/

section Sequences

variable {r : Reader}

/-- The reader that the calls leave behind. -/
def readerAfter (calls : List Call) (r : Reader) : Reader :=
  calls.foldl (fun r call => (call.make r).after) r

/-- Calls that come later start from the reader that the earlier ones leave behind. -/
theorem makeCalls_append (calls calls' : List Call) (r : Reader) :
    makeCalls (calls ++ calls') r = makeCalls calls r ++ makeCalls calls' (readerAfter calls r) := by
  induction calls generalizing r with
  | nil => rfl
  | cons call calls ih => exact congrArg ((call.make r) :: ·) (ih (call.make r).after)

/-- Either call is safe and moves forward. -/
theorem Call.safe_script (call : Call) (h : r.Sound) :
    call.script.Safe (fun _ r' => r.position < r'.position) r := by
  cases call with
  | length => exact Script.Safe.bind (Script.safe_length h fun _ _ _ hlt => hlt)
  | integer => exact Script.Safe.bind (Script.safe_integer h fun _ _ _ hlt => hlt)

/-- The way of a call ends in the reader that it leaves behind. -/
theorem Call.getLast?_course (call : Call) (r : Reader) :
    (call.script.course r).getLast? = some (call.make r).after := by
  rw [Script.getLast?_course, call.toRead_script, make]
  cases call.read.run r <;> rfl

/-- A call stays inside the bytes all the way. -/
theorem Call.leads_of_mem_course (call : Call) (h : r.Sound) :
    ∀ v ∈ call.script.course r, r.Leads v :=
  (call.safe_script h).leads_of_mem_course h

theorem Call.leads_make (call : Call) (h : r.Sound) : r.Leads (call.make r).after :=
  call.leads_of_mem_course h _ (List.mem_of_getLast? (call.getLast?_course r))

/-- A call reads something and moves forward, or refuses the input. -/
theorem Call.make_cases (call : Call) (h : r.Sound) :
    (∃ reading, (call.make r).outcome = .ok reading ∧ r.position < (call.make r).after.position) ∨
      ∃ e, (call.make r).outcome = .error e ∧ ∀ f, e ≠ .fault f := by
  have hrun := (call.safe_script h).run
  rw [call.toRead_script] at hrun
  unfold make
  obtain ⟨reading, r', hok, hlt⟩ | ⟨e, r', herror, he⟩ := hrun
  · rw [hok]
    exact .inl ⟨reading, rfl, hlt⟩
  · rw [herror]
    exact .inr ⟨e, rfl, he⟩

/-- Calls in sequence move forward, whether they succeed or not. -/
theorem Reader.Sound.leads_readerAfter (h : r.Sound) (calls : List Call) :
    r.Leads (readerAfter calls r) := by
  induction calls generalizing r with
  | nil => exact h.leads_self
  | cons call calls ih =>
    have hleads := call.leads_make h
    exact hleads.trans (ih (h.of_leads hleads))

/-- Each successful call takes a byte that is then read, so there is one byte left for each that is to
come. -/
theorem countP_makeCalls_add_position_le (h : r.Sound) (calls : List Call) :
    (makeCalls calls r).countP (·.outcome.isOk) + r.position ≤ r.bytes.length := by
  induction calls generalizing r with
  | nil => simpa [makeCalls] using h.position_le
  | cons call calls ih =>
    -- The calls that follow are counted from the position that this one leaves behind.
    have hleads := call.leads_make h
    have hrest := ih (h.of_leads hleads)
    have hposition := hleads.position_le
    rw [hleads.bytes_eq] at hrest
    rw [makeCalls, List.countP_cons]
    obtain ⟨reading, hok, hlt⟩ | ⟨e, herror, -⟩ := call.make_cases h
    · have hisOk : (call.make r).outcome.isOk = true := by rw [hok]; rfl
      rw [if_pos hisOk]
      omega
    · have hnotOk : ¬ (call.make r).outcome.isOk = true := by rw [herror]; exact nofun
      rw [if_neg hnotOk]
      omega

/-- The readers are over the bytes, with their positions inside them. -/
def Within (bytes : List UInt8) (readers : List Reader) : Prop :=
  ∀ v ∈ readers, v.bytes = bytes ∧ v.position ≤ bytes.length

/-- What holds of a call on a reader over the bytes: the readers on its way, told step by step, are all
inside the bytes and end in the one that it leaves behind, nothing that it relies on fails, and it moves
forward if it succeeds. -/
structure Call.Confined (call : Call) (bytes : List UInt8) (r : Reader) : Prop where
  toRead_script : call.script.toRead = call.read
  within : Within bytes (call.script.course r)
  getLast?_course : (call.script.course r).getLast? = some (call.make r).after
  ne_fault : ∀ f, (call.make r).outcome ≠ .error (.fault f)
  position_lt : (call.make r).outcome.isOk → r.position < (call.make r).after.position

/-- **A call is confined** if the reader that it is made on is sound. -/
theorem Call.confined (call : Call) {bytes : List UInt8} (h : r.Sound) (hbytes : r.bytes = bytes) :
    call.Confined bytes r where
  toRead_script := call.toRead_script
  within := by
    intro v hv
    have hleads := call.leads_of_mem_course h v hv
    rw [← hbytes]
    exact ⟨hleads.bytes_eq, hleads.inside⟩
  getLast?_course := call.getLast?_course r
  ne_fault := by
    intro f hfault
    -- A call that gives a reading gives no error at all; one that refuses gives its own reason.
    obtain ⟨reading, hok, -⟩ | ⟨e, herror, he⟩ := call.make_cases h
    · exact nomatch hok.symm.trans hfault
    · exact he f (Except.error.inj (herror.symm.trans hfault))
  position_lt := by
    intro hisOk
    obtain ⟨reading, -, hlt⟩ | ⟨e, herror, -⟩ := call.make_cases h
    · exact hlt
    · rw [herror] at hisOk
      exact nomatch hisOk

/-- Decoding a signature meets no fault. -/
theorem decode_ne_fault {bytes : List UInt8} (h : bytes.length < 2 ^ 56) (f : Fault) :
    decode bytes ≠ .error (.fault f) := by
  have hrun := (Script.safe_signature (Reader.sound_start h)).run
  rw [Script.toRead_signature] at hrun
  unfold decode
  obtain ⟨scalars, r', hok, -⟩ | ⟨e, r', herror, he⟩ := hrun
  · rw [hok]
    exact nofun
  · rw [herror]
    exact fun hfault => he f (Except.error.inj hfault)

/-- **Untrusted bytes.** Calls in any order, after calls that failed as well, stay inside the bytes on
    their way, meet no fault, and move forward when they succeed, so that no more of them succeed than
    there are bytes.  Decoding a signature stays inside the bytes and meets no fault either. -/
theorem makeCalls_confined (bytes : List UInt8) (h : bytes.length < 2 ^ 56) :
    (∀ (earlier : List Call) (call : Call),
      makeCalls (earlier ++ [call]) (Reader.start bytes)
          = makeCalls earlier (Reader.start bytes)
            ++ [call.make (readerAfter earlier (Reader.start bytes))] ∧
        call.Confined bytes (readerAfter earlier (Reader.start bytes))) ∧
      (∀ calls, (makeCalls calls (Reader.start bytes)).countP (·.outcome.isOk) ≤ bytes.length) ∧
      Script.signature.toRead = Read.signature ∧
      Within bytes (Script.signature.course (Reader.start bytes)) ∧
      ∀ f, decode bytes ≠ .error (.fault f) := by
  have hstart := Reader.sound_start h
  refine ⟨fun earlier call => ⟨makeCalls_append _ _ _, ?_⟩, fun calls => ?_, Script.toRead_signature,
    ?_, decode_ne_fault h⟩
  · -- Whatever the earlier calls did, they left a sound reader.
    have hleads := hstart.leads_readerAfter earlier
    exact call.confined (hstart.of_leads hleads) hleads.bytes_eq
  · exact countP_makeCalls_add_position_le hstart calls
  · intro v hv
    have hleads := (Script.safe_signature hstart).leads_of_mem_course hstart v hv
    exact ⟨hleads.bytes_eq, hleads.inside⟩

/-- An integer, and then a length that claims more than the bytes hold. -/
def truncatedBytes : List UInt8 := [0x02, 0x01, 0x05, 0x82, 0x01]

/-- The integer, the length, and calls after that, of which one succeeds again. -/
def truncatedCalls : List Call := [.integer, .length, .integer, .length, .length]

/-- The integer is read, the lengths that claim too much are refused where they claim it, and the
    calls go on from there. -/
theorem makeCalls_confined_truncated :
    (makeCalls truncatedCalls (Reader.start truncatedBytes)).map
        (fun made => (made.outcome.isOk, made.after.position))
      = [(true, 3), (false, 4), (false, 4), (true, 5), (false, 5)] ∧
      (makeCalls truncatedCalls (Reader.start truncatedBytes)).countP (·.outcome.isOk) ≤ 5 ∧
      0 < (Call.integer.make (Reader.start truncatedBytes)).after.position := by
  obtain ⟨hcalls, hcount, -⟩ := makeCalls_confined truncatedBytes (by decide)
  have hfirst : Call.integer.Confined truncatedBytes (Reader.start truncatedBytes) := (hcalls [] _).2
  have hisOk : (Call.integer.make (Reader.start truncatedBytes)).outcome.isOk = true := by
    decide +kernel
  exact ⟨by decide +kernel, hcount truncatedCalls, hfirst.position_lt hisOk⟩

end Sequences

end Der

end CurveSign
