import CurveSign.Proofs.Der.Steps

namespace CurveSign

/-!
# The course of a call

A call on a reader takes many steps, of which its outcome shows only the last reader.  A `Script` is a
call as a tree of single steps on the reader, each with what follows on what it sees, so that all the
readers on the way can be told (`Script.course`).  A step may also report an event, as a rejection does
just before it is returned; the events of a run are its log (`Script.log`).  `Script.length`,
`Script.integer` and `Script.signature` are the calls step by step, every index and every sum with its
own check; run as they stand they are the calls themselves (`Script.toRead_length`,
`Script.toRead_integer`, `Script.toRead_signature`).
-/

namespace Der

/-- A single step on a reader, by what it sees, or a report. -/
inductive Step : Type → Type
  /-- The next byte, if there is one. -/
  | peek : Step (Option UInt8)
  /-- The number of bytes left. -/
  | remaining : Step ℕ
  /-- The next `count` bytes, without moving past them. -/
  | window (count : ℕ) : Step (List UInt8)
  /-- Moving past the next `count` bytes. -/
  | advance (count : ℕ) : Step Unit
  /-- Reporting an event, which leaves the reader as it is. -/
  | report (event : Event) : Step Unit

/-- A call as its steps: it returns, refuses, or takes a step and goes on. -/
inductive Script (α : Type) : Type 1
  | done (a : α)
  | refuse (e : Rejection)
  | step {β : Type} (s : Step β) (next : β → Script α)

/-- The next `count` bytes, which must exist. -/
def Read.window (count : ℕ) : Read (List UInt8) := do
  let r ← get
  if r.position + count ≤ r.bytes.length then return (r.bytes.drop r.position).take count
  else throw (.fault .outOfRange)

/-- What the step does to a reader. -/
def Step.toRead {β : Type} : Step β → Read β
  | peek => Read.peek
  | remaining => Read.remaining
  | window count => Read.window count
  | advance count => Read.advance count
  | report _ => pure ()

/-- What the step reports. -/
def Step.log {β : Type} : Step β → List Event
  | report event => [event]
  | _ => []

namespace Script

variable {α β : Type}

/-- The steps of the first call, and then those of the second on what the first returns. -/
protected def bind : Script α → (α → Script β) → Script β
  | done a, f => f a
  | refuse e, _ => refuse e
  | step s next, f => step s fun b => (next b).bind f

instance : Monad Script where
  pure := done
  bind := Script.bind

/-- The call that takes these steps. -/
def toRead : Script α → Read α
  | done a => pure a
  | refuse e => throw e
  | step s next => s.toRead >>= fun b => (next b).toRead

/-- The readers that the call passes through: the one it starts from, and the one after each step, up to
the step that fails if one does. -/
def course : Script α → Reader → List Reader
  | done _, r => [r]
  | refuse _, r => [r]
  | step s next, r =>
    match s.toRead.run r with
    | .ok b r' => r :: (next b).course r'
    | .error _ r' => [r, r']

/-- What the call reports, in order, up to the step that fails if one does. -/
def log : Script α → Reader → List Event
  | done _, _ => []
  | refuse _, _ => []
  | step s next, r =>
    match s.toRead.run r with
    | .ok b r' => s.log ++ (next b).log r'
    | .error _ _ => []

/-! ### Calls step by step -/

/-- The script of a single step. -/
def take (s : Step α) : Script α := step s done

/-- Reports an event and refuses the input. -/
def reject (event : Event) (e : Rejection) : Script α := step (.report event) fun _ => refuse e

/-- A sum, if it fits a machine word. -/
def addWord (a b : ℕ) : Script ℕ :=
  if a + b < Word.base then done (a + b) else refuse (.fault .overflow)

/-- The byte at an index of a byte string, which must exist. -/
def byteAt (content : List UInt8) (index : ℕ) : Script UInt8 :=
  match content[index]? with
  | some b => done b
  | none => refuse (.fault .outOfRange)

/-- The next byte, which must exist. -/
def nextByte : Script UInt8 := do
  match ← take .peek with
  | some b => done b
  | none => refuse .truncated

/-- Reads one byte. -/
def byte : Script UInt8 := do
  let b ← nextByte
  take (.advance 1)
  done b

/-- Reads `count` bytes. -/
def slice (count : ℕ) : Script (List UInt8) := do
  let left ← take .remaining
  if left < count then refuse .truncated
  else
    let content ← take (.window count)
    take (.advance count)
    done content

/-- Reads the octets of a long length. -/
def lengthOctets : (octetsLeft : ℕ) → (length : ℕ) → Script ℕ
  | 0, length => done length
  | octetsLeft + 1, length => do
    let octet ← nextByte
    let length := Read.appendOctet length octet
    let bound ← addWord length (octetsLeft + 1)
    let left ← take .remaining
    if left < bound then
      reject ⟨"DER length exceeds input", [("len", length)]⟩ (.lengthExceedsInput length)
    else
      take (.advance 1)
      lengthOctets octetsLeft length

/-- Reads a long length, given the number of its octets. -/
def longLength (octets : ℕ) : Script ℕ := do
  let left ← take .remaining
  let first ← take .peek
  if left < octets then
    reject ⟨"DER length octets exceed input", [("octets_left", octets)]⟩
      (.lengthOctetsExceedInput octets)
  else if first = some 0 then
    reject ⟨"non-minimal DER length: leading zero octet", []⟩ .leadingZeroLengthOctet
  else if 8 < octets then
    reject ⟨"DER length does not fit in usize", [("octets_left", octets)]⟩ (.lengthTooWide octets)
  else
    let length ← lengthOctets octets 0
    if length < 128 then
      reject ⟨"non-minimal DER length: long form below 128", [("len", length)]⟩
        (.longFormBelow128 length)
    else done length

/-- Reads a length. -/
def length : Script ℕ := do
  let b ← byte
  if b = 0xFF then reject ⟨"DER length octet 0xFF is reserved", []⟩ .reservedLengthOctet
  else if b < 0x80 then done b.toNat
  else if b = 0x80 then reject ⟨"indefinite DER length", []⟩ .indefiniteLength
  else longLength (b.toNat - 0x80)

/-- Refuses content with a byte in front that its sign does not need. -/
def checkPadding (content : List UInt8) (first : UInt8) : Script Unit := do
  if content.length ≤ 1 then done ()
  else
    let second ← byteAt content 1
    if first = 0x00 ∧ second < 0x80 then
      reject ⟨"superfluous 0x00 padding in DER INTEGER", []⟩ .superfluousZeros
    else if first = 0xFF ∧ 0x80 ≤ second then
      reject ⟨"superfluous 0xFF padding in DER INTEGER", []⟩ .superfluousOnes
    else done ()

/-- The scalar of at most 32 bytes. -/
def scalarOfBytes (bytes : List UInt8) : Script Scalar :=
  match (BigEndian.padLeft? 32 bytes).bind Word256.ofBytes? with
  | none => refuse (.fault .outOfRange)
  | some w => done ((Residue.ofWord256? w).getD 0)

/-- The scalar of an integer's content. -/
def scalarOfContent (content : List UInt8) (first : UInt8) : Script Scalar :=
  let significant := content.dropWhile (· == 0)
  if 0x80 ≤ first ∨ 32 < significant.length then done 0 else scalarOfBytes significant

/-- Reads an integer as a scalar. -/
def integer : Script Scalar := do
  let tag ← take .peek
  if tag ≠ some integerTag then reject ⟨"expected DER INTEGER tag", []⟩ .expectedInteger
  else
    take (.advance 1)
    let length ← length
    let left ← take .remaining
    if length = 0 ∨ left < length then
      reject ⟨"DER INTEGER length out of bounds", [("len", length)]⟩
        (.integerLengthOutOfBounds length)
    else
      let content ← slice length
      let first ← byteAt content 0
      checkPadding content first
      scalarOfContent content first

/-- Reads a sequence of two integers that ends with the input. -/
def signature : Script (Scalar × Scalar) := do
  let tag ← byte
  if tag ≠ sequenceTag then reject ⟨"expected DER SEQUENCE tag", []⟩ .expectedSequence
  else
    let length ← length
    let left ← take .remaining
    if length ≠ left then
      reject ⟨"DER SEQUENCE length does not match input", [("len", length), ("remaining", left)]⟩
        (.sequenceLengthMismatch length left)
    else
      let r ← integer
      let s ← integer
      let left ← take .remaining
      if left ≠ 0 then
        reject ⟨"trailing bytes inside DER SEQUENCE", [("remaining", left)]⟩ (.trailingBytes left)
      else done (r, s)

end Script

/-- The steps of a call. -/
def Call.script : Call → Script Reading
  | .length => do return .length (← Script.length)
  | .integer => do return .integer (← Script.integer)

/-! ### Scripts run as calls -/

namespace Script

variable {α β : Type}

@[simp] theorem toRead_done (a : α) : (done a).toRead = pure a := rfl

@[simp] theorem toRead_refuse (e : Rejection) : (refuse e : Script α).toRead = throw e := rfl

@[simp] theorem toRead_reject (event : Event) (e : Rejection) :
    (reject event e : Script α).toRead = throw e := rfl

/-- Steps in sequence are calls in sequence. -/
@[simp] theorem toRead_bind (x : Script α) (f : α → Script β) :
    (x >>= f).toRead = x.toRead >>= fun a => (f a).toRead := by
  induction x with
  | done a => exact (pure_bind a fun a => (f a).toRead).symm
  | refuse e => rfl
  | step s next ih =>
    show s.toRead >>= (fun b => (next b >>= f).toRead) = _
    simp only [ih]
    exact (bind_assoc _ _ _).symm

@[simp] theorem toRead_take (s : Step α) : (take s).toRead = s.toRead := bind_pure _

@[simp] theorem toRead_ite {c : Prop} [Decidable c] (x y : Script α) :
    (if c then x else y).toRead = if c then x.toRead else y.toRead := apply_ite toRead c x y

theorem toRead_addWord (a b : ℕ) : (addWord a b).toRead = Read.addWord a b := by
  simp only [addWord, toRead_ite, toRead_done, toRead_refuse]
  rfl

/-- An index is checked in the same way. -/
theorem toRead_byteAt (content : List UInt8) (index : ℕ) :
    (byteAt content index).toRead = Read.byteAt content index := by
  unfold byteAt Read.byteAt
  cases content[index]? <;> rfl

/-- Looking at the next byte refuses where there is none. -/
theorem toRead_nextByte : nextByte.toRead = Read.nextByte := by
  unfold nextByte Read.nextByte
  rw [toRead_bind, toRead_take]
  refine bind_congr fun b => ?_
  cases b <;> rfl

theorem toRead_byte : byte.toRead = Read.byte := by
  simp only [byte, toRead_bind, toRead_take, toRead_nextByte, toRead_done]
  rfl

/-- The length has been checked before the bytes are taken, so taking them does not fail. -/
theorem toRead_slice (count : ℕ) : (slice count).toRead = Read.slice count := by
  funext r
  show (slice count).toRead.run r = (Read.slice count).run r
  simp only [slice, toRead_bind, toRead_take, toRead_ite, toRead_refuse, toRead_done]
  unfold Read.slice
  by_cases hinside : r.position ≤ r.bytes.length
  · -- The bytes are looked at before the reader moves past them, here as two steps.
    have hleft : Read.remaining.run r = .ok (r.bytes.length - r.position) r := by
      simp [Read.remaining, EStateM.run_bind, hinside]
    simp only [Step.toRead]
    rw [Read.run_bind hleft, Read.run_bind hleft]
    by_cases hlt : r.bytes.length - r.position < count
    · rw [if_pos hlt, if_pos hlt]
    · have hfits : r.position + count ≤ r.bytes.length := by omega
      have hwindow : (Read.window count).run r
          = .ok ((r.bytes.drop r.position).take count) r := by
        simp [Read.window, EStateM.run_bind, hfits]
      have hget : (get : Read Reader).run r = .ok r r := rfl
      rw [if_neg hlt, if_neg hlt, Read.run_bind hwindow, Read.run_bind hget]
  · -- A position past the end is a fault of the first step on both sides.
    have hleft : Read.remaining.run r = .error (.fault .overflow) r := by
      show (if r.position ≤ r.bytes.length then _ else throw _ : Read ℕ) r = _
      rw [if_neg hinside]
      rfl
    simp only [Step.toRead, EStateM.run_bind, hleft]

/-- The octets of a length, step by step. -/
theorem toRead_lengthOctets (octetsLeft length : ℕ) :
    (lengthOctets octetsLeft length).toRead = Read.lengthOctets octetsLeft length := by
  induction octetsLeft generalizing length with
  | zero => rfl
  | succ octetsLeft ih =>
    simp only [lengthOctets, Read.lengthOctets, toRead_bind, toRead_take, toRead_nextByte,
      toRead_addWord, toRead_ite, toRead_reject, ih]
    rfl

/-- A long length, step by step. -/
theorem toRead_longLength (octets : ℕ) : (longLength octets).toRead = Read.longLength octets := by
  simp only [longLength, toRead_bind, toRead_take, toRead_ite, toRead_reject, toRead_lengthOctets,
    toRead_done]
  rfl

/-- The steps of reading a length. -/
theorem toRead_length : length.toRead = Read.length := by
  simp only [length, toRead_bind, toRead_byte, toRead_ite, toRead_reject, toRead_done,
    toRead_longLength]
  rfl

/-- The check of the padding, step by step. -/
theorem toRead_checkPadding (content : List UInt8) (first : UInt8) :
    (checkPadding content first).toRead = Read.checkPadding content first := by
  simp only [checkPadding, toRead_bind, toRead_byteAt, toRead_ite, toRead_reject, toRead_done]
  rfl

/-- The scalar of the bytes takes no step on the reader. -/
theorem toRead_scalarOfBytes (bytes : List UInt8) :
    (scalarOfBytes bytes).toRead = Read.scalarOfBytes bytes := by
  unfold scalarOfBytes Read.scalarOfBytes
  cases (BigEndian.padLeft? 32 bytes).bind Word256.ofBytes? <;> rfl

/-- Nor does the scalar of a whole content. -/
theorem toRead_scalarOfContent (content : List UInt8) (first : UInt8) :
    (scalarOfContent content first).toRead = Read.scalarOfContent content first := by
  simp only [scalarOfContent, toRead_ite, toRead_done, toRead_scalarOfBytes]
  rfl

/-- The steps of reading an integer. -/
theorem toRead_integer : integer.toRead = Read.integer := by
  simp only [integer, toRead_bind, toRead_take, toRead_ite, toRead_reject, toRead_length,
    toRead_slice, toRead_byteAt, toRead_checkPadding, toRead_scalarOfContent]
  rfl

/-- The steps of reading a signature. -/
theorem toRead_signature : signature.toRead = Read.signature := by
  simp only [signature, toRead_bind, toRead_take, toRead_byte, toRead_ite, toRead_reject,
    toRead_length, toRead_integer, toRead_done]
  rfl

end Script

/-- The steps of a call, taken one after another, are the call. -/
theorem Call.toRead_script (call : Call) : call.script.toRead = call.read := by
  cases call with
  | length =>
    show (Script.length >>= _).toRead = _
    rw [Script.toRead_bind, Script.toRead_length]
    rfl
  | integer =>
    show (Script.integer >>= _).toRead = _
    rw [Script.toRead_bind, Script.toRead_integer]
    rfl

end Der

end CurveSign
