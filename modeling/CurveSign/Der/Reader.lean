import CurveSign.Rejection
import CurveSign.Scalar.Basic

namespace CurveSign

/-!
# Reading DER

A reader over untrusted bytes, for lengths and for the integers of a signature.  Lengths must be
definite and as short as possible, and integers must not carry superfluous padding.  An integer
that is no scalar (negative, of more than 32 bytes, or not below the order) is well formed and reads
as zero.

A reader keeps its bytes and a position, and a call leaves the position behind also when it fails.
Reads outside the bytes, and sums that do not fit a machine word, would end a call with a `Fault`.
-/

namespace Der

/-- The tag of a sequence. -/
def sequenceTag : UInt8 := 0x30

/-- The tag of an integer. -/
def integerTag : UInt8 := 0x02

/-- Bytes, and the position of the next one to read. -/
structure Reader where
  bytes : List UInt8
  position : Nat
deriving DecidableEq, Repr

/-- A call on a reader: its result, and where it leaves the reader. -/
abbrev Read (α : Type) := EStateM Rejection Reader α

namespace Reader

/-- A reader at the start of its bytes. -/
def start (bytes : List UInt8) : Reader := { bytes := bytes, position := 0 }

/-- The number of bytes not yet read. -/
def remaining (r : Reader) : Nat := r.bytes.length - r.position

/-- All bytes are read. -/
def isFinished (r : Reader) : Bool := r.remaining == 0

/-- The bytes not yet read. -/
def unread (r : Reader) : List UInt8 := r.bytes.drop r.position

end Reader

namespace Read

/-! ### Steps -/

/-- A sum, if it fits a machine word. -/
def addWord (a b : Nat) : Read Nat :=
  if a + b < Word.base then return a + b else throw (.fault .overflow)

/-- The number of bytes left; the position must not be past the end. -/
def remaining : Read Nat := do
  let r ← get
  if r.position ≤ r.bytes.length then return r.bytes.length - r.position
  else throw (.fault .overflow)

/-- The next byte, if there is one, without moving past it. -/
def peek : Read (Option UInt8) := do
  let r ← get
  return r.bytes[r.position]?

/-- Moves past the next `count` bytes. -/
def advance (count : Nat) : Read Unit := do
  let r ← get
  let position ← addWord r.position count
  set { r with position := position }

/-- The next byte, which must exist. -/
def nextByte : Read UInt8 := do
  match ← peek with
  | some b => return b
  | none => throw .truncated

/-- Reads one byte. -/
def byte : Read UInt8 := do
  let b ← nextByte
  advance 1
  return b

/-- Reads `count` bytes. -/
def slice (count : Nat) : Read (List UInt8) := do
  let left ← remaining
  if left < count then throw .truncated
  else
    let r ← get
    advance count
    return (r.bytes.drop r.position).take count

/-- The byte at an index of a byte string, which must exist. -/
def byteAt (content : List UInt8) (index : Nat) : Read UInt8 :=
  match content[index]? with
  | some b => return b
  | none => throw (.fault .outOfRange)

/-! ### Lengths -/

/-- The length read so far with one more octet; bits above a machine word are lost. -/
def appendOctet (length : Nat) (octet : UInt8) : Nat :=
  length * 256 % Word.base + octet.toNat

/-- Reads the octets of a long length.  After each octet the length so far must fit the input even
if the octets still unread, of which this one is counted, add nothing to it. -/
def lengthOctets : (octetsLeft : Nat) → (length : Nat) → Read Nat
  | 0, length => return length
  | octetsLeft + 1, length => do
    let octet ← nextByte
    let length := appendOctet length octet
    let bound ← addWord length (octetsLeft + 1)
    let left ← remaining
    if left < bound then throw (.lengthExceedsInput length)
    else
      advance 1
      lengthOctets octetsLeft length

/-- Reads a long length, given the number of its octets. -/
def longLength (octets : Nat) : Read Nat := do
  let left ← remaining
  let first ← peek
  if left < octets then throw (.lengthOctetsExceedInput octets)
  else if first = some 0 then throw .leadingZeroLengthOctet
  else if 8 < octets then throw (.lengthTooWide octets)
  else
    let length ← lengthOctets octets 0
    if length < 128 then throw (.longFormBelow128 length) else return length

/-- Reads a length.  A short form stands for itself; a long form must be the shortest one and must
fit the bytes after it. -/
def length : Read Nat := do
  let b ← byte
  if b = 0xFF then throw .reservedLengthOctet
  else if b < 0x80 then return b.toNat
  else if b = 0x80 then throw .indefiniteLength
  else longLength (b.toNat - 0x80)

/-! ### Integers -/

/-- Refuses content with a byte in front that its sign does not need. -/
def checkPadding (content : List UInt8) (first : UInt8) : Read Unit := do
  if content.length ≤ 1 then return ()
  else
    let second ← byteAt content 1
    if first = 0x00 ∧ second < 0x80 then throw .superfluousZeros
    else if first = 0xFF ∧ 0x80 ≤ second then throw .superfluousOnes
    else return ()

/-- The scalar of at most 32 bytes; zero for a number that is not below the order. -/
def scalarOfBytes (bytes : List UInt8) : Read Scalar :=
  match (BigEndian.padLeft? 32 bytes).bind Word256.ofBytes? with
  | none => throw (.fault .outOfRange)
  | some w => return (Residue.ofWord256? w).getD 0

/-- The scalar of an integer's content: zero for a negative number and for one of more than 32
bytes. -/
def scalarOfContent (content : List UInt8) (first : UInt8) : Read Scalar :=
  let significant := content.dropWhile (· == 0)
  if 0x80 ≤ first ∨ 32 < significant.length then return 0 else scalarOfBytes significant

/-- Reads an integer as a scalar. -/
def integer : Read Scalar := do
  let tag ← peek
  if tag ≠ some integerTag then throw .expectedInteger
  else
    advance 1
    let length ← length
    let left ← remaining
    if length = 0 ∨ left < length then throw (.integerLengthOutOfBounds length)
    else
      let content ← slice length
      let first ← byteAt content 0
      checkPadding content first
      scalarOfContent content first

/-! ### Signatures -/

/-- Reads a sequence of two integers that ends with the input. -/
def signature : Read (Scalar × Scalar) := do
  let tag ← byte
  if tag ≠ sequenceTag then throw .expectedSequence
  else
    let length ← length
    let left ← remaining
    if length ≠ left then throw (.sequenceLengthMismatch length left)
    else
      let r ← integer
      let s ← integer
      let left ← remaining
      if left ≠ 0 then throw (.trailingBytes left) else return (r, s)

end Read

/-- The two scalars of a DER signature. -/
def decode (bytes : List UInt8) : Except Rejection (Scalar × Scalar) :=
  match Read.signature.run (Reader.start bytes) with
  | .ok scalars _ => .ok scalars
  | .error e _ => .error e

/-! ### Sequences of calls -/

/-- One of the two calls offered on a reader. -/
inductive Call
  | length
  | integer
deriving DecidableEq, Repr

/-- What a call reads. -/
inductive Reading
  | length (value : Nat)
  | integer (value : Scalar)
deriving DecidableEq

/-- The reading of a call. -/
def Call.read : Call → Read Reading
  | .length => return .length (← Read.length)
  | .integer => return .integer (← Read.integer)

/-- The outcome of a call, and the reader that it leaves behind. -/
structure Made where
  outcome : Except Rejection Reading
  after : Reader

/-- Makes a call on a reader. -/
def Call.make (call : Call) (r : Reader) : Made :=
  match call.read.run r with
  | .ok reading r' => { outcome := .ok reading, after := r' }
  | .error e r' => { outcome := .error e, after := r' }

/-- Makes calls one after the other, each on the reader that the one before left behind. -/
def makeCalls : List Call → Reader → List Made
  | [], _ => []
  | call :: calls, r => call.make r :: makeCalls calls (call.make r).after

/-- The calls up to the first that fails, with it. -/
def upToFailure : List Made → List Made
  | [] => []
  | made :: rest =>
    match made.outcome with
    | .ok _ => made :: upToFailure rest
    | .error _ => [made]

end Der

end CurveSign
