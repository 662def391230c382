namespace CurveSign

/-!
# Reasons for a rejection

Everything that can be refused, as data.  Most reasons are reported in an event with a fixed
message and the numbers that belong to it; the others are refused in silence.  A `Fault` is no
rejection of an input: it says that a condition failed which the code relies on.
-/

/-- What an operation that names its reason reports. -/
structure Event where
  message : String
  fields : List (String × Nat)
deriving DecidableEq, Repr

/-- A condition that the code relies on and that did not hold. -/
inductive Fault
  /-- An index or a length lies outside its byte string. -/
  | outOfRange
  /-- A sum or a difference does not fit a machine word. -/
  | overflow
  /-- The nonce gives a point whose x-coordinate is zero modulo the order. -/
  | unusableNonce
deriving DecidableEq, Repr

/-- Why an input is refused. -/
inductive Rejection
  -- DER
  /-- The input ends where a byte is needed. -/
  | truncated
  | reservedLengthOctet
  | indefiniteLength
  | lengthOctetsExceedInput (octetsLeft : Nat)
  | leadingZeroLengthOctet
  | lengthTooWide (octetsLeft : Nat)
  | lengthExceedsInput (length : Nat)
  | longFormBelow128 (length : Nat)
  | expectedInteger
  | integerLengthOutOfBounds (length : Nat)
  | superfluousZeros
  | superfluousOnes
  | expectedSequence
  | sequenceLengthMismatch (length remaining : Nat)
  | trailingBytes (remaining : Nat)
  -- Points and keys
  | unsupportedPointEncoding (length : Nat)
  | pointNotOnCurve
  | identityKey
  /-- A secret key of a length other than 32. -/
  | secretLength
  /-- A secret key outside `[1, n)`. -/
  | secretOutOfRange
  -- Signatures
  /-- A signature of a length other than 64. -/
  | signatureLength
  | componentOutOfRange
  | zeroComponent
  | highS
  /-- A recovery id above 3. -/
  | recoveryIdOutOfRange
  | prehashTooShort (length : Nat)
  -- Signing
  | zeroNonce
  | nonceOutOfRange
  | zeroS
  -- Verification and recovery
  /-- A scalar has no inverse. -/
  | noInverse
  /-- A scalar is no field element. -/
  | notCoordinate
  | identityCombination
  | xMismatch
  | xMismatchBoth
  | reducedXOutOfRange
  | noPointWithX
  -- Faults
  | fault (fault : Fault)
deriving DecidableEq, Repr

/-- What the reason reports, unless it is refused in silence. -/
def Rejection.event? : Rejection → Option Event
  | reservedLengthOctet => some ⟨"DER length octet 0xFF is reserved", []⟩
  | indefiniteLength => some ⟨"indefinite DER length", []⟩
  | lengthOctetsExceedInput n => some ⟨"DER length octets exceed input", [("octets_left", n)]⟩
  | leadingZeroLengthOctet => some ⟨"non-minimal DER length: leading zero octet", []⟩
  | lengthTooWide n => some ⟨"DER length does not fit in usize", [("octets_left", n)]⟩
  | lengthExceedsInput n => some ⟨"DER length exceeds input", [("len", n)]⟩
  | longFormBelow128 n => some ⟨"non-minimal DER length: long form below 128", [("len", n)]⟩
  | expectedInteger => some ⟨"expected DER INTEGER tag", []⟩
  | integerLengthOutOfBounds n => some ⟨"DER INTEGER length out of bounds", [("len", n)]⟩
  | superfluousZeros => some ⟨"superfluous 0x00 padding in DER INTEGER", []⟩
  | superfluousOnes => some ⟨"superfluous 0xFF padding in DER INTEGER", []⟩
  | expectedSequence => some ⟨"expected DER SEQUENCE tag", []⟩
  | sequenceLengthMismatch n rest =>
    some ⟨"DER SEQUENCE length does not match input", [("len", n), ("remaining", rest)]⟩
  | trailingBytes n => some ⟨"trailing bytes inside DER SEQUENCE", [("remaining", n)]⟩
  | unsupportedPointEncoding n => some ⟨"unsupported SEC1 point encoding", [("len", n)]⟩
  | pointNotOnCurve => some ⟨"SEC1 point is not on the curve", []⟩
  | identityKey => some ⟨"verifying key is the identity", []⟩
  | componentOutOfRange => some ⟨"signature component out of range", []⟩
  | zeroComponent => some ⟨"signature has a zero component", []⟩
  | highS => some ⟨"signature is not low-S", []⟩
  | prehashTooShort n => some ⟨"prehash too short", [("len", n)]⟩
  | identityCombination => some ⟨"u1·G + u2·Q is the identity", []⟩
  | xMismatch => some ⟨"R.x does not match r", []⟩
  | xMismatchBoth => some ⟨"R.x does not match r or r + n", []⟩
  | reducedXOutOfRange => some ⟨"r + n is not a field element", []⟩
  | noPointWithX => some ⟨"no curve point for recovered R.x", []⟩
  | truncated | secretLength | secretOutOfRange | signatureLength | recoveryIdOutOfRange
  | zeroNonce | nonceOutOfRange | zeroS | noInverse | notCoordinate | fault _ => none

/-- Two steps in sequence give what the second gives of the first. -/
theorem Rejection.bind_eq_ok_iff {α β : Type} {x : Except Rejection α}
    {f : α → Except Rejection β} {b : β} : (x >>= f) = .ok b ↔ ∃ a, x = .ok a ∧ f a = .ok b := by
  cases x with
  | error e => exact ⟨nofun, fun h => nomatch h.choose_spec.1⟩
  | ok a =>
    refine ⟨fun h => ⟨a, rfl, h⟩, ?_⟩
    rintro ⟨_, ha, hb⟩
    obtain rfl := Except.ok.inj ha
    exact hb

end CurveSign
