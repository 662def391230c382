import CurveSign.Key.Signing

namespace CurveSign

/-!
# Runs that report

The operations that report their refusals, with each event at the place where it is reported.  A run has
a log, which keeps what has been reported whether the run then returns or refuses.  Nothing forbids a run
to report and then to return, or to report twice.
-/

/-- A run: what it has reported, in order, and its outcome. -/
structure Logged (α : Type) where
  log : List Event
  outcome : Except Rejection α

namespace Logged

variable {α β : Type}

/-- Goes on with what the run returns, and adds to its log. -/
protected def bind (x : Logged α) (f : α → Logged β) : Logged β :=
  match x.outcome with
  | .ok a => { log := x.log ++ (f a).log, outcome := (f a).outcome }
  | .error e => { log := x.log, outcome := .error e }

instance : Monad Logged where
  pure a := { log := [], outcome := .ok a }
  bind := Logged.bind

/-- Reports an event and goes on. -/
def report (event : Event) : Logged Unit := { log := [event], outcome := .ok () }

/-- Refuses the input, without reporting it. -/
def refuse (e : Rejection) : Logged α := { log := [], outcome := .error e }

/-- Reports an event and refuses the input. -/
def reject (event : Event) (e : Rejection) : Logged α := do
  report event
  refuse e

/-! ### Encodings -/

/-- The point that was found, if one was. -/
def requirePoint (point : Option AffinePoint) : Logged AffinePoint :=
  match point with
  | some p => return p
  | none => reject ⟨"SEC1 point is not on the curve", []⟩ .pointNotOnCurve

/-- Reads a point from a compressed or an uncompressed form. -/
def pointOfSec1 : List UInt8 → Logged AffinePoint
  | [] => reject ⟨"unsupported SEC1 point encoding", [("len", 0)]⟩ (.unsupportedPointEncoding 0)
  | tag :: rest =>
    if (tag = 2 ∨ tag = 3) ∧ rest.length = 32 then
      requirePoint (AffinePoint.decompressBytes rest (tag == 3))
    else if tag = 4 ∧ rest.length = 64 then
      requirePoint (AffinePoint.ofCoordinateBytes (rest.take 32) (rest.drop 32))
    else
      reject ⟨"unsupported SEC1 point encoding", [("len", rest.length + 1)]⟩
        (.unsupportedPointEncoding (rest.length + 1))

/-- Reads a signature of 64 bytes. -/
def signatureOfBytes (bytes : List UInt8) : Logged Signature :=
  if bytes.length = 64 then
    match (Residue.ofBytes? (bytes.take 32) : Option Scalar),
      (Residue.ofBytes? (bytes.drop 32) : Option Scalar) with
    | some r, some s => return ⟨r, s⟩
    | _, _ => reject ⟨"signature component out of range", []⟩ .componentOutOfRange
  else refuse .signatureLength

/-! ### Keys -/

/-- The key of a point. -/
def keyOfAffine : AffinePoint → Logged VerifyingKey
  | .identity => reject ⟨"verifying key is the identity", []⟩ .identityKey
  | .finite x y => return ⟨x, y⟩

/-- Reads the key of an encoded point. -/
def keyOfSec1 (bytes : List UInt8) : Logged VerifyingKey := do
  let point ← pointOfSec1 bytes
  keyOfAffine point

/-- Reads the fields of a signing key: a secret in `[1, n)`, and the key of its point. -/
def secretOfBytes (bytes : List UInt8) : Logged (Scalar × VerifyingKey) :=
  match Word256.ofBytes? bytes with
  | none => refuse .secretLength
  | some w =>
    match (Residue.ofWord256? w : Option Scalar) with
    | none => refuse .secretOutOfRange
    | some secret =>
      if secret.isZero = false then do
        let key ← keyOfAffine (JacobianPoint.multiplyBase secret).toAffine
        return (secret, key)
      else refuse .secretOutOfRange

/-! ### Verification -/

/-- The number that stands for a hash. -/
def messageNumber (prehash : List UInt8) : Logged Word256 :=
  if prehash.length < 16 then
    reject ⟨"prehash too short", [("len", prehash.length)]⟩ (.prehashTooShort prehash.length)
  else return Word256.ofNat (BigEndian.decode (prehash.take 32))

/-- Compares the x-coordinate of a point with `r` and `r + n`. -/
def checkX (point : JacobianPoint) (r : Scalar) : Logged Unit :=
  if point.isIdentity then reject ⟨"u1·G + u2·Q is the identity", []⟩ .identityCombination
  else
    match r.toCoordinate? with
    | none => refuse .notCoordinate
    | some x =>
      if point.hasX x then return ()
      else if x.compare FieldElement.primeLessOrder ≠ .lt then
        reject ⟨"R.x does not match r", []⟩ .xMismatch
      else if point.hasX (x + FieldElement.order) then return ()
      else reject ⟨"R.x does not match r or r + n", []⟩ .xMismatchBoth

/-- Checks a signature of a message number. -/
def checkEquation (q : AffinePoint) (z : Word256) (sig : Signature) : Logged Unit :=
  if sig.r.isZero || sig.s.isZero then
    reject ⟨"signature has a zero component", []⟩ .zeroComponent
  else
    match sig.s.invertByEuclid? with
    | none => refuse .noInverse
    | some sInverse =>
      checkX (JacobianPoint.combine (Residue.reduce z * sInverse) (sig.r * sInverse)
        (JacobianPoint.ofAffine q)) sig.r

/-- Verifies a low signature of a hash. -/
def verifyPrehash (key : VerifyingKey) (prehash : List UInt8) (sig : Signature) : Logged Unit := do
  let z ← messageNumber prehash
  if sig.s.isHigh then reject ⟨"signature is not low-S", []⟩ .highS
  else checkEquation key.toAffine z sig

/-! ### Recovery -/

/-- The x-coordinate of the point `R` of a signature. -/
def recoverX (r : Scalar) (xReduced : Bool) : Logged FieldElement :=
  match r.toCoordinate? with
  | none => refuse .notCoordinate
  | some x =>
    if xReduced then
      if x.compare FieldElement.primeLessOrder ≠ .lt then
        reject ⟨"r + n is not a field element", []⟩ .reducedXOutOfRange
      else return x + FieldElement.order
    else return x

/-- The point `R` of a signature. -/
def recoverPoint (r : Scalar) (id : RecoveryId) : Logged AffinePoint := do
  let x ← recoverX r id.xReduced
  match AffinePoint.decompress x id.yOdd with
  | none => reject ⟨"no curve point for recovered R.x", []⟩ .noPointWithX
  | some point => return point

/-- Solves the equation for the key. -/
def solveKey (point : AffinePoint) (z : Word256) (sig : Signature) : Logged VerifyingKey :=
  match sig.r.invertByEuclid? with
  | none => refuse .noInverse
  | some rInverse =>
    keyOfAffine (JacobianPoint.combine (-(rInverse * Residue.reduce z)) (rInverse * sig.s)
      (JacobianPoint.ofAffine point)).toAffine

/-- Recovers the key of a signature of a hash. -/
def recoverPrehash (prehash : List UInt8) (sig : Signature) (id : RecoveryId) :
    Logged VerifyingKey := do
  let z ← messageNumber prehash
  if sig.r.isZero || sig.s.isZero then
    reject ⟨"signature has a zero component", []⟩ .zeroComponent
  else
    let point ← recoverPoint sig.r id
    let key ← solveKey point z sig
    checkEquation key.toAffine z sig
    return key

end Logged

end CurveSign
