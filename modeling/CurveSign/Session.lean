import CurveSign.Source

namespace CurveSign

/-!
# Sessions

A session holds a signing key, a public key, a signature and a recovery id, and changes them step
by step.  A step that is refused changes nothing.
-/

/-- The state of a session. -/
structure Session where
  signingKey : SigningKey
  publicKey : VerifyingKey
  signature : Signature
  id : RecoveryId

/-- What a step of a session does. -/
inductive SessionStep
  /-- Takes a signing key and its public key. -/
  | key (bytes : List UInt8)
  | publicKey (source : PointSource)
  | sign (message : MessageSource)
  /-- Signs a message number with a given nonce. -/
  | signWithNonce (z : Word256) (k : Scalar)
  | signature (source : SignatureSource)
  | negateS
  | swap
  | recoveryId (n : Nat)
  /-- Turns one bit of the 64 bytes over and reads them again. -/
  | flip (bit : Nat)
  /-- Turns one bit of the DER form over and reads it again. -/
  | flipDer (bit : Nat)
  /-- Recovers the public key. -/
  | recover (message : MessageSource)
  /-- Brings the signature into its low form. -/
  | normalize
  | verify (message : MessageSource)
  /-- Checks the signature equation alone. -/
  | checkEquation (z : Word256)

/-- What a step of a session answers. -/
inductive SessionAnswer
  /-- The state has changed. -/
  | changed
  /-- The low form, if the signature was not low. -/
  | normalized (low : Option Signature)
  | accepted
  /-- Whether the signature equation holds. -/
  | verdict (outcome : Except Rejection Unit)
  | refused (reason : Rejection)

/-- The byte string with one bit turned over; bit 0 is the highest bit of the first byte. -/
def flipBit (bytes : List UInt8) (bit : Nat) : List UInt8 :=
  bytes.modify (bit / 8) fun b => b ^^^ ((0x80 : UInt8) >>> UInt8.ofNat (bit % 8))

namespace Session

/-- The session at its start: the secret 1, its public key, a signature of zeros and the id 0. -/
def start : Except Rejection Session :=
  match SigningKey.ofScalar 1 with
  | .ok key => .ok ⟨key, key.verifyingKey, default, default⟩
  | .error e => .error e

/-- The state that a value leads to, unless the value was refused. -/
def change {α : Type} (s : Session) (value : Except Rejection α) (next : α → Session) :
    Session × SessionAnswer :=
  match value with
  | .ok a => (next a, .changed)
  | .error e => (s, .refused e)

/-- The state and the answer after a step. -/
def step (s : Session) : SessionStep → Session × SessionAnswer
  | .key bytes =>
    s.change (SigningKey.ofBytes bytes) fun key =>
      { s with signingKey := key, publicKey := key.verifyingKey }
  | .publicKey source => s.change source.toKey fun key => { s with publicKey := key }
  | .sign message =>
    s.change (message.sign s.signingKey) fun signed =>
      { s with signature := signed.signature, id := signed.id }
  | .signWithNonce z k =>
    s.change (CurveSign.signWithNonce s.signingKey.secret z k) fun signed =>
      { s with signature := signed.signature, id := signed.id }
  | .signature source => s.change source.read fun sig => { s with signature := sig }
  | .negateS => ({ s with signature := s.signature.negateS }, .changed)
  | .swap => ({ s with signature := s.signature.swap }, .changed)
  | .recoveryId n => s.change (RecoveryId.ofNat n) fun id => { s with id := id }
  | .flip bit =>
    s.change (Signature.ofBytes (flipBit s.signature.toBytes bit)) fun sig =>
      { s with signature := sig }
  | .flipDer bit =>
    s.change (Signature.ofDer (flipBit s.signature.toDer.bytes bit)) fun sig =>
      { s with signature := sig }
  | .recover message =>
    s.change (message.recover s.signature s.id) fun key => { s with publicKey := key }
  | .normalize =>
    ({ s with signature := s.signature.normalize }, .normalized s.signature.normalize?)
  | .verify message =>
    match message.verify s.publicKey s.signature with
    | .ok () => (s, .accepted)
    | .error e => (s, .refused e)
  | .checkEquation z =>
    (s, .verdict (CurveSign.checkEquation s.publicKey.toAffine z s.signature))

/-- The answers of the steps in order, each with the state after it. -/
def run : List SessionStep → Session → List (Session × SessionAnswer)
  | [], _ => []
  | next :: rest, s => s.step next :: run rest (s.step next).1

end Session

end CurveSign
