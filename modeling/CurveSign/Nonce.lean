import CurveSign.Hash.Hmac
import CurveSign.Scalar.Basic

namespace CurveSign

/-!
# Deterministic nonces

The nonce of RFC 6979: a generator of pseudorandom bytes is seeded with the secret key and the
message, and its first output that is a scalar other than zero is the nonce.
-/

/-- A way to choose the 32 bytes of a nonce for a secret scalar and a message. -/
abbrev NonceRule := Scalar → Scalar → Word256

namespace Nonce

/-- The generator's key and value, 32 bytes each. -/
structure Generator where
  key : List UInt8
  value : List UInt8

namespace Generator

/-- Works data into the key and renews the value. -/
def update (g : Generator) (data : List UInt8) : Generator :=
  let key := Hmac.digest g.key (g.value ++ data)
  { key := key, value := Hmac.digest key g.value }

/-- The generator for a secret and a message. -/
def seeded (secret message : List UInt8) : Generator :=
  let start : Generator := { key := List.replicate 32 0, value := List.replicate 32 1 }
  (start.update (0 :: (secret ++ message))).update (1 :: (secret ++ message))

/-- The next 32 bytes. -/
def output (g : Generator) : List UInt8 := Hmac.digest g.key g.value

/-- The generator after an output. -/
def next (g : Generator) : Generator := { g with value := g.output }.update [0]

end Generator

/-- The number is a scalar other than zero. -/
def isUsable (k : Word256) : Bool :=
  match (Residue.ofWord256? k : Option Scalar) with
  | some s => !s.isZero
  | none => false

/-- The first usable output among the next `tries`; zero, with which nothing is signed, if there
is none. -/
def firstUsable : (tries : Nat) → Generator → Word256
  | 0, _ => Word256.zero
  | tries + 1, g =>
    let k := (Word256.ofBytes? g.output).getD Word256.zero
    if isUsable k then k else firstUsable tries g.next

/-- The number of outputs looked at.  One of them is unusable with a chance of about `2^-128`. -/
def maxTries : Nat := 128

/-- The deterministic nonce. -/
def deterministic : NonceRule := fun secret message =>
  firstUsable maxTries (Generator.seeded secret.toBytes message.toBytes)

end Nonce

end CurveSign
