namespace CurveSign

/-!
# Hexadecimal text

Byte strings as text with two digits per byte, in lower or upper case.
-/

namespace Hex

/-- The digit of a value below sixteen, its letters starting from `ten`. -/
def digit (ten : Char) (value : Nat) : Char :=
  if value < 10 then Char.ofNat ('0'.toNat + value) else Char.ofNat (ten.toNat + (value - 10))

/-- Two digits per byte, the high one first. -/
def text (ten : Char) (bytes : List UInt8) : String :=
  String.ofList (bytes.flatMap fun b => [digit ten (b.toNat / 16), digit ten (b.toNat % 16)])

/-- Lower-case text. -/
def lower (bytes : List UInt8) : String := text 'a' bytes

/-- Upper-case text. -/
def upper (bytes : List UInt8) : String := text 'A' bytes

/-- The value of a digit in either case. -/
def value? (c : Char) : Option Nat :=
  if '0' ≤ c ∧ c ≤ '9' then some (c.toNat - '0'.toNat)
  else if 'a' ≤ c ∧ c ≤ 'f' then some (c.toNat - 'a'.toNat + 10)
  else if 'A' ≤ c ∧ c ≤ 'F' then some (c.toNat - 'A'.toNat + 10)
  else none

/-- The bytes of an even number of digits. -/
def bytes? : List Char → Option (List UInt8)
  | [] => some []
  | [_] => none
  | high :: low :: rest => do
    let h ← value? high
    let l ← value? low
    let tail ← bytes? rest
    return UInt8.ofNat (16 * h + l) :: tail

/-- The bytes that a hexadecimal text spells. -/
def decode? (s : String) : Option (List UInt8) := bytes? s.toList

end Hex

end CurveSign
