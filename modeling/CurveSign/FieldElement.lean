import CurveSign.Residue.Basic

namespace CurveSign

/-!
# The field of coordinates

Elements of the field of `p = 2^256 - 2^32 - 977` elements.  Inverses and square roots are powers,
`a^(p-2)` and `a^((p+1)/4)`; both exponents are, in binary, a block of 223 ones and a block of 22
ones followed by a short tail, so the two share the powers `a^(2^k - 1)` of those blocks.
-/

/-- An element of the field of coordinates. -/
abbrev FieldElement := Residue Modulus.coordinate

namespace FieldElement

/-- The power `a^(2^(i+k) - 1)`, from `x = a^(2^i - 1)` and `y = a^(2^k - 1)`. -/
def joinOnes (x : FieldElement) (k : Nat) (y : FieldElement) : FieldElement :=
  x.squareTimes k * y

/-- Powers `a^(2^k - 1)` for the lengths `k` of the blocks of ones in the two exponents. -/
structure OnesPowers where
  ones2 : FieldElement
  ones22 : FieldElement
  ones223 : FieldElement

/-- The powers for blocks of 2, 22 and 223 ones, through blocks of 3, 6, 9, 11, 44, 88, 176 and
220. -/
def onesPowers (a : FieldElement) : OnesPowers :=
  let ones2 := joinOnes a 1 a
  let ones3 := joinOnes ones2 1 a
  let ones6 := joinOnes ones3 3 ones3
  let ones9 := joinOnes ones6 3 ones3
  let ones11 := joinOnes ones9 2 ones2
  let ones22 := joinOnes ones11 11 ones11
  let ones44 := joinOnes ones22 22 ones22
  let ones88 := joinOnes ones44 44 ones44
  let ones176 := joinOnes ones88 88 ones88
  let ones220 := joinOnes ones176 44 ones44
  { ones2 := ones2, ones22 := ones22, ones223 := joinOnes ones220 3 ones3 }

/-- The power `a^(p-2)`. -/
def inversePower (a : FieldElement) : FieldElement :=
  let powers := a.onesPowers
  let high := powers.ones223.squareTimes 23 * powers.ones22
  let middle := high.squareTimes 5 * a
  let low := middle.squareTimes 3 * powers.ones2
  low.squareTimes 2 * a

/-- The inverse, of every element but zero. -/
def invert? (a : FieldElement) : Option FieldElement :=
  if a.isZero then none else some a.inversePower

/-- The power `a^((p+1)/4)`. -/
def rootPower (a : FieldElement) : FieldElement :=
  let powers := a.onesPowers
  let high := powers.ones223.squareTimes 23 * powers.ones22
  let middle := high.squareTimes 6 * powers.ones2
  middle.squareTimes 2

/-- A square root, if there is one: `a^((p+1)/4)`, kept only if its square is `a`. -/
def sqrt? (a : FieldElement) : Option FieldElement :=
  if a.rootPower.square == a then some a.rootPower else none

/-- The coefficient 7 of the curve equation `y² = x³ + 7`. -/
def seven : FieldElement := Residue.ofWord 7

/-- The group order as a field element. -/
def order : FieldElement := ⟨Modulus.orderWord, by decide⟩

/-- The difference `p - n`. -/
def primeLessOrder : FieldElement :=
  ⟨⟨0x402DA1722FC9BAEE, 0x4551231950B75FC4, 1, 0⟩, by decide⟩

/-- The text `FieldElement([l0, l1, l2, l3])`, with the words in decimal. -/
def describe (a : FieldElement) : String := "FieldElement(" ++ a.word.describe ++ ")"

end FieldElement

end CurveSign
