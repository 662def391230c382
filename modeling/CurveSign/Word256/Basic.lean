import CurveSign.Word

namespace CurveSign

/-!
# Numbers of four words

`Word256` holds a natural number below `2^256` as four machine words, and `toNat` is its one view.
Each operation has one equation through that view: `addCarry_value` and `subBorrow_value` keep the
bit that leaves the top, `compare_eq` orders by value, `bit_eq_testBit` and `bits_eq` read single
bits and groups of bits, `shiftRightOne_value` halves.
-/

/-- A number below `2^256`: four words, the least significant first. -/
structure Word256 where
  l0 : UInt64
  l1 : UInt64
  l2 : UInt64
  l3 : UInt64
deriving DecidableEq, Repr

namespace Word256

open Word (base)

/-- The number of values, `2^256`. -/
abbrev size : Nat := 0x10000000000000000000000000000000000000000000000000000000000000000

/-- The number that the four words stand for. -/
def toNat (a : Word256) : Nat :=
  a.l0.toNat + base * (a.l1.toNat + base * (a.l2.toNat + base * a.l3.toNat))

/-- The four words of `n`, modulo `2^256`. -/
def ofNat (n : Nat) : Word256 where
  l0 := UInt64.ofNat n
  l1 := UInt64.ofNat (n / base)
  l2 := UInt64.ofNat (n / base / base)
  l3 := UInt64.ofNat (n / base / base / base)

/-- The number zero. -/
def zero : Word256 := ⟨0, 0, 0, 0⟩

/-- The number one. -/
def one : Word256 := ⟨1, 0, 0, 0⟩

instance : Inhabited Word256 := ⟨zero⟩

/-- A single word as a number. -/
def ofWord (w : UInt64) : Word256 := ⟨w, 0, 0, 0⟩

/-- The lowest bit is set. -/
def isOdd (a : Word256) : Bool := a.l0 &&& 1 == 1

/-- The sum `a + b + carry` modulo `2^256`, and its carry. -/
def addCarry (a b : Word256) (carry : Bool) : Word256 × Bool :=
  let r0 := Word.addCarry a.l0 b.l0 carry
  let r1 := Word.addCarry a.l1 b.l1 r0.bit
  let r2 := Word.addCarry a.l2 b.l2 r1.bit
  let r3 := Word.addCarry a.l3 b.l3 r2.bit
  (⟨r0.word, r1.word, r2.word, r3.word⟩, r3.bit)

/-- The difference `a - b` modulo `2^256`, and its borrow: set exactly when `a < b`. -/
def subBorrow (a b : Word256) : Word256 × Bool :=
  let r0 := Word.subBorrow a.l0 b.l0 false
  let r1 := Word.subBorrow a.l1 b.l1 r0.bit
  let r2 := Word.subBorrow a.l2 b.l2 r1.bit
  let r3 := Word.subBorrow a.l3 b.l3 r2.bit
  (⟨r0.word, r1.word, r2.word, r3.word⟩, r3.bit)

/-- The order of two numbers: the highest words that differ decide. -/
protected def compare (a b : Word256) : Ordering :=
  (compare a.l3 b.l3).then <| (compare a.l2 b.l2).then <|
    (compare a.l1 b.l1).then <| compare a.l0 b.l0

/-- The number shifted down by one bit, with `top` as its new highest bit. -/
def shiftRightOne (a : Word256) (top : Bool) : Word256 where
  l0 := a.l0 >>> 1 + a.l1 <<< 63
  l1 := a.l1 >>> 1 + a.l2 <<< 63
  l2 := a.l2 >>> 1 + a.l3 <<< 63
  l3 := a.l3 >>> 1 + top.toUInt64 <<< 63

/-- The `i`-th word; zero above the top. -/
def limb (a : Word256) : Nat → UInt64
  | 0 => a.l0
  | 1 => a.l1
  | 2 => a.l2
  | 3 => a.l3
  | _ => 0

/-- The `i`-th bit; zero above the top. -/
def bit (a : Word256) (i : Nat) : Bool :=
  (a.limb (i / 64) >>> UInt64.ofNat (i % 64)) &&& 1 == 1

/-- The number formed by `count` bits from bit `offset` on. -/
def bits (a : Word256) (offset : Nat) : Nat → Nat
  | 0 => 0
  | count + 1 => (a.bit offset).toNat + 2 * bits a (offset + 1) count

/-- The text `[l0, l1, l2, l3]`, with the words in decimal. -/
def describe (a : Word256) : String :=
  "[" ++ ", ".intercalate ([a.l0, a.l1, a.l2, a.l3].map fun l => toString l.toNat) ++ "]"

end Word256

end CurveSign
