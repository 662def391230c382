import CurveSign.Word256.Basic

namespace CurveSign

/-!
# Products of four-word numbers

The exact product of two numbers below `2^256`, and the step that brings a number of eight words
down modulo `2^256 - c`: since `2^256` is congruent to `c`, the value `lo + hi · 2^256` may be
replaced by `lo + hi · c`.
-/

/-- A number below `2^512`, as the halves of `lo + 2^256 · hi`. -/
structure Word512 where
  lo : Word256
  hi : Word256
deriving DecidableEq, Repr

/-- A number of five words, as its lowest word and the other four. -/
structure Row where
  low : UInt64
  rest : Word256
deriving DecidableEq, Repr

namespace Word256

/-- One row of a product: `acc + x · b`. -/
@[inline]
def mulAddRow (acc : Word256) (x : UInt64) (b : Word256) : Row :=
  let p0 := Word.mulAdd acc.l0 x b.l0 0
  let p1 := Word.mulAdd acc.l1 x b.l1 p0.high
  let p2 := Word.mulAdd acc.l2 x b.l2 p1.high
  let p3 := Word.mulAdd acc.l3 x b.l3 p2.high
  { low := p0.low, rest := ⟨p1.low, p2.low, p3.low, p3.high⟩ }

/-- The product `a · b`, row by row over the words of `a`. -/
def mulWide (a b : Word256) : Word512 :=
  let r0 := mulAddRow zero a.l0 b
  let r1 := mulAddRow r0.rest a.l1 b
  let r2 := mulAddRow r1.rest a.l2 b
  let r3 := mulAddRow r2.rest a.l3 b
  { lo := ⟨r0.low, r1.low, r2.low, r3.low⟩, hi := r3.rest }

end Word256

namespace Word512

/-- The number that the two halves stand for. -/
def toNat (w : Word512) : Nat := w.lo.toNat + Word256.size * w.hi.toNat

/-- One reduction step: `lo + hi · c`. -/
def fold (w : Word512) (c : Word256) : Word512 :=
  let product := Word256.mulWide w.hi c
  let (lo, carry) := product.lo.addCarry w.lo false
  { lo := lo, hi := (product.hi.addCarry Word256.zero carry).1 }

/-- The reduction step, `rounds` times. -/
def foldTimes (c : Word256) : Nat → Word512 → Word512
  | 0, w => w
  | rounds + 1, w => foldTimes c rounds (w.fold c)

end Word512

end CurveSign
