import CurveSign.Bytes.BigEndian
import CurveSign.Residue.Modulus
import CurveSign.Word256.Reduction

namespace CurveSign

/-!
# Residues modulo the prime or the order

A residue is a number below its modulus, held in four words.  The bound is part of the type, so
every operation here is shown to end below the modulus where it is defined.  `toNat` is the view:
the module `Residue.Lemmas` says what each operation does to it.
-/

/-- A number below the modulus `m`. -/
structure Residue (m : Modulus) where
  word : Word256
  word_lt : word.toNat < m.toNat
deriving DecidableEq

namespace Residue

variable {m : Modulus}

/-- The number below the modulus. -/
def toNat (a : Residue m) : Nat := a.word.toNat

theorem toNat_lt (a : Residue m) : a.toNat < m.toNat := a.word_lt

/-- Two residues with the same number are the same. -/
theorem toNat_inj {a b : Residue m} : a.toNat = b.toNat ↔ a = b := by
  constructor
  · intro h
    obtain ⟨x, hx⟩ := a
    obtain ⟨y, hy⟩ := b
    obtain rfl : x = y := Word256.toNat_inj.1 h
    rfl
  · rintro rfl
    rfl

/-- There is more than one residue. -/
theorem one_lt_modulus (m : Modulus) : 1 < m.toNat := by
  have h := m.size_lt
  simp only [Modulus.toNat, Word256.size] at *
  omega

/-- A value below twice the modulus, less the modulus where needed. -/
def ofCarried (a : Word256) (carry : Bool)
    (h : a.toNat + Word256.size * carry.toNat < 2 * m.toNat) : Residue m :=
  ⟨a.subModulus carry m.word, Word256.subModulus_lt a carry m.word m.size_lt h⟩

/-! ### Constants and reading -/

instance : Zero (Residue m) := ⟨⟨Word256.zero, Nat.lt_trans Nat.zero_lt_one (one_lt_modulus m)⟩⟩

instance : One (Residue m) := ⟨⟨Word256.one, one_lt_modulus m⟩⟩

instance : Inhabited (Residue m) := ⟨0⟩

/-- A single word, which is below either modulus. -/
def ofWord (w : UInt64) : Residue m where
  word := Word256.ofWord w
  word_lt := by
    have h := m.size_lt
    have hw := Word.toNat_lt_base w
    simp only [Modulus.toNat, Word256.ofWord, Word256.size, Word.base] at *
    rw [Word256.toNat]
    simp only [UInt64.toNat_zero]
    omega

/-- Every number of four words is below twice the modulus. -/
theorem toNat_lt_double (m : Modulus) (a : Word256) :
    a.toNat + Word256.size * false.toNat < 2 * m.toNat := by
  have h := m.size_lt
  have ha := a.toNat_lt
  simp only [Modulus.toNat, Bool.toNat_false, Word256.size] at *
  omega

/-- The residue of any number, and whether the number was reduced. -/
def ofWord256 (a : Word256) : Residue m × Bool :=
  (ofCarried a false (toNat_lt_double m a), !(a.subBorrow m.word).2)

/-- The residue of any number. -/
def reduce (a : Word256) : Residue m := (ofWord256 a).1

/-- The number itself, if it is below the modulus. -/
def ofWord256? (a : Word256) : Option (Residue m) :=
  if (ofWord256 (m := m) a).2 then none else some (reduce a)

/-- The 32 bytes of the number, most significant first. -/
def toBytes (a : Residue m) : List UInt8 := a.word.toBytes

/-- The residue that 32 bytes spell, if their number is below the modulus. -/
def ofBytes? (bytes : List UInt8) : Option (Residue m) :=
  (Word256.ofBytes? bytes).bind ofWord256?

/-! ### Tests -/

/-- The residue is zero. -/
def isZero (a : Residue m) : Bool := a == 0

/-- The number below the modulus is odd. -/
def isOdd (a : Residue m) : Bool := a.word.isOdd

/-- The order of the numbers below the modulus. -/
protected def compare (a b : Residue m) : Ordering := a.word.compare b.word

/-! ### Ring operations -/

/-- The sum, from an exact sum with its carry. -/
protected def add (a b : Residue m) : Residue m :=
  ofCarried (a.word.addCarry b.word false).1 (a.word.addCarry b.word false).2 (by
    have h := Word256.addCarry_value a.word b.word false
    have ha := a.word_lt
    have hb := b.word_lt
    simp only [Bool.toNat_false] at h
    omega)

/-- The difference; the modulus is added back after a borrow. -/
protected def sub (a b : Residue m) : Residue m :=
  let d := a.word.subBorrow b.word
  if h : d.2 then
    ⟨(d.1.addCarry m.word false).1, by
      have hd := Word256.subBorrow_value a.word b.word
      have hs := Word256.addCarry_value d.1 m.word false
      have ha := a.word_lt
      have hb := b.word_lt
      have hl := d.1.toNat_lt
      have hr := (d.1.addCarry m.word false).1.toNat_lt
      have hm := m.word.toNat_lt
      have hbit := Word.bit_le_one (d.1.addCarry m.word false).2
      have h' : (a.word.subBorrow b.word).2 = true := h
      rw [h'] at hd
      simp only [Modulus.toNat, Bool.toNat_false, Bool.toNat_true, Word256.size, d] at *
      omega⟩
  else
    ⟨d.1, by
      have hd := Word256.subBorrow_value a.word b.word
      have ha := a.word_lt
      have h' : (a.word.subBorrow b.word).2 = false := Bool.eq_false_iff.2 h
      rw [h'] at hd
      simp only [Modulus.toNat, Bool.toNat_false, d] at *
      omega⟩

/-- The negation, as the difference from zero. -/
protected def neg (a : Residue m) : Residue m := Residue.sub 0 a

/-- The product: folded below `2^256`, then reduced by one subtraction. -/
protected def mul (a b : Residue m) : Residue m :=
  ofCarried ((a.word.mulWide b.word).foldTimes m.complement m.rounds).lo false
    (toNat_lt_double m _)

instance : Add (Residue m) := ⟨Residue.add⟩
instance : Sub (Residue m) := ⟨Residue.sub⟩
instance : Neg (Residue m) := ⟨Residue.neg⟩
instance : Mul (Residue m) := ⟨Residue.mul⟩

/-- Twice the residue. -/
def double (a : Residue m) : Residue m := a + a

/-- The square. -/
def square (a : Residue m) : Residue m := a * a

/-- The square taken `times` times, the power `2^times`. -/
def squareTimes (a : Residue m) : Nat → Residue m
  | 0 => a
  | times + 1 => a.square.squareTimes times

/-- Half of the residue: the modulus is added to an odd number first. -/
def halve (a : Residue m) : Residue m :=
  let s := if a.isOdd then a.word.addCarry m.word false else (a.word, false)
  ⟨s.1.shiftRightOne s.2, by
    have ha := a.word_lt
    have hv := Word256.shiftRightOne_value s.1 s.2
    have hs := Word256.addCarry_value a.word m.word false
    rw [hv]
    by_cases h : a.isOdd = true
    · simp only [s, h, if_true, Modulus.toNat, Bool.toNat_false, Word256.size] at *
      omega
    · simp only [s, h, if_false, Modulus.toNat, Bool.false_eq_true, Bool.toNat_false] at *
      omega⟩

/-- The power with an exponent below `2^256`: its bits are read from the top, each by a squaring
and, where the bit is set, a multiplication. -/
def pow (a : Residue m) (exponent : Word256) : Residue m :=
  (List.range 256).foldr
    (fun i power => if exponent.bit i then power.square * a else power.square) 1

end Residue

end CurveSign
