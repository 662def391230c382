namespace CurveSign

/-!
# Machine words

Arithmetic on 64-bit words whose result may need one bit or one word more: addition with a carry,
subtraction with a borrow, and `a + b · c + carry`.  Every operation is pinned by one equation
between natural numbers (`Word.addCarry_value`, `Word.subBorrow_value`, `Word.mulHigh_toNat`,
`Word.mulAdd_value`).  A word as a digit in base `2^64` keeps order and bits (`Word.compare_digit`,
`Word.testBit_digit`).  Above this module only those equations are used.
-/

/-- A word together with the bit that left it, a carry or a borrow. -/
structure Carried where
  word : UInt64
  bit : Bool
deriving DecidableEq, Repr

/-- A value of two words, `low + 2^64 · high`. -/
structure DoubleWord where
  low : UInt64
  high : UInt64
deriving DecidableEq, Repr

namespace Word

/-- The number of values of a word, `2^64`. -/
abbrev base : Nat := 0x10000000000000000

/-- The sum `a + b + carry`, and its carry. -/
@[inline]
def addCarry (a b : UInt64) (carry : Bool) : Carried :=
  let s := a + b
  let t := s + carry.toUInt64
  { word := t, bit := decide (s < a) || decide (t < s) }

/-- The difference `a - b - borrow`, and its borrow. -/
@[inline]
def subBorrow (a b : UInt64) (borrow : Bool) : Carried :=
  let s := a - b
  let t := s - borrow.toUInt64
  { word := t, bit := decide (a < b) || decide (s < borrow.toUInt64) }

/-- The high word of `a · b`, from the four products of their halves. -/
@[inline]
def mulHigh (a b : UInt64) : UInt64 :=
  let a0 := a &&& 0xFFFFFFFF
  let a1 := a >>> 32
  let b0 := b &&& 0xFFFFFFFF
  let b1 := b >>> 32
  let inner := a1 * b0 + (a0 * b0) >>> 32
  let outer := a0 * b1 + (inner &&& 0xFFFFFFFF)
  a1 * b1 + inner >>> 32 + outer >>> 32

/-- The value `a + b · c + carry`, which always fits two words. -/
@[inline]
def mulAdd (a b c carry : UInt64) : DoubleWord :=
  let product := b * c
  let s := addCarry product a false
  let t := addCarry s.word carry false
  { low := t.word, high := mulHigh b c + s.bit.toUInt64 + t.bit.toUInt64 }

/-! ### Values -/

theorem toNat_lt_base (a : UInt64) : a.toNat < base := a.toNat_lt

theorem toNat_bit (b : Bool) : b.toUInt64.toNat = b.toNat := by
  cases b <;> rfl

theorem bit_le_one (b : Bool) : b.toNat ≤ 1 := by
  cases b <;> decide

/-- A sum and its carry make up the exact sum. -/
theorem addCarry_value (a b : UInt64) (carry : Bool) :
    (addCarry a b carry).word.toNat + base * (addCarry a b carry).bit.toNat
      = a.toNat + b.toNat + carry.toNat := by
  have ha := toNat_lt_base a
  have hb := toNat_lt_base b
  have hc := bit_le_one carry
  simp only [addCarry, base, UInt64.lt_iff_toNat_lt, UInt64.toNat_add, toNat_bit,
    Nat.reducePow] at *
  -- Either of the two sums may wrap, but not both.
  by_cases h1 : (a.toNat + b.toNat) % 0x10000000000000000 < a.toNat <;>
    by_cases h2 : ((a.toNat + b.toNat) % 0x10000000000000000 + carry.toNat) % 0x10000000000000000
        < (a.toNat + b.toNat) % 0x10000000000000000 <;>
      simp only [h1, h2, decide_true, decide_false, Bool.or_self, Bool.or_true, Bool.or_false,
        Bool.toNat_true, Bool.toNat_false] <;> omega

/-- A difference and its borrow make up the exact difference. -/
theorem subBorrow_value (a b : UInt64) (borrow : Bool) :
    (subBorrow a b borrow).word.toNat + b.toNat + borrow.toNat
      = a.toNat + base * (subBorrow a b borrow).bit.toNat := by
  have ha := toNat_lt_base a
  have hb := toNat_lt_base b
  have hc := bit_le_one borrow
  simp only [subBorrow, base, UInt64.lt_iff_toNat_lt, UInt64.toNat_sub, toNat_bit,
    Nat.reducePow] at *
  -- Either of the two differences may wrap, but not both.
  by_cases h1 : a.toNat < b.toNat <;>
    by_cases h2 : (0x10000000000000000 - b.toNat + a.toNat) % 0x10000000000000000
        < borrow.toNat <;>
      simp only [h1, h2, decide_true, decide_false, Bool.or_self, Bool.or_true, Bool.or_false,
        Bool.toNat_true, Bool.toNat_false] <;> omega

/-- A product of halves with two further halves added is still one word. -/
theorem half_mul_lt {x y u v : Nat} (hx : x < 0x100000000) (hy : y < 0x100000000)
    (hu : u < 0x100000000) (hv : v < 0x100000000) : x * y + u + v < base := by
  have h : x * y ≤ 0xFFFFFFFF * 0xFFFFFFFF := Nat.mul_le_mul (by omega) (by omega)
  simp only [base]
  omega

/-- The high word of a product is its quotient by the base. -/
theorem mulHigh_toNat (a b : UInt64) : (mulHigh a b).toNat = a.toNat * b.toNat / base := by
  have ha := toNat_lt_base a
  have hb := toNat_lt_base b
  have hmask : ∀ n : Nat, n &&& 0xFFFFFFFF = n % 0x100000000 := fun n =>
    Nat.and_two_pow_sub_one_eq_mod n 32
  simp only [mulHigh, base, UInt64.toNat_add, UInt64.toNat_mul, UInt64.toNat_and,
    UInt64.toNat_shiftRight, UInt64.reduceToNat, hmask, Nat.shiftRight_eq_div_pow,
    Nat.reducePow, Nat.reduceMod] at *
  generalize ha0 : a.toNat % 0x100000000 = a0
  generalize ha1 : a.toNat / 0x100000000 = a1
  generalize hb0 : b.toNat % 0x100000000 = b0
  generalize hb1 : b.toNat / 0x100000000 = b1
  -- The product of the numbers is that of their halves, as in long multiplication.
  have hsplit : a.toNat * b.toNat = a0 * b0 + 0x100000000 * (a1 * b0 + a0 * b1)
      + 0x10000000000000000 * (a1 * b1) := by
    have h1 : a.toNat = a0 + 0x100000000 * a1 := by omega
    have h2 : b.toNat = b0 + 0x100000000 * b1 := by omega
    rw [h1, h2]
    simp only [Nat.add_mul, Nat.mul_add, Nat.mul_assoc, Nat.mul_left_comm a0, Nat.mul_left_comm a1]
    omega
  -- None of the partial sums leaves a machine word.
  have h00 := half_mul_lt (x := a0) (y := b0) (u := 0) (v := 0) (by omega) (by omega)
    (by omega) (by omega)
  have h10 := half_mul_lt (x := a1) (y := b0) (u := 0xFFFFFFFF) (v := 0) (by omega) (by omega)
    (by omega) (by omega)
  have h01 := half_mul_lt (x := a0) (y := b1) (u := 0xFFFFFFFF) (v := 0) (by omega) (by omega)
    (by omega) (by omega)
  have h11 := half_mul_lt (x := a1) (y := b1) (u := 0xFFFFFFFF) (v := 0xFFFFFFFF) (by omega)
    (by omega) (by omega) (by omega)
  rw [hsplit]
  simp only [base] at *
  generalize a0 * b0 = p00 at *
  generalize a1 * b0 = p10 at *
  generalize a0 * b1 = p01 at *
  generalize a1 * b1 = p11 at *
  omega

/-- The two words of `mulAdd` make up the exact value: nothing is lost beyond them. -/
theorem mulAdd_value (a b c carry : UInt64) :
    (mulAdd a b c carry).low.toNat + base * (mulAdd a b c carry).high.toNat
      = a.toNat + b.toNat * c.toNat + carry.toNat := by
  have ha := toNat_lt_base a
  have hb := toNat_lt_base b
  have hc := toNat_lt_base c
  have hd := toNat_lt_base carry
  have hs := addCarry_value (b * c) a false
  have ht := addCarry_value (addCarry (b * c) a false).word carry false
  have hh := mulHigh_toNat b c
  -- The product leaves room for both summands in its upper word.
  have hp : b.toNat * c.toNat ≤ 0xFFFFFFFFFFFFFFFF * 0xFFFFFFFFFFFFFFFF :=
    Nat.mul_le_mul (by simp only [base] at *; omega) (by simp only [base] at *; omega)
  simp only [mulAdd, base, UInt64.toNat_add, UInt64.toNat_mul, toNat_bit, Bool.toNat_false,
    Nat.reducePow] at *
  generalize b.toNat * c.toNat = p at *
  omega

/-! ### Order and bits -/

/-- The order of words is the order of their values. -/
theorem compare_eq (a b : UInt64) : compare a b = compare a.toNat b.toNat := by
  simp only [compare, compareOfLessAndEq, UInt64.lt_iff_toNat_lt, ← UInt64.toNat_inj]

/-- Of two numbers in base `2^64` the higher digits decide first. -/
theorem compare_digit {x y : UInt64} {m n : Nat} :
    compare (x.toNat + base * m) (y.toNat + base * n)
      = (compare m n).then (compare x y) := by
  have hx := toNat_lt_base x
  have hy := toNat_lt_base y
  rw [compare_eq]
  -- The upper words decide unless they are equal.
  rcases h : compare m n with _ | _ | _
  · rw [Nat.compare_eq_lt] at h
    exact Nat.compare_eq_lt.2 (by simp only [base] at *; omega)
  · rw [Nat.compare_eq_eq] at h
    subst h
    simp only [Ordering.eq_then]
    rcases h : compare x.toNat y.toNat with _ | _ | _
    · exact Nat.compare_eq_lt.2 (Nat.add_lt_add_right (Nat.compare_eq_lt.1 h) _)
    · exact Nat.compare_eq_eq.2 (congrArg (· + base * m) (Nat.compare_eq_eq.1 h))
    · exact Nat.compare_eq_gt.2 (Nat.add_lt_add_right (Nat.compare_eq_gt.1 h) _)
  · rw [Nat.compare_eq_gt] at h
    exact Nat.compare_eq_gt.2 (by simp only [base] at *; omega)

/-- The bits of a number in base `2^64` are those of its digits. -/
theorem testBit_digit (x : UInt64) (m i : Nat) :
    (x.toNat + base * m).testBit i = if i < 64 then x.toNat.testBit i else m.testBit (i - 64) := by
  rw [Nat.add_comm]
  exact Nat.testBit_two_pow_mul_add (i := 64) m (toNat_lt_base x) i

/-- Shifting the `i`-th bit to the bottom reads it. -/
theorem lowBit_shiftRight (x : UInt64) {i : Nat} (h : i < 64) :
    ((x >>> UInt64.ofNat i) &&& 1 == 1) = x.toNat.testBit i := by
  have hi : (UInt64.ofNat i).toNat % 64 = i := by
    rw [UInt64.toNat_ofNat']
    omega
  have hv : ((x >>> UInt64.ofNat i) &&& 1).toNat = (x.toNat >>> i) % 2 := by
    rw [UInt64.toNat_and, UInt64.toNat_shiftRight, hi]
    exact Nat.and_two_pow_sub_one_eq_mod _ 1
  rw [Nat.testBit_eq_decide_div_mod_eq, ← Nat.shiftRight_eq_div_pow, ← hv, Bool.eq_iff_iff]
  simp only [beq_iff_eq, decide_eq_true_eq, ← UInt64.toNat_inj, UInt64.reduceToNat]

end Word

end CurveSign
