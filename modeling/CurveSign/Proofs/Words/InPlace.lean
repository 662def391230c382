import CurveSign.Proofs.Words.DoubleWord
import Mathlib.Data.Nat.Digits.Defs
import Mathlib.Tactic.LinearCombination

namespace CurveSign

/-!
# Arithmetic on arrays of words

Sums, differences and products of numbers of any number of words are computed in place: each turn of a loop
replaces the word at one place and carries a word into the next.  What a turn keeps is the number that the
array stands for together with the carry (`Words.Carrying.valueAt_put`), so a loop adds exactly what its turns
add (`Words.mul_eq`, `Words.add_eq`, `Words.sub_eq`), and none of its numbers leaves two words.  Every index
is inside its array by the type of the array.
-/

/-- **A loop that counts** ends, with whatever its turns take from one count to the next. -/
theorem foldlM_finRange_ok {α ε : Type} {n : ℕ} (turn : α → Fin n → Except ε α) (start : α)
    (holds : ℕ → α → Prop) (hstart : holds 0 start)
    (hturn : ∀ (i : Fin n) (state : α), holds i state →
      ∃ next, turn state i = .ok next ∧ holds (i + 1) next) :
    ∃ state, (List.finRange n).foldlM turn start = .ok state ∧ holds n state := by
  induction n with
  | zero => exact ⟨start, rfl, hstart⟩
  | succ n ih =>
    obtain ⟨state, hloop, hstate⟩ := ih _ fun i => hturn i.castSucc
    obtain ⟨next, hlast, hnext⟩ := hturn (Fin.last n) state hstate
    refine ⟨next, ?_, hnext⟩
    rw [List.finRange_succ_last, List.foldlM_append, List.foldlM_map, hloop, ok_bind,
      List.foldlM_cons, hlast]
    rfl

namespace Words

open Word (base)

variable {n k : ℕ}

/-! ### Numbers in arrays -/

/-- The number that the lowest words of an array stand for, the least significant first. -/
def low (w : Vector UInt64 n) (count : ℕ) : ℕ :=
  Nat.ofDigits base ((w.toList.take count).map UInt64.toNat)

/-- The number that an array of words stands for. -/
def value (w : Vector UInt64 n) : ℕ := low w n

theorem low_zero (w : Vector UInt64 n) : low w 0 = 0 := rfl

/-- The words are the digits of their value. -/
theorem value_eq_ofDigits (w : Vector UInt64 n) :
    value w = Nat.ofDigits base (w.toList.map UInt64.toNat) := by
  rw [value, low, List.take_of_length_le w.length_toList.le]

/-- One place further, one more word counts. -/
theorem low_succ (w : Vector UInt64 n) {place : ℕ} (h : place < n) :
    low w (place + 1) = low w place + base ^ place * w[place].toNat := by
  have hlength : place < w.toList.length := by rwa [w.length_toList]
  rw [low, low, List.take_succ_eq_append_getElem hlength, List.map_append, Nat.ofDigits_append,
    List.length_map, List.length_take_of_le hlength.le, List.map_singleton, Nat.ofDigits_singleton,
    Vector.getElem_toList]

/-- Writing a word leaves those below it as they are. -/
theorem low_set_of_le (w : Vector UInt64 n) {place count : ℕ} (h : place < n) (x : UInt64)
    (hle : count ≤ place) : low (w.set place x) count = low w count := by
  rw [low, low, Vector.toList_set, List.take_set_of_le hle]

/-- Another word at a place counts with the place. -/
theorem value_set (w : Vector UInt64 n) {place : ℕ} (h : place < n) (x : UInt64) :
    value (w.set place x) + base ^ place * w[place].toNat
      = value w + base ^ place * x.toNat := by
  have hlength : place < w.toList.length := by rwa [w.length_toList]
  have hsplit : w.toList = w.toList.take place ++ w[place] :: w.toList.drop (place + 1) := by
    rw [← Vector.getElem_toList hlength, List.getElem_cons_drop, List.take_append_drop]
  have htake : ((w.toList.take place).map UInt64.toNat).length = place := by
    rw [List.length_map, List.length_take_of_le hlength.le]
  rw [value_eq_ofDigits, value_eq_ofDigits, Vector.toList_set, List.set_eq_take_append_cons_drop,
    if_pos hlength]
  conv_rhs => rw [hsplit]
  simp only [List.map_append, List.map_cons, Nat.ofDigits_append, Nat.ofDigits_cons, htake]
  ring

theorem digit_lt (w : Vector UInt64 n) : ∀ d ∈ w.toList.map UInt64.toNat, d < base :=
  List.forall_mem_map.2 fun x _ => Word.toNat_lt_base x

/-- A value has no more digits than words. -/
theorem value_lt (w : Vector UInt64 n) : value w < base ^ n := by
  have h := Nat.ofDigits_lt_base_pow_length (by decide) (digit_lt w)
  rwa [← value_eq_ofDigits, List.length_map, w.length_toList] at h

/-- Different arrays of one length stand for different numbers. -/
theorem value_inj {w w' : Vector UInt64 n} : value w = value w' ↔ w = w' := by
  constructor
  · intro h
    rw [value_eq_ofDigits, value_eq_ofDigits] at h
    have hmap := Nat.ofDigits_inj_of_len_eq (by decide) (by simp) (digit_lt w) (digit_lt w') h
    exact Vector.toList_inj.1 (List.map_injective_iff.2 (fun _ _ => UInt64.toNat_inj.1) hmap)
  · rintro rfl
    rfl

theorem value_replicate_zero : value (Vector.replicate n 0) = 0 := by
  rw [value_eq_ofDigits, Vector.toList_replicate, List.map_replicate]
  exact Nat.ofDigits_append_replicate_zero []

/-! ### Carrying -/

/-- An array, and the word that is carried into the next place. -/
structure Carrying (n : ℕ) where
  words : Vector UInt64 n
  carry : UInt64

namespace Carrying

variable {s : Carrying n} {d : DoubleWord} {place added : ℕ}

/-- The number that an array and a carry into a place stand for. -/
def valueAt (s : Carrying n) (place : ℕ) : ℕ := value s.words + base ^ place * s.carry.toNat

/-- Puts the low word at a place, and carries the high word. -/
def put (s : Carrying n) (place : ℕ) (d : DoubleWord) (h : place < n) : Carrying n :=
  ⟨s.words.set place d.low, d.high⟩

/-- **A turn keeps the number**, up to what it adds at its place. -/
theorem valueAt_put (h : place < n)
    (hd : d.value = s.words[place].toNat + added + s.carry.toNat) :
    (s.put place d h).valueAt (place + 1) = s.valueAt place + base ^ place * added := by
  have hset := value_set s.words h d.low
  rw [DoubleWord.value] at hd
  rw [valueAt, valueAt, put, pow_succ]
  linear_combination hset + base ^ place * hd

/-- Nothing is carried out of an array that holds the number. -/
theorem eq_of_valueAt {w : Vector UInt64 n} (h : s.valueAt n = value w) : s = ⟨w, 0⟩ := by
  have hcarry : s.carry.toNat = 0 := by
    by_contra hne
    have hle := Nat.le_mul_of_pos_right (base ^ n) (Nat.pos_of_ne_zero hne)
    have hlt := value_lt w
    rw [valueAt] at h
    omega
  obtain ⟨words, carry⟩ := s
  obtain rfl : carry = 0 := UInt64.toNat_inj.1 hcarry
  rw [valueAt, UInt64.toNat_zero, Nat.mul_zero, Nat.add_zero, value_inj] at h
  exact congrArg (Carrying.mk · 0) h

theorem getElem_put_of_lt (h : place < n) {p : ℕ} (hp : p < n) (hlt : place < p) :
    (s.put place d h).words[p] = s.words[p] :=
  Vector.getElem_set_ne h hp hlt.ne

end Carrying

/-! ### Products -/

/-- One turn of a row: the product of two words is added at a place. -/
def mulTurn (x : UInt64) (b : Vector UInt64 k) (i : Fin n) (s : Carrying (n + k)) (j : Fin k) :
    Except Fault (Carrying (n + k)) := do
  let d ← Word.mulAddWide s.words[i.val + j.val] x b[j.val] s.carry
  return s.put (i + j) d (by omega)

/-- One row: the product with a word is added at its place, and the last carry goes behind it. -/
def mulRow (a : Vector UInt64 n) (b : Vector UInt64 k) (w : Vector UInt64 (n + k)) (i : Fin n) :
    Except Fault (Vector UInt64 (n + k)) := do
  let s ← (List.finRange k).foldlM (mulTurn a[i.val] b i) ⟨w, 0⟩
  return s.words.set (i + k) s.carry

/-- The product, row by row in an array of zeros. -/
def mul (a : Vector UInt64 n) (b : Vector UInt64 k) : Except Fault (Vector UInt64 (n + k)) :=
  (List.finRange n).foldlM (mulRow a b) (Vector.replicate (n + k) 0)

variable {a : Vector UInt64 n} {b : Vector UInt64 k} {w : Vector UInt64 (n + k)}

/-- One turn of the inner loop adds one product at its place, leaving the words behind it as they are. -/
theorem mulTurn_eq (x : UInt64) (b : Vector UInt64 k) (i : Fin n) (s : Carrying (n + k))
    (j : Fin k) : ∃ next, mulTurn x b i s j = .ok next
      ∧ next.valueAt (i + j + 1)
        = s.valueAt (i + j) + base ^ (i.val + j.val) * (x.toNat * b[j.val].toNat)
      ∧ ∀ p (hp : p < n + k), i.val + j.val < p → next.words[p] = s.words[p] := by
  have hplace : i.val + j.val < n + k := by omega
  have hd := Word.value_mulAdd s.words[i.val + j.val] x b[j.val] s.carry
  refine ⟨s.put (i + j) _ hplace, ?_, Carrying.valueAt_put hplace hd, fun p hp hlt =>
    Carrying.getElem_put_of_lt hplace hp hlt⟩
  rw [mulTurn, Word.mulAddWide_eq]
  rfl

/-- **A row** adds the product with its word, and leaves the places above its last carry as they are. -/
theorem mulRow_eq (i : Fin n) (hzero : ∀ p (hp : p < n + k), i + k ≤ p → w[p] = 0) :
    ∃ next, mulRow a b w i = .ok next
      ∧ value next = value w + base ^ i.val * (a[i.val].toNat * value b)
      ∧ ∀ p (hp : p < n + k), i + 1 + k ≤ p → next[p] = 0 := by
  obtain ⟨s, hloop, hvalue, hframe⟩ := foldlM_finRange_ok (mulTurn a[i.val] b i) ⟨w, 0⟩
    (fun j s => s.valueAt (i + j) = value w + base ^ i.val * (a[i.val].toNat * low b j)
      ∧ ∀ p (hp : p < n + k), i + j ≤ p → s.words[p] = w[p])
    ⟨by simp [Carrying.valueAt, low_zero], fun p hp _ => rfl⟩
    (by
      rintro j s ⟨hvalue, hframe⟩
      obtain ⟨next, hturn, hnext, hkeep⟩ := mulTurn_eq a[i.val] b i s j
      refine ⟨next, hturn, ?_, fun p hp hle => ?_⟩
      · rw [← Nat.add_assoc, hnext, hvalue, low_succ b j.isLt, pow_add]
        ring
      · rw [hkeep p hp (by omega), hframe p hp (by omega)])
  -- The last carry replaces a word, so the row is only a sum because that word was still zero.
  have hlast : s.words[i.val + k] = 0 := by
    rw [hframe _ (by omega) le_rfl, hzero _ (by omega) le_rfl]
  have hset := value_set s.words (show i.val + k < n + k by omega) s.carry
  refine ⟨s.words.set (i + k) s.carry, ?_, ?_, fun p hp hle => ?_⟩
  · rw [mulRow, hloop]
    rfl
  · rw [hlast, UInt64.toNat_zero, Nat.mul_zero, Nat.add_zero] at hset
    rw [hset]
    exact hvalue
  · rw [Vector.getElem_set_ne _ hp (by omega), hframe p hp (by omega), hzero p hp (by omega)]

/-- **Products are exact**, and nothing on the way leaves two words. -/
theorem mul_eq (a : Vector UInt64 n) (b : Vector UInt64 k) :
    ∃ w, mul a b = .ok w ∧ value w = value a * value b := by
  obtain ⟨w, hloop, hvalue, -⟩ := foldlM_finRange_ok (mulRow a b) (Vector.replicate (n + k) 0)
    (fun i w => value w = low a i * value b
      ∧ ∀ p (hp : p < n + k), i + k ≤ p → w[p] = 0)
    ⟨by rw [value_replicate_zero, low_zero, Nat.zero_mul], fun p hp _ => Vector.getElem_replicate hp⟩
    (by
      rintro i w ⟨hvalue, hzero⟩
      obtain ⟨next, hrow, hnext, hrest⟩ := mulRow_eq i hzero
      refine ⟨next, hrow, ?_, hrest⟩
      rw [hnext, hvalue, low_succ a i.isLt]
      ring)
  exact ⟨w, hloop, hvalue⟩

/-! ### Sums -/

/-- One turn of a sum: a word is added at a place. -/
def addTurn (b : Vector UInt64 k) (start : ℕ) (h : start + k ≤ n) (s : Carrying n) (j : Fin k) :
    Except Fault (Carrying n) := do
  let d ← Word.addWide s.words[start + j.val] b[j.val] s.carry
  return s.put (start + j) d (by omega)

/-- Adds words from a place on. -/
def add (b : Vector UInt64 k) (start : ℕ) (h : start + k ≤ n) (s : Carrying n) :
    Except Fault (Carrying n) :=
  (List.finRange k).foldlM (addTurn b start h) s

/-- One turn adds one word at its place. -/
theorem addTurn_eq (b : Vector UInt64 k) {start : ℕ} (h : start + k ≤ n) (s : Carrying n)
    (j : Fin k) : ∃ next, addTurn b start h s j = .ok next
      ∧ next.valueAt (start + j + 1)
        = s.valueAt (start + j) + base ^ (start + j.val) * b[j.val].toNat := by
  obtain ⟨d, hsum, hd⟩ := Word.addWide_eq s.words[start + j.val] b[j.val] s.carry
  refine ⟨_, ?_, Carrying.valueAt_put (by omega) hd⟩
  rw [addTurn, hsum]
  rfl

/-- **Sums are exact**, and nothing on the way leaves two words. -/
theorem add_eq (b : Vector UInt64 k) (start : ℕ) (h : start + k ≤ n) (s : Carrying n) :
    ∃ next, add b start h s = .ok next
      ∧ next.valueAt (start + k) = s.valueAt start + base ^ start * value b := by
  refine foldlM_finRange_ok (addTurn b start h) s
    (fun j (next : Carrying n) => next.valueAt (start + j) = s.valueAt start + base ^ start * low b j)
    (by rw [low_zero, Nat.mul_zero]; rfl) ?_
  intro j state hstate
  obtain ⟨next, hturn, hnext⟩ := addTurn_eq b h state j
  refine ⟨next, hturn, ?_⟩
  rw [← Nat.add_assoc, hnext, hstate, low_succ b j.isLt, pow_add]
  ring

/-! ### Differences -/

/-- One turn of a difference: the words of a place are subtracted, with the borrow. -/
def subTurn (a b : Vector UInt64 n) (s : Carrying n) (i : Fin n) : Except Fault (Carrying n) := do
  let d ← Word.subWide a[i.val] b[i.val] s.carry
  return s.put i d i.isLt

/-- The difference in an array of zeros, and its borrow as a mask. -/
def sub (a b : Vector UInt64 n) : Except Fault (Carrying n) :=
  (List.finRange n).foldlM (subTurn a b) ⟨Vector.replicate n 0, 0⟩

variable {a b w : Vector UInt64 n}

/-- A turn takes the borrow of the words below to that of the words up to its own. -/
theorem subTurn_eq (i : Fin n) {borrow : Bool}
    (hlow : low w i + low b i = low a i + base ^ i.val * borrow.toNat) :
    ∃ (next : Vector UInt64 n) (last : Bool),
      subTurn a b ⟨w, Word.mask borrow⟩ i = .ok ⟨next, Word.mask last⟩
      ∧ low next (i + 1) + low b (i + 1) = low a (i + 1) + base ^ (i.val + 1) * last.toNat := by
  have hword := Word.subBorrow_value a[i.val] b[i.val] borrow
  refine ⟨w.set i (Word.subBorrow a[i.val] b[i.val] borrow).word,
    (Word.subBorrow a[i.val] b[i.val] borrow).bit, ?_, ?_⟩
  · rw [subTurn, Word.subWide_mask]
    rfl
  · rw [low_succ _ i.isLt, low_set_of_le _ i.isLt _ le_rfl, Vector.getElem_set_self,
      low_succ a i.isLt, low_succ b i.isLt, pow_succ]
    linear_combination hlow + base ^ i.val * hword

/-- The borrow of a whole difference says which of the numbers is below the other. -/
theorem borrow_eq_decide {borrow : Bool}
    (hvalue : value w + value b = value a + base ^ n * borrow.toNat) :
    borrow = decide (value a < value b) := by
  have hw := value_lt w
  have ha := value_lt a
  rw [Bool.eq_iff_iff, decide_eq_true_eq]
  cases borrow with
  | true =>
    rw [Bool.toNat_true] at hvalue
    simp only [true_iff]
    omega
  | false =>
    rw [Bool.toNat_false] at hvalue
    simp only [Bool.false_eq_true, false_iff]
    omega

/-- **Differences are exact** with their borrow, which comes out as a mask. -/
theorem sub_eq (a b : Vector UInt64 n) : ∃ w : Vector UInt64 n,
    sub a b = .ok ⟨w, Word.mask (decide (value a < value b))⟩
      ∧ value w + value b = value a + base ^ n * (decide (value a < value b)).toNat := by
  -- The array is filled from below, so only its low words count while the loop runs.
  obtain ⟨⟨w, _⟩, hloop, borrow, rfl, hvalue⟩ := foldlM_finRange_ok
    (subTurn a b) ⟨Vector.replicate n 0, 0⟩
    (fun i s => ∃ borrow : Bool, s.carry = Word.mask borrow
      ∧ low s.words i + low b i = low a i + base ^ i * borrow.toNat)
    ⟨false, rfl, rfl⟩
    (by
      rintro i ⟨w, _⟩ ⟨borrow, rfl, hlow⟩
      obtain ⟨next, last, hturn, hnext⟩ := subTurn_eq i hlow
      exact ⟨_, hturn, last, rfl, hnext⟩)
  have hborrow : borrow = decide (value a < value b) := borrow_eq_decide hvalue
  rw [hborrow] at hloop hvalue
  exact ⟨w, hloop, hvalue⟩

end Words

end CurveSign
