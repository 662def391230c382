import Mathlib.Algebra.BigOperators.Intervals
import Mathlib.Algebra.BigOperators.Ring.Finset
import Mathlib.Algebra.Order.Ring.Int
import Mathlib.Data.Nat.Bitwise
import Mathlib.Tactic.Ring

namespace CurveSign

/-!
# Horner's rule

Powers and multiples are computed from the most significant digit down: raise what stands for the
digits read so far to the base, then account for the next digit.

* `foldr_range_testBit_from` — a loop over the bits of a number, for any relation between numbers and
  values that each step keeps, from a value that stands for the bits above;
* `foldrM_eq_some` — a loop whose steps may stop it, over digits that do not;
* `digitSum` — the number that a list of signed digits spells, which is the sum of the digits at their
  places (`digitSum_eq_sum`), and does not change with zeros at the top (`digitSum_append_replicate`).
-/

/-- **Bits from the top.**  If a step takes a value that stands for `n` to one that stands for
    `2n + bit`, then the loop over `width` bits puts them behind the number that it starts from. -/
theorem foldr_range_testBit_from {α : Type} (stands : ℕ → α → Prop) (step : Bool → α → α)
    (hstep : ∀ (n : ℕ) (bit : Bool) (a : α), stands n a → stands (2 * n + bit.toNat) (step bit a))
    {above : ℕ} {start : α} (hstart : stands above start) {width n : ℕ} (hn : n < 2 ^ width) :
    stands (n + 2 ^ width * above)
      ((List.range width).foldr (fun i a => step (n.testBit i) a) start) := by
  -- The bits above the lowest one are those of `n / 2`, so the induction runs over all `n`.
  induction width generalizing n with
  | zero =>
    obtain rfl : n = 0 := by simpa using hn
    simpa using hstart
  | succ width ih =>
    rw [pow_succ] at hn
    have hrest := ih (n := n / 2) (by omega)
    have hbit : 2 * (n / 2 + 2 ^ width * above) + (n.testBit 0).toNat
        = n + 2 ^ (width + 1) * above := by
      rw [Nat.testBit_zero, pow_succ, Nat.mul_right_comm]
      rcases Nat.mod_two_eq_zero_or_one n with h | h <;> simp [h] <;> omega
    rw [List.range_succ_eq_map, List.foldr_cons, List.foldr_map]
    simp only [Nat.succ_eq_add_one, Nat.testBit_succ]
    have h := hstep _ (n.testBit 0) _ hrest
    rwa [hbit] at h

/-- All the bits of a number are read behind nothing. -/
theorem foldr_range_testBit {α : Type} (stands : ℕ → α → Prop) (step : Bool → α → α) {start : α}
    (hstart : stands 0 start)
    (hstep : ∀ (n : ℕ) (bit : Bool) (a : α), stands n a → stands (2 * n + bit.toNat) (step bit a))
    {width n : ℕ} (hn : n < 2 ^ width) :
    stands n ((List.range width).foldr (fun i a => step (n.testBit i) a) start) := by
  have h := foldr_range_testBit_from stands step hstep hstart hn
  rwa [Nat.mul_zero, Nat.add_zero] at h

/-- **Runs that no digit stops** are those without a test, from any start. -/
theorem foldrM_eq_some {α β : Type} {step? : α → β → Option β} {step : α → β → β} {digits : List α}
    (hstep : ∀ d ∈ digits, ∀ b, step? d b = some (step d b)) (start : β) :
    digits.foldrM step? start = some (digits.foldr step start) := by
  induction digits with
  | nil => rfl
  | cons d ds ih =>
    rw [List.forall_mem_cons] at hstep
    rw [List.foldrM_cons, ih hstep.2, List.foldr_cons]
    exact hstep.1 _

/-- The number that signed digits spell in a base, the least significant digit first. -/
def digitSum (base : ℤ) : List ℤ → ℤ
  | [] => 0
  | d :: ds => d + base * digitSum base ds

@[simp] theorem digitSum_nil (base : ℤ) : digitSum base [] = 0 := rfl

@[simp] theorem digitSum_cons (base d : ℤ) (ds : List ℤ) :
    digitSum base (d :: ds) = d + base * digitSum base ds := rfl

/-- Digits behind others count from the place that they start at. -/
theorem digitSum_append (base : ℤ) (ds ds' : List ℤ) :
    digitSum base (ds ++ ds') = digitSum base ds + base ^ ds.length * digitSum base ds' := by
  induction ds with
  | nil => simp
  | cons d ds ih =>
    rw [List.cons_append, digitSum_cons, digitSum_cons, ih, List.length_cons, pow_succ]
    ring

/-- Zeros spell zero. -/
theorem digitSum_replicate_zero (base : ℤ) (count : ℕ) :
    digitSum base (List.replicate count 0) = 0 := by
  induction count with
  | zero => rfl
  | succ count ih => rw [List.replicate_succ, digitSum_cons, ih, mul_zero, add_zero]

/-- Zero digits in front shift the number up. -/
theorem digitSum_replicate_append (base : ℤ) (count : ℕ) (ds : List ℤ) :
    digitSum base (List.replicate count 0 ++ ds) = base ^ count * digitSum base ds := by
  rw [digitSum_append, digitSum_replicate_zero, zero_add, List.length_replicate]

/-- Zero digits at the end leave the number as it is. -/
theorem digitSum_append_replicate (base : ℤ) (count : ℕ) (ds : List ℤ) :
    digitSum base (ds ++ List.replicate count 0) = digitSum base ds := by
  rw [digitSum_append, digitSum_replicate_zero, mul_zero, add_zero]

/-- Each digit counts with the power of the base for its place. -/
theorem digitSum_eq_sum (base : ℤ) (ds : List ℤ) :
    digitSum base ds = ∑ i ∈ Finset.range ds.length, ds.getD i 0 * base ^ i := by
  induction ds with
  | nil => rfl
  | cons d ds ih =>
    rw [digitSum_cons, ih, List.length_cons, Finset.sum_range_succ', pow_zero, mul_one, Finset.mul_sum,
      add_comm]
    congr 1
    refine Finset.sum_congr rfl fun i _ => ?_
    rw [List.getD_cons_succ, pow_succ]
    ring

end CurveSign
