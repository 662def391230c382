import CurveSign.Proofs.Horner
import CurveSign.Recoding.NonAdjacent
import Mathlib.Data.List.Basic
import Mathlib.Tactic.LinearCombination

namespace CurveSign

/-!
# Sparse signed digits spell the scalar

The digits from a place on, with the carry left above them, spell the bits of the number from that
place on plus the carry into it (`digitSum_sparseFrom`).  A window is odd, since it starts at a bit
that differs from the carry, and it is lowered by 32 only if it has all five bits (`Window`).  The
topmost bit of the recoding is beyond the number, so no carry is left over
(`carry_sparseFrom_eq_false`).  The zeros behind a window keep the next one five places away
(`spaced_sparseFrom`).
-/

namespace Scalar

/-- What is known of the window of `width` bits at a place, with the carry into it. -/
structure Window (a : Word256) (carry : Bool) (place width window : ℕ) : Prop where
  odd : window % 2 = 1
  lt : window < 32
  lt_of_short : width < 5 → window < 16
  value : (a.toNat >>> place) + carry.toNat = window + 2 ^ width * (a.toNat >>> (place + width))

/-- A window that starts at a bit different from the carry. -/
theorem window_of_bit_ne {a : Word256} {carry : Bool} {place width : ℕ}
    (hbit : a.bit place ≠ carry) (hpos : 0 < width) (hle : width ≤ 5) :
    Window a carry place width (a.bits place width + carry.toNat) := by
  have hbits : a.bits place width = (a.toNat >>> place) % 2 ^ width := by
    rw [Word256.bits_eq, Nat.one_shiftLeft]
  have hsplit := Nat.mod_add_div (a.toNat >>> place) (2 ^ width)
  have hlt := Nat.mod_lt (a.toNat >>> place) (Nat.two_pow_pos width)
  have hshift : a.toNat >>> (place + width) = (a.toNat >>> place) / 2 ^ width := by
    rw [Nat.shiftRight_add, Nat.shiftRight_eq_div_pow _ width]
  -- The lowest bit of the window decides its parity.
  have hodd : (a.bits place width + carry.toNat) % 2 = 1 := by
    obtain ⟨k, rfl⟩ : ∃ k, width = k + 1 := ⟨width - 1, by omega⟩
    rw [Word256.bits]
    revert hbit
    cases a.bit place <;> cases carry <;> simp
  have hcarry := Word.bit_le_one carry
  have hpow : 2 ^ width ≤ 32 := Nat.pow_le_pow_right (by decide) hle
  refine ⟨hodd, ?_, ?_, ?_⟩
  · have heven : 2 ∣ 2 ^ width := dvd_pow_self 2 (by omega)
    omega
  · intro hshort
    have hpow' : 2 ^ width ≤ 16 := Nat.pow_le_pow_right (by decide) (show width ≤ 4 by omega)
    have heven : 2 ∣ 2 ^ width := dvd_pow_self 2 (by omega)
    omega
  · rw [hbits, hshift]
    omega

/-- A window is lowered by 32 exactly if it is 16 or more, and ends up odd and at most 15 in size. -/
theorem Window.digit_bounds {a : Word256} {carry : Bool} {place width window : ℕ}
    (h : Window a carry place width window) :
    (Int.ofNat window - 32 * Int.ofNat (decide (window / 16 % 2 = 1)).toNat) % 2 = 1 ∧
      -15 ≤ Int.ofNat window - 32 * Int.ofNat (decide (window / 16 % 2 = 1)).toNat ∧
      Int.ofNat window - 32 * Int.ofNat (decide (window / 16 % 2 = 1)).toNat ≤ 15 := by
  have hodd := h.odd
  have hlt := h.lt
  by_cases hup : window / 16 % 2 = 1 <;> simp [hup] <;> omega

/-- What a window is lowered by is one at the place above it. -/
theorem Window.lowered {a : Word256} {carry : Bool} {place width window : ℕ}
    (h : Window a carry place width window) (hle : width ≤ 5) :
    (2 : ℤ) ^ width * (decide (window / 16 % 2 = 1)).toNat
      = 32 * (decide (window / 16 % 2 = 1)).toNat := by
  rcases hle.lt_or_eq with hshort | rfl
  · have hlt := h.lt_of_short hshort
    have hup : ¬ window / 16 % 2 = 1 := by omega
    simp [hup]
  · norm_num

/-- The window that the recoding reads at a place: five bits, or what is left below the top. -/
theorem window_of_lt {a : Word256} {carry : Bool} {place : ℕ} (h : ¬ sparseLength ≤ place)
    (hbit : a.bit place ≠ carry) :
    Window a carry place (min 5 (sparseLength - place))
      (a.bits place (min 5 (sparseLength - place)) + carry.toNat) :=
  window_of_bit_ne hbit (by omega) (by omega)

/-! ### The recoding -/

/-- A digit is zero, or odd and at most 15 in size. -/
def IsSparseDigit (d : ℤ) : Prop := d = 0 ∨ d % 2 = 1 ∧ -15 ≤ d ∧ d ≤ 15

/-- One digit for each place. -/
theorem length_sparseFrom (a : Word256) (carry : Bool) (place : ℕ) :
    (sparseFrom a carry place).digits.length = sparseLength - place := by
  fun_induction sparseFrom a carry place with
  | case1 carry place h => simp only [List.length_nil]; omega
  | case2 place h rest ih =>
    simp only [List.length_cons, ih, rest]
    omega
  | case3 carry place h hbit width window up rest ih =>
    simp only [List.length_cons, List.length_append, List.length_replicate, ih, rest]
    have hwidth : width = min 5 (sparseLength - place) := rfl
    omega

/-- Every digit is zero, or odd and of four bits. -/
theorem isSparseDigit_of_mem_sparseFrom (a : Word256) (carry : Bool) (place : ℕ) :
    ∀ d ∈ (sparseFrom a carry place).digits, IsSparseDigit d := by
  fun_induction sparseFrom a carry place with
  | case1 carry place h => simp
  | case2 place h rest ih =>
    rw [List.forall_mem_cons]
    exact ⟨Or.inl rfl, ih⟩
  | case3 carry place h hbit width window up rest ih =>
    have hwindow : Window a carry place width window := window_of_lt h hbit
    -- A window is one digit and the zeros that keep it away from the next.
    rw [List.forall_mem_cons, List.forall_mem_append]
    refine ⟨Or.inr hwindow.digit_bounds, ?_, ih⟩
    intro d hd
    exact Or.inl (List.eq_of_mem_replicate hd)

/-- No bit stands at the place where the digits end. -/
theorem shiftRight_sparseLength (a : Word256) : a.toNat >>> sparseLength = 0 := by
  have hsize : Word256.size ≤ 2 ^ sparseLength :=
    Nat.pow_le_pow_right Nat.two_pos (show 256 ≤ sparseLength by decide)
  rw [Nat.shiftRight_eq_div_pow]
  exact Nat.div_eq_of_lt (a.toNat_lt.trans_le hsize)

/-- From a place on there is its bit, and then what is from the next place on. -/
theorem shiftRight_eq_bit_add (a : Word256) (place : ℕ) :
    a.toNat >>> place = (a.bit place).toNat + 2 * (a.toNat >>> (place + 1)) := by
  rw [Word256.bit_eq_testBit, Nat.toNat_testBit, Nat.shiftRight_succ, Nat.shiftRight_eq_div_pow,
    Nat.mod_add_div]

/-- **The digits spell the number** from a place on, with the carry into it and the carry left. -/
theorem digitSum_sparseFrom (a : Word256) (carry : Bool) (place : ℕ)
    (hplace : place ≤ sparseLength) :
    digitSum 2 (sparseFrom a carry place).digits
        + 2 ^ (sparseLength - place) * ((sparseFrom a carry place).carry.toNat : ℤ)
      = (a.toNat >>> place : ℕ) + carry.toNat := by
  fun_induction sparseFrom a carry place with
  | case1 carry place h =>
    obtain rfl : place = sparseLength := by omega
    simp [shiftRight_sparseLength]
  | case2 place h rest ih =>
    -- The bit and the carry are equal, so they add up to twice the carry.
    have hrest := ih (by omega)
    have hsub : sparseLength - place = sparseLength - (place + 1) + 1 := by omega
    rw [digitSum_cons, hsub, pow_succ, shiftRight_eq_bit_add, Nat.cast_add, Nat.cast_mul,
      Nat.cast_ofNat]
    linear_combination 2 * hrest
  | case3 carry place h hbit width window up rest ih =>
    have hwidth : width = min 5 (sparseLength - place) := rfl
    have hwindow : Window a carry place width window := window_of_lt h hbit
    have hrest := ih (by omega)
    have hlow := hwindow.lowered (by omega)
    have hvalue : ((a.toNat >>> place : ℕ) : ℤ) + carry.toNat
        = window + 2 ^ width * (a.toNat >>> (place + width) : ℕ) := by
      exact_mod_cast hwindow.value
    have hpow : (2 : ℤ) * 2 ^ (width - 1) = 2 ^ width := by
      rw [← pow_succ', show width - 1 + 1 = width by omega]
    have hsub : sparseLength - place = width + (sparseLength - (place + width)) := by omega
    -- What the digit is lowered by comes back as the carry into the rest.
    rw [digitSum_cons, digitSum_replicate_append, hsub, pow_add, hvalue]
    simp only [Int.ofNat_eq_natCast, rest]
    linear_combination 2 ^ width * hrest
      + hpow * digitSum 2 (sparseFrom a up (place + width)).digits + hlow

/-- A window that ends above the number's last bit passes no carry on. -/
theorem Window.not_lowered_of_last {a : Word256} {carry : Bool} {place width window : ℕ}
    (h : Window a carry place width window) (hle : width ≤ 5) (hlast : place + width = sparseLength)
    (hpos : 0 < width) : ¬ window / 16 % 2 = 1 := by
  rcases hle.lt_or_eq with hshort | rfl
  · have hlt := h.lt_of_short hshort
    omega
  · have hvalue := h.value
    rw [hlast, shiftRight_sparseLength] at hvalue
    -- Four bits are left at place 252.
    have hbits : a.toNat >>> place < 16 := by
      obtain rfl : place = 252 := by
        rw [sparseLength] at hlast
        omega
      rw [Nat.shiftRight_eq_div_pow]
      refine Nat.div_lt_of_lt_mul (a.toNat_lt.trans_eq ?_)
      decide
    have hodd := h.odd
    have hcarry := Word.bit_le_one carry
    omega

/-- No carry is left over if none goes in above the number. -/
theorem carry_sparseFrom_eq_false (a : Word256) (carry : Bool) (place : ℕ)
    (hplace : place ≤ sparseLength) (htop : place = sparseLength → carry = false) :
    (sparseFrom a carry place).carry = false := by
  fun_induction sparseFrom a carry place with
  | case1 carry place h => exact htop (by omega)
  | case2 place h rest ih =>
    refine ih (by omega) ?_
    intro hlast
    -- The carry equals bit 256, which no number of four words has.
    obtain rfl : place = 256 := by
      rw [sparseLength] at hlast
      omega
    rw [Word256.bit_eq_testBit]
    exact Nat.testBit_lt_two_pow a.toNat_lt
  | case3 carry place h hbit width window up rest ih =>
    have hwidth : width = min 5 (sparseLength - place) := rfl
    have hwindow : Window a carry place width window := window_of_lt h hbit
    refine ih (by omega) ?_
    intro hlast
    exact decide_eq_false (hwindow.not_lowered_of_last (by omega) hlast (by omega))

/-! ### The distance between digits -/

/-- Any two digits other than zero are at least `gap` places apart. -/
def Spaced (gap : ℕ) (ds : List ℤ) : Prop :=
  ∀ i j, i < j → ds.getD i 0 ≠ 0 → ds.getD j 0 ≠ 0 → i + gap ≤ j

theorem spaced_nil (gap : ℕ) : Spaced gap [] := fun _ _ _ hi => absurd rfl hi

/-- A digit may stand in front of zeros. -/
theorem Spaced.cons {gap : ℕ} {ds : List ℤ} {d : ℤ} (h : Spaced gap ds)
    (hzeros : d = 0 ∨ ∀ j, j + 1 < gap → ds.getD j 0 = 0) : Spaced gap (d :: ds) := by
  -- Only a pair with the new digit in front is not a pair of the old list.
  rintro (_ | i) (_ | j) hlt hi hj
  · exact absurd hlt (Nat.lt_irrefl 0)
  · rw [List.getD_cons_zero] at hi
    rw [List.getD_cons_succ] at hj
    have hfar := mt (hzeros.resolve_left hi j) hj
    omega
  · exact absurd hlt (Nat.not_lt_zero _)
  · rw [List.getD_cons_succ] at hi hj
    have hle := h i j (Nat.lt_of_succ_lt_succ hlt) hi hj
    omega

/-- Zeros in front keep the digits apart. -/
theorem Spaced.replicate_append {gap : ℕ} {ds : List ℤ} (h : Spaced gap ds) (count : ℕ) :
    Spaced gap (List.replicate count 0 ++ ds) := by
  induction count with
  | zero => exact h
  | succ count ih => exact ih.cons (Or.inl rfl)

theorem getD_replicate_append {count j : ℕ} (h : j < count) (ds : List ℤ) :
    (List.replicate count 0 ++ ds).getD j 0 = 0 := by
  rw [List.getD_append _ _ _ _ (by rwa [List.length_replicate]), List.getD_replicate _ h]

/-- **Digits other than zero are five places apart**, also where the last window is shorter. -/
theorem spaced_sparseFrom (a : Word256) (carry : Bool) (place : ℕ) :
    Spaced 5 (sparseFrom a carry place).digits := by
  fun_induction sparseFrom a carry place with
  | case1 carry place h => exact spaced_nil 5
  | case2 place h rest ih => exact ih.cons (Or.inl rfl)
  | case3 carry place h hbit width window up rest ih =>
    have hwidth : width = min 5 (sparseLength - place) := rfl
    refine (ih.replicate_append (width - 1)).cons (Or.inr fun j hj => ?_)
    rcases Nat.lt_or_ge j (width - 1) with hzero | hbeyond
    · exact getD_replicate_append hzero _
    · -- A window of fewer than five bits is the last one.
      have hlast : rest.digits.length = 0 := by
        rw [show rest = sparseFrom a up (place + width) from rfl, length_sparseFrom]
        omega
      rw [List.length_eq_zero_iff.1 hlast, List.append_nil, List.getD_eq_default _ _ ?_]
      rwa [List.length_replicate]

/-! ### The digits of a scalar -/

/-- The 257 digits spell the scalar. -/
theorem digitSum_sparseDigits (s : Scalar) : digitSum 2 s.sparseDigits = s.toNat := by
  have hsum := digitSum_sparseFrom s.word false 0 (Nat.zero_le _)
  have hcarry := carry_sparseFrom_eq_false s.word false 0 (Nat.zero_le _) (fun _ => rfl)
  rw [hcarry] at hsum
  simpa [sparseDigits, Residue.toNat] using hsum

theorem length_sparseDigits (s : Scalar) : s.sparseDigits.length = sparseLength :=
  length_sparseFrom s.word false 0

theorem isSparseDigit_of_mem (s : Scalar) : ∀ d ∈ s.sparseDigits, IsSparseDigit d :=
  isSparseDigit_of_mem_sparseFrom s.word false 0

theorem spaced_sparseDigits (s : Scalar) : Spaced 5 s.sparseDigits :=
  spaced_sparseFrom s.word false 0

end Scalar

end CurveSign
