import CurveSign.Proofs.Recoding.NonAdjacent
import CurveSign.Proofs.Recoding.Radix16
import CurveSign.Proofs.Rejection

namespace CurveSign

/-!
# Recoding in place

The digits of a scalar are written into a list of fixed length, by loops that could leave the list or a
signed byte.  With a fault wherever an index or a digit is out of range, the loop over the windows is a
relation between the state that it starts in and what it ends with (`SparseState.Ends`), and it ends with
the sparse digits, at the top and without a carry (`SparseState.ends_start_iff`).  The loop over the halves
of the bytes, which moves each into `[-8, 8)` and the carry into the next, ends with the digits of base 16
(`radix16InPlace_eq`).
-/

namespace Scalar

/-! ### Digits in a list -/

/-- A number that a signed byte must hold. -/
def signedByte (x : ℤ) : Except Fault ℤ :=
  if -128 ≤ x ∧ x < 128 then .ok x else .error .overflow

/-- The digit at an index, which must be inside the list. -/
def digitAt (digits : List ℤ) (index : ℕ) : Except Fault ℤ :=
  match digits[index]? with
  | some d => .ok d
  | none => .error .outOfRange

/-- Puts a digit at an index, which must be inside the list. -/
def setDigit (digits : List ℤ) (index : ℕ) (digit : ℤ) : Except Fault (List ℤ) :=
  if index < digits.length then .ok (digits.set index digit) else .error .outOfRange

theorem signedByte_eq_ok {x : ℤ} (h : -128 ≤ x ∧ x < 128) : signedByte x = .ok x := if_pos h

/-- The digit behind a front is the first of the rest. -/
theorem digitAt_append (front : List ℤ) (d : ℤ) (rest : List ℤ) :
    digitAt (front ++ d :: rest) front.length = .ok d := by
  rw [digitAt, List.getElem?_append_right le_rfl, Nat.sub_self]
  rfl

/-- The digit one place further is the second of the rest. -/
theorem digitAt_append_succ (front : List ℤ) (d e : ℤ) (rest : List ℤ) :
    digitAt (front ++ d :: e :: rest) (front.length + 1) = .ok e := by
  have h := digitAt_append (front ++ [d]) e rest
  rwa [List.length_append, List.append_assoc] at h

/-- Writing the place behind a front replaces the first digit of the rest. -/
theorem setDigit_append (front : List ℤ) (d d' : ℤ) (rest : List ℤ) :
    setDigit (front ++ d :: rest) front.length d' = .ok (front ++ d' :: rest) := by
  have hinside : front.length < (front ++ d :: rest).length := by
    rw [List.length_append, List.length_cons]
    omega
  rw [setDigit, if_pos hinside, List.set_append_right _ _ le_rfl, Nat.sub_self, List.set_cons_zero]

/-- Writing one place further replaces the second. -/
theorem setDigit_append_succ (front : List ℤ) (d e e' : ℤ) (rest : List ℤ) :
    setDigit (front ++ d :: e :: rest) (front.length + 1) e' = .ok (front ++ d :: e' :: rest) := by
  have h := setDigit_append (front ++ [d]) e e' rest
  rwa [List.length_append, List.append_assoc, List.append_assoc] at h

/-! ### The loop over the windows -/

/-- The digits written so far, the place that is next, and the carry into it. -/
structure SparseState where
  digits : List ℤ
  place : ℕ
  carry : ℕ

namespace SparseState

/-- No digit is written yet. -/
def start : SparseState := ⟨List.replicate sparseLength 0, 0, 0⟩

/-- One turn: a bit that equals the carry is passed over, and at any other a window is read, whose highest
    bit is the carry out of it. -/
def turn (a : Word256) (state : SparseState) : Except Fault SparseState :=
  if a.bits state.place 1 = state.carry then .ok { state with place := state.place + 1 }
  else do
    let width := min 5 (sparseLength - state.place)
    let window := a.bits state.place width + state.carry
    let up := window / 16 % 2
    let digit ← signedByte (Int.ofNat window - 32 * Int.ofNat up)
    let digits ← setDigit state.digits state.place digit
    return ⟨digits, state.place + width, up⟩

/-- What the loop ends with: turns are made until the place is above the digits, or one of them fails. -/
inductive Ends (a : Word256) : SparseState → Except Fault SparseState → Prop
  | stop {state : SparseState} (h : sparseLength ≤ state.place) : Ends a state (.ok state)
  | fault {state : SparseState} {e : Fault} (h : state.place < sparseLength)
      (hturn : state.turn a = .error e) : Ends a state (.error e)
  | turn {state next : SparseState} {outcome : Except Fault SparseState}
      (h : state.place < sparseLength) (hturn : state.turn a = .ok next) (hrest : Ends a next outcome) :
      Ends a state outcome

variable {a : Word256} {state : SparseState} {place : ℕ} {carry : Bool} {digits : List ℤ}

/-- The loop ends with one outcome at most. -/
theorem Ends.unique {outcome outcome' : Except Fault SparseState} (h : Ends a state outcome)
    (h' : Ends a state outcome') : outcome = outcome' := by
  -- The place decides between stopping and a turn, and the turn's outcome how it goes on.
  induction h with
  | stop hplace =>
    cases h' with
    | stop => rfl
    | fault hlt | turn hlt => exact absurd hplace hlt.not_ge
  | fault hlt hturn =>
    cases h' with
    | stop hplace => exact absurd hplace hlt.not_ge
    | fault _ hturn' => rw [← Except.error.inj (hturn.symm.trans hturn')]
    | turn _ hturn' => exact nomatch hturn.symm.trans hturn'
  | turn hlt hturn _ ih =>
    cases h' with
    | stop hplace => exact absurd hplace hlt.not_ge
    | fault _ hturn' => exact nomatch hturn.symm.trans hturn'
    | turn _ hturn' hrest =>
      rw [← Except.ok.inj (hturn.symm.trans hturn')] at hrest
      exact ih hrest

/-! ### Turns -/

theorem bits_one (a : Word256) (place : ℕ) : a.bits place 1 = (a.bit place).toNat := rfl

theorem toNat_decide_mod_two (n : ℕ) : (decide (n % 2 = 1)).toNat = n % 2 := by
  rcases Nat.mod_two_eq_zero_or_one n with h | h <;> rw [h] <;> rfl

/-- A bit that agrees with the carry leaves a zero and the carry. -/
theorem turn_of_bit_eq (h : a.bit place = carry) :
    turn a ⟨digits, place, carry.toNat⟩ = .ok ⟨digits, place + 1, carry.toNat⟩ :=
  if_pos (congrArg Bool.toNat h)

/-- A window gives a digit that a signed byte holds, and the carry that the recoding passes on. -/
theorem turn_of_bit_ne {width window : ℕ} (h : ¬ sparseLength ≤ place) (hbit : a.bit place ≠ carry)
    (hlength : digits.length = sparseLength) (hwidth : width = min 5 (sparseLength - place))
    (hwindow : window = a.bits place width + carry.toNat) :
    turn a ⟨digits, place, carry.toNat⟩ = .ok
      ⟨digits.set place (Int.ofNat window - 32 * Int.ofNat (decide (window / 16 % 2 = 1)).toNat),
        place + width, (decide (window / 16 % 2 = 1)).toNat⟩ := by
  have hne : a.bits place 1 ≠ carry.toNat := by
    rw [bits_one]
    revert hbit
    cases a.bit place <;> cases carry <;> simp
  -- The digit is bounded by the window, which is what a signed byte and the index need.
  have hbounds := (window_of_lt h hbit).digit_bounds
  rw [← hwidth, ← hwindow, toNat_decide_mod_two] at hbounds
  have hfits : signedByte (Int.ofNat window - 32 * Int.ofNat (window / 16 % 2))
      = .ok (Int.ofNat window - 32 * Int.ofNat (window / 16 % 2)) :=
    signedByte_eq_ok (by omega)
  have hinside : setDigit digits place (Int.ofNat window - 32 * Int.ofNat (window / 16 % 2))
      = .ok (digits.set place (Int.ofNat window - 32 * Int.ofNat (window / 16 % 2))) :=
    if_pos (by omega)
  rw [turn, if_neg hne]
  simp only [← hwidth, ← hwindow, toNat_decide_mod_two]
  rw [hfits, ok_bind, hinside]
  rfl

/-! ### The loop -/

/-- A list of zeros behind the digits written so far takes the next ones. -/
theorem set_append_replicate (front : List ℤ) (d : ℤ) (count rest : ℕ) :
    (front ++ List.replicate (count + 1 + rest) 0).set front.length d
      = front ++ (d :: List.replicate count 0 ++ List.replicate rest 0) := by
  rw [List.set_append_right _ _ le_rfl, Nat.sub_self, Nat.add_right_comm, List.replicate_succ,
    List.set_cons_zero, List.replicate_add, List.cons_append]

/-- **From any place on** the loop writes the digits of the recoding behind those that are there. -/
theorem ends_sparseFrom (a : Word256) (carry : Bool) (place : ℕ) (hplace : place ≤ sparseLength) :
    ∀ front : List ℤ, front.length = place →
      Ends a ⟨front ++ List.replicate (sparseLength - place) 0, place, carry.toNat⟩
        (.ok ⟨front ++ (sparseFrom a carry place).digits, sparseLength,
          (sparseFrom a carry place).carry.toNat⟩) := by
  fun_induction sparseFrom a carry place with
  | case1 carry place h =>
    intro front hfront
    obtain rfl : place = sparseLength := by omega
    rw [Nat.sub_self]
    exact .stop le_rfl
  | case2 place h rest ih =>
    intro front hfront
    have hrest := ih (by omega) (front ++ [0]) (by rw [List.length_append, hfront]; rfl)
    have hzeros : sparseLength - place = 1 + (sparseLength - (place + 1)) := by omega
    refine .turn (Nat.lt_of_not_le h) (turn_of_bit_eq rfl) ?_
    rw [List.append_assoc, List.append_assoc] at hrest
    rw [hzeros, List.replicate_add]
    exact hrest
  | case3 carry place h hbit width window up rest ih =>
    intro front hfront
    have hwidth : width = min 5 (sparseLength - place) := rfl
    have hwindow : window = a.bits place width + carry.toNat := rfl
    have hlength : (front ++ List.replicate (sparseLength - place) (0 : ℤ)).length = sparseLength := by
      rw [List.length_append, List.length_replicate, hfront]
      omega
    have hturn := turn_of_bit_ne h hbit hlength hwidth hwindow
    -- The zeros that keep a window away from the next stand there already.
    have hzeros : sparseLength - place = width - 1 + 1 + (sparseLength - (place + width)) := by omega
    rw [hzeros, ← hfront, set_append_replicate, hfront] at hturn
    have hrest := ih (by omega)
      (front ++ (Int.ofNat window - 32 * Int.ofNat up.toNat) :: List.replicate (width - 1) 0)
      (by rw [List.length_append, List.length_cons, List.length_replicate, hfront]; omega)
    rw [List.append_assoc, List.append_assoc] at hrest
    rw [hzeros]
    exact .turn (Nat.lt_of_not_le h) hturn hrest

/-- **The loop ends**, with the sparse digits, at the top and without a carry, and in no other way. -/
theorem ends_start_iff (s : Scalar) (outcome : Except Fault SparseState) :
    Ends s.word start outcome ↔ outcome = .ok ⟨s.sparseDigits, sparseLength, 0⟩ := by
  have hends := ends_sparseFrom s.word false 0 (Nat.zero_le _) [] rfl
  rw [carry_sparseFrom_eq_false s.word false 0 (Nat.zero_le _) (fun _ => rfl)] at hends
  refine ⟨fun h => h.unique hends, ?_⟩
  rintro rfl
  exact hends

end SparseState

/-! ### The halves of the bytes -/

/-- The two hexadecimal digits of a byte, the low one first. -/
def byteDigits (b : UInt8) : List ℤ := [(b &&& 0xf).toNat, ((b >>> 4) &&& 0xf).toNat]

/-- The hexadecimal digits of a byte string, from its end on. -/
def digitsOfBytes (bytes : List UInt8) : List ℤ := bytes.reverse.flatMap byteDigits

/-- A byte has two digits, the lower one first. -/
theorem byteDigits_ofNat (n : ℕ) :
    byteDigits (UInt8.ofNat n) = [Int.ofNat (n % 16), Int.ofNat (n / 16 % 16)] := by
  have hmask (k : ℕ) : k &&& 15 = k % 16 := Nat.and_two_pow_sub_one_eq_mod k 4
  have hlow : (UInt8.ofNat n &&& 0xf).toNat = n % 16 := by
    rw [UInt8.toNat_and, UInt8.toNat_ofNat']
    exact (hmask _).trans (by omega)
  have hhigh : ((UInt8.ofNat n >>> 4) &&& 0xf).toNat = n / 16 % 16 := by
    rw [UInt8.toNat_and, UInt8.toNat_shiftRight, UInt8.toNat_ofNat', Nat.shiftRight_eq_div_pow]
    exact (hmask _).trans (by show _ / 2 ^ 4 % 16 = _; omega)
  rw [byteDigits, hlow, hhigh]
  rfl

/-- The bytes of a number have its hexadecimal digits. -/
theorem digitsOfBytes_encode (width n : ℕ) :
    digitsOfBytes (BigEndian.encode width n)
      = (List.range (2 * width)).map fun i => Int.ofNat ((n >>> (4 * i)) % 16) := by
  induction width generalizing n with
  | zero => rfl
  | succ width ih =>
    -- The last byte has the two lowest digits, and the others those of `n / 256`.
    have hshift (i : ℕ) : n >>> (4 * (i + 1 + 1)) = (n / 256) >>> (4 * i) := by
      rw [show 4 * (i + 1 + 1) = 8 + 4 * i by omega, Nat.shiftRight_add,
        Nat.shiftRight_eq_div_pow n 8]
    have hlast : digitsOfBytes (BigEndian.encode (width + 1) n)
        = byteDigits (UInt8.ofNat n) ++ digitsOfBytes (BigEndian.encode width (n / 256)) := by
      rw [BigEndian.encode, digitsOfBytes, List.reverse_append, List.reverse_singleton,
        List.flatMap_append, List.flatMap_singleton]
      rfl
    have hsecond : n >>> (4 * (0 + 1)) = n / 16 := Nat.shiftRight_eq_div_pow n 4
    rw [hlast, byteDigits_ofNat, ih, Nat.mul_succ, List.range_succ_eq_map, List.range_succ_eq_map]
    simp only [List.map_cons, List.map_map, Function.comp_def, Nat.succ_eq_add_one, hshift, hsecond]
    rfl

/-- Read from the last byte on, the bytes of a scalar are its digits. -/
theorem digitsOfBytes_toBytes (s : Scalar) : digitsOfBytes s.toBytes = s.hexDigits := by
  show digitsOfBytes (BigEndian.encode 32 s.toNat) = _
  rw [digitsOfBytes_encode, hexDigits]
  simp only [Word256.bits_eq]
  rfl

/-! ### The loop over the halves -/

/-- One turn: the digit at an index gives up the multiple of 16 next to it, which is the carry that the
    next digit takes. -/
def recentreAt (digits : List ℤ) (index : ℕ) : Except Fault (List ℤ) := do
  let raised ← signedByte ((← digitAt digits index) + 8)
  let carry := raised / 16
  let lowering ← signedByte (16 * carry)
  let lowered ← signedByte ((← digitAt digits index) - lowering)
  let digits ← setDigit digits index lowered
  let next ← signedByte ((← digitAt digits (index + 1)) + carry)
  setDigit digits (index + 1) next

/-- The signed digits of base 16, from the halves of the bytes and a last digit for the carry. -/
def radix16InPlace (s : Scalar) : Except Fault (List ℤ) :=
  (List.range 64).foldlM recentreAt (digitsOfBytes s.toBytes ++ [0])

/-- A turn changes the digit at the index and the next one, and every number on the way fits. -/
theorem recentreAt_append (front : List ℤ) {d e : ℤ} (rest : List ℤ) (hd : 0 ≤ d ∧ d ≤ 16)
    (he : 0 ≤ e ∧ e < 16) :
    recentreAt (front ++ d :: e :: rest) front.length
      = .ok (front ++ (d - 16 * ((d + 8) / 16)) :: (e + (d + 8) / 16) :: rest) := by
  rw [recentreAt, digitAt_append, ok_bind, signedByte_eq_ok (by omega), ok_bind]
  simp only [ok_bind]
  rw [signedByte_eq_ok (by omega), ok_bind, signedByte_eq_ok (by omega), ok_bind, setDigit_append,
    ok_bind, digitAt_append_succ, ok_bind, signedByte_eq_ok (by omega), ok_bind, setDigit_append_succ]

/-- **From any digit on** the loop writes the recentred digits behind those that are there. -/
theorem foldlM_recentreAt (front ds : List ℤ) {carry : ℤ} (hcarry : carry = 0 ∨ carry = 1)
    (hds : ∀ d ∈ ds, 0 ≤ d ∧ d < 16) :
    (List.range' front.length ds.length).foldlM recentreAt
        (front ++ (ds ++ [0]).modifyHead (· + carry))
      = .ok (front ++ recentre carry ds) := by
  induction ds generalizing front carry with
  | nil =>
    show Except.ok (front ++ [0 + carry]) = Except.ok (front ++ [carry])
    rw [Int.zero_add]
  | cons d ds ih =>
    rw [List.forall_mem_cons] at hds
    -- The next digit is a hexadecimal digit or the last one, which is zero so far.
    obtain ⟨e, rest, hrest⟩ : ∃ e rest, ds ++ [0] = e :: rest := List.exists_cons_of_ne_nil (by simp)
    have he : 0 ≤ e ∧ e < 16 := by
      have hmem : e ∈ ds ++ [0] := hrest ▸ List.mem_cons_self
      rw [List.mem_append, List.mem_singleton] at hmem
      rcases hmem with hmem | rfl
      · exact hds.2 e hmem
      · decide
    have hup : (d + carry + 8) / 16 = 0 ∨ (d + carry + 8) / 16 = 1 := by omega
    have hturn := recentreAt_append front (d := d + carry) rest (by omega) he
    have hloop := ih (front ++ [d + carry - 16 * ((d + carry + 8) / 16)]) hup hds.2
    rw [hrest, List.length_append, List.append_assoc, List.append_assoc] at hloop
    rw [List.length_cons, List.range'_succ, List.foldlM_cons, List.cons_append, hrest, recentre]
    show recentreAt (front ++ (d + carry) :: e :: rest) front.length >>= _ = _
    rw [hturn, ok_bind]
    exact hloop

/-- **The loop ends**, with the digits of base 16, and no number on the way leaves a signed byte. -/
theorem radix16InPlace_eq (s : Scalar) : s.radix16InPlace = .ok s.radix16 := by
  have hloop := foldlM_recentreAt [] s.hexDigits (.inl rfl) s.mem_hexDigits_bounds
  have hstart : (s.hexDigits ++ [0]).modifyHead (· + 0) = s.hexDigits ++ [0] := by
    cases s.hexDigits <;> simp
  rw [length_hexDigits, hstart] at hloop
  rw [radix16InPlace, digitsOfBytes_toBytes, List.range_eq_range']
  exact hloop

end Scalar

end CurveSign
