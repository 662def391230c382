import CurveSign.Proofs.Der.DefiniteForm
import CurveSign.Proofs.Der.Integer

namespace CurveSign

/-!
# Forms of an integer

An integer has one form: the tag, the shortest definite form of a length, and the shortest content of so
many bytes (`Der.IsIntegerForm`).  A reader accepts the form of every integer and nothing else, and takes
the integer for zero if it is no scalar (`Der.Read.integer_exact`).
-/

namespace Der

/-- The bytes are the tag of an integer, the shortest definite form of the length of a content, and the
    content, which is the shortest one of the integer. -/
def IsIntegerForm (form : List UInt8) (value : ℤ) : Prop :=
  ∃ octets content, IsLengthOf octets content.length ∧ IsContentOf content value
    ∧ form = integerTag :: (octets ++ content)

variable {content rest form : List UInt8} {value : ℤ}

/-- The form of an integer is an element with a minimal content. -/
theorem isIntegerForm_iff : IsIntegerForm form value ↔ ∃ content, content.length < 256 ^ 126
    ∧ IsMinimal content ∧ twosComplement content = value ∧ form = element integerTag content := by
  simp only [IsIntegerForm, isLengthOf_iff, isContentOf_iff, element]
  constructor
  · rintro ⟨_, content, ⟨rfl, hsmall⟩, ⟨hminimal, hvalue⟩, rfl⟩
    exact ⟨content, hsmall, hminimal, hvalue, rfl⟩
  · rintro ⟨content, hsmall, hminimal, hvalue, rfl⟩
    exact ⟨_, content, ⟨rfl, hsmall⟩, ⟨hminimal, hvalue⟩, rfl⟩

/-! ### Scalars of integers -/

variable {s : Scalar}

/-- A number in range is its own scalar part. -/
theorem toNat_eq_of_scalarPart (hs : (s.toNat : ℤ) = scalarPart value) (hnonneg : 0 ≤ value)
    (hlt : value < Modulus.order.toNat) : (s.toNat : ℤ) = value := by
  rw [hs, scalarPart, if_pos ⟨hnonneg, hlt⟩]

/-- Negative integers, those of more than 32 bytes, and those from the order to `2 ^ 256` are no
    scalars. -/
theorem eq_zero_of_scalarPart (hs : (s.toNat : ℤ) = scalarPart value)
    (hvalue : value < 0 ∨ 2 ^ 256 ≤ value ∨ Modulus.order.toNat ≤ value ∧ value < 2 ^ 256) : s = 0 := by
  have hword : Modulus.order.toNat < 2 ^ 256 := Modulus.order.word.toNat_lt
  have hout : ¬ (0 ≤ value ∧ value < Modulus.order.toNat) := by omega
  rw [scalarPart, if_neg hout] at hs
  exact Residue.toNat_inj.1 (Int.natCast_inj.1 hs)

namespace Read

variable {r r' : Reader}

/-- In front of the form of an integer its scalar is read, and the form is passed over. -/
theorem run_integer_of_isIntegerForm (h : r.Sound) (hform : IsIntegerForm form value)
    (hunread : r.unread = form ++ rest) :
    ∃ s r', integer.run r = .ok s r' ∧ r.Passes form rest r' ∧ (s.toNat : ℤ) = scalarPart value := by
  obtain ⟨content, -, hminimal, rfl, rfl⟩ := isIntegerForm_iff.1 hform
  obtain ⟨s, hs⟩ := exists_toNat_eq_scalarPart (twosComplement content)
  refine ⟨s, _, (run_integer_eq_ok_iff h).2 ⟨content, rest, hunread, hminimal, hs, rfl⟩, ?_, hs⟩
  exact Reader.passes_iff.2 ⟨hunread, rfl⟩

/-- An integer that is read stands there in its form. -/
theorem isIntegerForm_of_run_integer (h : r.Sound) {s : Scalar} (hrun : integer.run r = .ok s r') :
    ∃ form value rest, IsIntegerForm form value ∧ r.unread = form ++ rest := by
  obtain ⟨content, rest, hunread, hminimal, -⟩ := (run_integer_eq_ok_iff h).1 hrun
  have hsmall : content.length < 2 ^ 56 := by
    have hsize := h.length_lt
    have hcount := congrArg List.length hunread
    rw [Reader.length_unread, element, List.length_append, List.length_cons, List.length_append] at hcount
    omega
  refine ⟨_, twosComplement content, rest, isIntegerForm_iff.2 ?_, hunread⟩
  exact ⟨content, hsmall.trans_le (by norm_num), hminimal, rfl, rfl⟩

/-- **Integers.** An integer is read exactly from its form, whatever follows, and the bytes behind the
    form stay unread.  It is returned if it is a scalar; in place of a negative one, of one of more than 32
    bytes, and of one from the order to `2 ^ 256`, zero is returned.  A content is the shortest one of its
    integer exactly if it is not empty and starts neither with 00 before a byte below 128 nor with FF
    before one from 128 on. -/
theorem integer_exact (r : Reader) (h : r.Sound) :
    ((∃ s r', integer.run r = .ok s r')
      ↔ ∃ form value rest, IsIntegerForm form value ∧ r.unread = form ++ rest)
    ∧ (∀ form value rest, IsIntegerForm form value → r.unread = form ++ rest →
      ∃ s r', integer.run r = .ok s r' ∧ r.Passes form rest r'
        ∧ (0 ≤ value → value < Modulus.order.toNat → (s.toNat : ℤ) = value)
        ∧ (value < 0 ∨ 2 ^ 256 ≤ value ∨ Modulus.order.toNat ≤ value ∧ value < 2 ^ 256 → s = 0))
    ∧ ∀ content value, IsContentOf content value ↔ IsMinimal content ∧ twosComplement content = value := by
  refine ⟨⟨?_, ?_⟩, ?_, fun _ _ => isContentOf_iff⟩
  · rintro ⟨s, r', hrun⟩
    exact isIntegerForm_of_run_integer h hrun
  · rintro ⟨form, value, rest, hform, hunread⟩
    obtain ⟨s, r', hrun, -⟩ := run_integer_of_isIntegerForm h hform hunread
    exact ⟨s, r', hrun⟩
  · -- The scalar is the value where it is one, and zero for every other value.
    intro form value rest hform hunread
    obtain ⟨s, r', hrun, hpasses, hs⟩ := run_integer_of_isIntegerForm h hform hunread
    exact ⟨s, r', hrun, hpasses, toNat_eq_of_scalarPart hs, eq_zero_of_scalarPart hs⟩

/-- The integer -129, whose first byte its sign needs, and behind it the integer 5. -/
def signedBytes : List UInt8 := [0x02, 0x02, 0xFF, 0x7F, 0x02, 0x01, 0x05]

/-- A negative number of two bytes. -/
theorem isIntegerForm_negative : IsIntegerForm [0x02, 0x02, 0xFF, 0x7F] (-129) :=
  isIntegerForm_iff.2
    ⟨[0xFF, 0x7F], by norm_num, isMinimal_cons_cons_iff.2 (by decide), by decide, rfl⟩

theorem isIntegerForm_five : IsIntegerForm [0x02, 0x01, 0x05] 5 :=
  isIntegerForm_iff.2 ⟨[0x05], by norm_num, isMinimal_singleton _, by decide, rfl⟩

/-- The first integer is read as zero with the second still unread, and the second as itself. -/
theorem integer_exact_signed :
    Reader.Sound ⟨signedBytes, 0⟩ ∧ Reader.Sound ⟨signedBytes, 4⟩
    ∧ IsIntegerForm [0x02, 0x02, 0xFF, 0x7F] (-129) ∧ IsIntegerForm [0x02, 0x01, 0x05] 5
    ∧ (∃ r', integer.run ⟨signedBytes, 0⟩ = .ok 0 r' ∧ r'.unread = [0x02, 0x01, 0x05])
    ∧ ∃ s r', integer.run ⟨signedBytes, 4⟩ = .ok s r' ∧ (s.toNat : ℤ) = 5 ∧ r'.unread = [] := by
  have hfront : Reader.Sound ⟨signedBytes, 0⟩ := ⟨by decide, by decide⟩
  have hback : Reader.Sound ⟨signedBytes, 4⟩ := ⟨by decide, by decide⟩
  obtain ⟨s, r', hrun, hpasses, -, hzero⟩ :=
    (integer_exact _ hfront).2.1 _ _ [0x02, 0x01, 0x05] isIntegerForm_negative rfl
  obtain ⟨t, r'', hrun', hpasses', hvalue, -⟩ :=
    (integer_exact _ hback).2.1 _ _ [] isIntegerForm_five rfl
  -- The negative number reads as zero, and the reader goes on behind it.
  obtain rfl := hzero (.inl (by norm_num))
  refine ⟨hfront, hback, isIntegerForm_negative, isIntegerForm_five, ⟨r', hrun, hpasses.rest_eq⟩, ?_⟩
  exact ⟨t, r'', hrun', hvalue (by norm_num) (by decide), hpasses'.rest_eq⟩

end Read

end Der

end CurveSign
