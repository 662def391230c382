import CurveSign.Proofs.Der.Length

namespace CurveSign

/-!
# Reading integers

Reading an integer succeeds exactly on an integer element with a minimal content
(`Der.Read.run_integer_eq_ok_iff`).  What it returns is the integer if that is a scalar, and zero for
all others: the negative ones, those of more than 32 bytes, and those between the order and `2 ^ 256`
(`Der.Read.run_scalarOfContent`).
-/

namespace Der

/-! ### Values of contents -/

/-- A first byte from 0x80 on makes the number negative. -/
theorem twosComplement_neg {first : UInt8} (h : 0x80 ≤ first) (rest : List UInt8) :
    twosComplement (first :: rest) < 0 := by
  have hlt : (BigEndian.decode (first :: rest) : ℤ) < 256 ^ (first :: rest).length := by
    exact_mod_cast BigEndian.decode_lt (first :: rest)
  rw [twosComplement, List.headD_cons, if_pos h]
  omega

theorem scalarPart_of_neg {value : ℤ} (h : value < 0) : scalarPart value = 0 :=
  if_neg fun hvalue => absurd hvalue.1 (not_le.2 h)

/-- A number that is not negative is its own scalar part below the order, and has zero otherwise. -/
theorem scalarPart_natCast (value : ℕ) :
    scalarPart value = ((if value < Modulus.order.toNat then value else 0 : ℕ) : ℤ) := by
  rw [scalarPart]
  split_ifs <;> omega

/-- The scalar part is the number of a scalar. -/
theorem exists_toNat_eq_scalarPart (value : ℤ) : ∃ s : Scalar, (s.toNat : ℤ) = scalarPart value := by
  rw [scalarPart]
  split_ifs with h
  · obtain ⟨n, rfl⟩ := Int.eq_ofNat_of_zero_le h.1
    have hlt : n < Modulus.order.toNat := by exact_mod_cast h.2
    have hsize : n < Word256.size := hlt.trans Modulus.order.word.toNat_lt
    refine ⟨Residue.reduce (Word256.ofNat n), ?_⟩
    rw [Residue.toNat_reduce, Word256.toNat_ofNat, Nat.mod_eq_of_lt hsize, Nat.mod_eq_of_lt hlt]
  · exact ⟨0, rfl⟩

namespace Read

variable {r r' : Reader}

/-- At most 32 bytes are read as their number, if it is a scalar. -/
theorem run_scalarOfBytes {bytes : List UInt8} (h : bytes.length ≤ 32) :
    ∃ s : Scalar, (scalarOfBytes bytes).run r = .ok s r
      ∧ s.toNat = if BigEndian.decode bytes < Modulus.order.toNat then BigEndian.decode bytes else 0 := by
  obtain ⟨padded, hpad, hwidth, hdecode⟩ := BigEndian.padLeft?_eq_some h
  have hlt := BigEndian.decode_lt padded
  rw [hwidth, hdecode] at hlt
  -- Padded to 32 bytes the number fits a word.
  have hword : (Word256.ofNat (BigEndian.decode bytes)).toNat = BigEndian.decode bytes := by
    rw [Word256.toNat_ofNat]
    exact Nat.mod_eq_of_lt hlt
  have hbytes : Word256.ofBytes? padded = some (Word256.ofNat (BigEndian.decode bytes)) := by
    rw [Word256.ofBytes?, if_pos hwidth, hdecode]
  refine ⟨(Residue.ofWord256? (Word256.ofNat (BigEndian.decode bytes))).getD 0, ?_, ?_⟩
  · unfold scalarOfBytes
    rw [hpad, Option.bind_some, hbytes]
    rfl
  · rw [Residue.toNat_getD_ofWord256?, hword]

/-- More than 32 bytes without a zero in front spell a number above the order. -/
theorem order_lt_of_long {bytes : List UInt8} (hhead : bytes.head? ≠ some 0)
    (hlong : 32 < bytes.length) : Modulus.order.toNat < BigEndian.decode bytes := by
  obtain ⟨first, rest, rfl⟩ := List.exists_cons_of_length_pos (Nat.zero_lt_of_lt hlong)
  have hfirst : first ≠ 0 := fun hzero => hhead (congrArg some hzero)
  have hrest : 32 ≤ rest.length := Nat.le_of_lt_succ hlong
  calc Modulus.order.toNat
      < 256 ^ 32 := Modulus.order.word.toNat_lt
    _ ≤ 256 ^ rest.length := Nat.pow_le_pow_right (by decide) hrest
    _ ≤ BigEndian.decode (first :: rest) := BigEndian.pow_le_decode_cons hfirst rest

/-- **The scalar of a content** is its integer if that is a scalar, and zero if not. -/
theorem run_scalarOfContent (first : UInt8) (rest : List UInt8) :
    ∃ s : Scalar, (scalarOfContent (first :: rest) first).run r = .ok s r
      ∧ (s.toNat : ℤ) = scalarPart (twosComplement (first :: rest)) := by
  obtain ⟨significant, hsignificant⟩ :
      ∃ significant, significant = (first :: rest).dropWhile (· == 0) := ⟨_, rfl⟩
  have hvalue : BigEndian.decode significant = BigEndian.decode (first :: rest) := by
    rw [hsignificant, BigEndian.decode_dropWhile]
  unfold scalarOfContent
  rw [← hsignificant]
  dsimp only
  -- A negative number and one of too many bytes have no scalar; the others are compared with the
  -- order.
  by_cases hneg : 0x80 ≤ first
  · refine ⟨0, if_pos (Or.inl hneg) ▸ rfl, ?_⟩
    rw [scalarPart_of_neg (twosComplement_neg hneg rest)]
    rfl
  have hnat : twosComplement (first :: rest) = (BigEndian.decode significant : ℕ) := by
    rw [hvalue]
    exact if_neg hneg
  rw [hnat, scalarPart_natCast]
  by_cases hlong : 32 < significant.length
  · refine ⟨0, if_pos (Or.inr hlong) ▸ rfl, ?_⟩
    have hhead : significant.head? ≠ some 0 := by
      intro hzero
      have hnot := List.head?_dropWhile_not (· == (0 : UInt8)) (first :: rest)
      rw [← hsignificant, hzero] at hnot
      exact absurd hnot (by decide)
    rw [if_neg (Nat.lt_asymm (order_lt_of_long hhead hlong))]
    rfl
  · rw [if_neg (not_or_intro hneg hlong)]
    obtain ⟨s, hrun, hs⟩ := run_scalarOfBytes (r := r) (Nat.not_lt.1 hlong)
    exact ⟨s, hrun, congrArg Nat.cast hs⟩

/-! ### Padding -/

/-- **The padding test** accepts exactly the minimal contents. -/
theorem run_checkPadding_eq_ok_iff {first : UInt8} {rest : List UInt8} :
    (checkPadding (first :: rest) first).run r = .ok () r' ↔ IsMinimal (first :: rest) ∧ r = r' := by
  unfold checkPadding
  -- Content of one byte is minimal, and its second byte is never looked at.
  cases rest with
  | nil =>
    have hone : [first].length ≤ 1 := Nat.le_refl 1
    rw [if_pos hone, run_pure_eq_ok_iff]
    exact and_congr_left fun _ => iff_of_true rfl (isMinimal_singleton first)
  | cons second rest =>
    have hsecond : (byteAt (first :: second :: rest) 1).run r = .ok second r := run_byteAt rfl
    have htwo : ¬ (first :: second :: rest).length ≤ 1 := by
      rw [List.length_cons, List.length_cons]
      omega
    rw [if_neg htwo, run_bind hsecond, run_refuse_eq_ok_iff, run_refuse_eq_ok_iff,
      run_pure_eq_ok_iff, isMinimal_cons_cons_iff, and_assoc]
    exact and_congr_right fun _ => and_congr_right fun _ => and_iff_right rfl

/-! ### Elements -/

variable {tag : UInt8} {content rest : List UInt8}

/-- After the tag of an element, the length of its content is read. -/
theorem run_length_of_element (h : r.Sound) (hunread : r.unread = element tag content ++ rest) :
    ∃ r₁, length.run (r.skip 1) = .ok content.length r₁ ∧ r₁.Sound ∧ r₁.unread = content ++ rest
      ∧ r₁.skip content.length = r.skip (element tag content).length := by
  rw [element, List.cons_append, List.append_assoc] at hunread
  obtain ⟨hsound, htail⟩ := h.skip_one hunread
  obtain ⟨hsound₁, hunread₁⟩ := hsound.skip_append htail
  refine ⟨_, ?_, hsound₁, hunread₁, ?_⟩
  · -- The content itself is what the length must fit into.
    rw [run_length_eq_ok_iff hsound]
    refine ⟨content ++ rest, htail, ?_, rfl⟩
    intro _
    simp
  · have hlength : 1 + ((definiteLength content.length).length + content.length)
        = (element tag content).length := by
      simp only [element, List.length_cons, List.length_append]
      omega
    rw [Reader.skip_skip, Reader.skip_skip, hlength]

/-- If a length is read after a tag and that many bytes follow, they are the content of an element. -/
theorem element_of_run_length (h : r.Sound) {tail : List UInt8} (hunread : r.unread = tag :: tail)
    {m : ℕ} {r₁ : Reader} (hrun : length.run (r.skip 1) = .ok m r₁) :
    r₁.Sound ∧ (m ≤ r₁.unread.length → ∃ content rest, content.length = m
      ∧ r.unread = element tag content ++ rest ∧ r₁.unread = content ++ rest) := by
  obtain ⟨hsound, htail⟩ := h.skip_one hunread
  obtain ⟨rest, hrest, _, rfl⟩ := (run_length_eq_ok_iff hsound).1 hrun
  obtain ⟨hsound₁, hunread₁⟩ := hsound.skip_append hrest
  refine ⟨hsound₁, fun hle => ?_⟩
  rw [hunread₁] at hle ⊢
  -- As many bytes as the length says are the content, and the others are the rest.
  have hlength := List.length_take_of_le hle
  refine ⟨rest.take m, rest.drop m, hlength, ?_, (List.take_append_drop m rest).symm⟩
  rw [element, hlength, hunread, ← htail, hrest, List.cons_append, List.append_assoc,
    List.take_append_drop]

/-! ### Integers -/

/-- In front of an integer element, its content is tested for padding and its scalar is taken. -/
theorem run_integer_of_element (h : r.Sound) {first : UInt8} {tail : List UInt8}
    (hunread : r.unread = element integerTag (first :: tail) ++ rest) :
    integer.run r = (do
      checkPadding (first :: tail) first
      scalarOfContent (first :: tail) first : Read Scalar).run
        (r.skip (element integerTag (first :: tail)).length) := by
  have hpeek : peek.run r = .ok (some integerTag) r := by
    rw [run_peek, hunread]
    rfl
  have hadvance := run_advance_one h hunread
  obtain ⟨r₁, hlength, hsound, hrest, hskip⟩ := run_length_of_element h hunread
  have hleft : (first :: tail).length ≤ r₁.unread.length := by
    simp [hrest]
  -- The test of the length passes, since the content is there and not empty.
  have hbounds : ¬ ((first :: tail).length = 0 ∨ r₁.unread.length < (first :: tail).length) :=
    not_or_intro (Nat.succ_ne_zero _) (Nat.not_lt.2 hleft)
  have hslice := run_slice hsound hleft
  rw [hrest, List.take_left, hskip] at hslice
  have hfirst : (first :: tail)[0]? = some first := rfl
  unfold integer
  rw [run_bind hpeek, if_neg (not_not_intro rfl), run_bind hadvance, run_bind hlength,
    run_bind (run_remaining hsound), if_neg hbounds, run_bind hslice, run_bind (run_byteAt hfirst)]

/-- An integer that is read stands in an element with some content. -/
theorem element_of_run_integer (h : r.Sound) {s : Scalar} (hrun : integer.run r = .ok s r') :
    ∃ first tail rest, r.unread = element integerTag (first :: tail) ++ rest := by
  unfold integer at hrun
  rw [run_bind run_peek, run_refuse_eq_ok_iff, not_not] at hrun
  obtain ⟨htag, hrun⟩ := hrun
  obtain ⟨tail, hunread⟩ := List.head?_eq_some_iff.1 htag
  rw [run_bind (run_advance_one h hunread), run_bind_eq_ok_iff] at hrun
  obtain ⟨m, r₁, hlength, hrun⟩ := hrun
  obtain ⟨hsound, helement⟩ := element_of_run_length h hunread hlength
  -- The test that was passed says that the content is there and has a first byte.
  rw [run_bind (run_remaining hsound), run_refuse_eq_ok_iff, not_or, Nat.not_lt] at hrun
  obtain ⟨content, rest, rfl, hcontent, _⟩ := helement hrun.1.2
  obtain ⟨first, tail', rfl⟩ := List.exists_cons_of_length_pos (Nat.pos_of_ne_zero hrun.1.1)
  exact ⟨first, tail', rest, hcontent⟩

/-- **An integer is read** exactly from an integer element with a minimal content, as its scalar.  The
    bytes behind the element stay unread. -/
theorem run_integer_eq_ok_iff (h : r.Sound) {s : Scalar} :
    integer.run r = .ok s r'
      ↔ ∃ content rest, r.unread = element integerTag content ++ rest ∧ IsMinimal content
        ∧ (s.toNat : ℤ) = scalarPart (twosComplement content)
        ∧ r.skip (element integerTag content).length = r' := by
  constructor
  · intro hrun
    obtain ⟨first, tail, rest, hunread⟩ := element_of_run_integer h hrun
    rw [run_integer_of_element h hunread, run_bind_eq_ok_iff] at hrun
    -- Behind the element only the padding may still refuse; the scalar is always found.
    obtain ⟨_, _, hpadding, hrun⟩ := hrun
    obtain ⟨hminimal, rfl⟩ := run_checkPadding_eq_ok_iff.1 hpadding
    obtain ⟨s', hscalar, hvalue⟩ :=
      run_scalarOfContent (r := r.skip (element integerTag (first :: tail)).length) first tail
    rw [hscalar, EStateM.Result.ok.injEq] at hrun
    obtain ⟨rfl, rfl⟩ := hrun
    exact ⟨first :: tail, rest, hunread, hminimal, hvalue, rfl⟩
  · rintro ⟨content, rest, hunread, hminimal, hvalue, rfl⟩
    obtain ⟨first, tail, rfl⟩ := List.exists_cons_of_ne_nil hminimal.ne_nil
    obtain ⟨s', hscalar, hvalue'⟩ :=
      run_scalarOfContent (r := r.skip (element integerTag (first :: tail)).length) first tail
    have hs : s' = s := Residue.toNat_inj.1 (Nat.cast_injective (hvalue'.trans hvalue.symm))
    rw [run_integer_of_element h hunread,
      run_bind (run_checkPadding_eq_ok_iff.2 ⟨hminimal, rfl⟩), hscalar, hs]

end Read

end Der

end CurveSign
