import CurveSign.Der.Reader
import CurveSign.Proofs.Bytes.Shortest
import Mathlib.Tactic.Linarith
import Mathlib.Tactic.SplitIfs

namespace CurveSign

/-!
# The grammar of strict DER

An element is a tag, the definite length of its content in the shortest form (`Der.definiteLength`)
and the content.  The content of an integer is a shortest byte string that stands for it in two's
complement (`Der.IsContentOf`), and a signature is a sequence of two integers (`Der.IsSequenceOf`).

A content is shortest exactly if its sign does not follow already from its second byte
(`Der.isContentOf_iff`): otherwise its number is too large, or too small, for one byte less.
-/

namespace Der

/-- The octets of a length: itself below 128, and otherwise the number of its bytes, counted from
    128, and its bytes. -/
def definiteLength (length : ℕ) : List UInt8 :=
  if length < 128 then [UInt8.ofNat length]
  else UInt8.ofNat (128 + (BigEndian.shortest length).length) :: BigEndian.shortest length

/-- A tag, the length of the content, and the content. -/
def element (tag : UInt8) (content : List UInt8) : List UInt8 :=
  tag :: (definiteLength content.length ++ content)

/-- The integer that a content stands for: from 128 on its first byte counts as negative. -/
def twosComplement (content : List UInt8) : ℤ :=
  if 0x80 ≤ content.headD 0 then BigEndian.decode content - 256 ^ content.length
  else BigEndian.decode content

/-- The content is not empty, stands for the integer, and is as short as any that does. -/
structure IsContentOf (content : List UInt8) (value : ℤ) : Prop where
  ne_nil : content ≠ []
  value_eq : twosComplement content = value
  length_le : ∀ other, other ≠ [] → twosComplement other = value → content.length ≤ other.length

/-- The bytes are a sequence of the two integers. -/
def IsSequenceOf (bytes : List UInt8) (a b : ℤ) : Prop :=
  ∃ content content', IsContentOf content a ∧ IsContentOf content' b
    ∧ bytes = element sequenceTag (element integerTag content ++ element integerTag content')

/-- The integer if it is a scalar, and zero if it is not. -/
def scalarPart (value : ℤ) : ℤ :=
  if 0 ≤ value ∧ value < Modulus.order.toNat then value else 0

/-- A content that is not empty and has no byte in front that its sign does not need. -/
structure IsMinimal (content : List UInt8) : Prop where
  ne_nil : content ≠ []
  zeros : ∀ second rest, content = 0x00 :: second :: rest → ¬ second < 0x80
  ones : ∀ second rest, content = 0xFF :: second :: rest → ¬ 0x80 ≤ second

/-! ### Lengths -/

theorem definiteLength_of_lt {length : ℕ} (h : length < 128) :
    definiteLength length = [UInt8.ofNat length] := if_pos h

/-- A length from 128 on is written as its shortest form, behind the number of its octets. -/
theorem definiteLength_of_le {length : ℕ} (h : 128 ≤ length) :
    definiteLength length
      = UInt8.ofNat (128 + (BigEndian.shortest length).length) :: BigEndian.shortest length :=
  if_neg (Nat.not_lt.2 h)

/-- A length from 128 to 255 takes one octet behind the first. -/
theorem definiteLength_toNat {b : UInt8} (h : 0x80 ≤ b) : definiteLength b.toNat = [0x81, b] := by
  have hhead : [b].head? ≠ some 0 := by
    rintro ⟨⟩
    exact absurd h (by decide)
  have hshortest : BigEndian.shortest b.toNat = [b] :=
    (BigEndian.eq_shortest_iff.2 ⟨BigEndian.decode_singleton b, hhead⟩).symm
  rw [definiteLength_of_le (UInt8.le_iff_toNat_le.1 h), hshortest]
  rfl

/-! ### Two's complement -/

/-- The number of a first byte, from -128 to 127. -/
def signedByte (b : UInt8) : ℤ := if 0x80 ≤ b then b.toNat - 256 else b.toNat

theorem signedByte_eq (b : UInt8) :
    signedByte b = if 128 ≤ b.toNat then (b.toNat : ℤ) - 256 else b.toNat := by
  simp only [signedByte, UInt8.le_iff_toNat_le, UInt8.reduceToNat]

/-- A signed byte has eight bits. -/
theorem signedByte_bounds (b : UInt8) : -128 ≤ signedByte b ∧ signedByte b < 128 := by
  have hb := b.toNat_lt
  rw [signedByte_eq]
  split_ifs <;> omega

/-- The byte of zero. -/
theorem eq_zeros_of_signedByte {b : UInt8} (h : signedByte b = 0) : b = 0x00 := by
  have hb := b.toNat_lt
  rw [signedByte_eq] at h
  apply UInt8.toNat_inj.1
  show b.toNat = 0
  split_ifs at h <;> omega

/-- The byte of minus one. -/
theorem eq_ones_of_signedByte {b : UInt8} (h : signedByte b = -1) : b = 0xFF := by
  rw [signedByte_eq] at h
  apply UInt8.toNat_inj.1
  show b.toNat = 255
  split_ifs at h
  omega

/-- Only the first byte counts as signed. -/
theorem twosComplement_cons (first : UInt8) (rest : List UInt8) :
    twosComplement (first :: rest)
      = signedByte first * 256 ^ rest.length + BigEndian.decode rest := by
  rw [twosComplement, signedByte, BigEndian.decode_cons, List.headD_cons, List.length_cons, pow_succ]
  split_ifs
  · push_cast
    ring
  · push_cast
    rfl

/-- A content of `k + 1` bytes stands for an integer from `-128 · 256 ^ k` to `128 · 256 ^ k`. -/
theorem twosComplement_bounds (first : UInt8) (rest : List UInt8) :
    -128 * 256 ^ rest.length ≤ twosComplement (first :: rest)
      ∧ twosComplement (first :: rest) < 128 * 256 ^ rest.length := by
  have hlt : (BigEndian.decode rest : ℤ) < 256 ^ rest.length := by
    exact_mod_cast BigEndian.decode_lt rest
  have hnonneg : (0 : ℤ) ≤ BigEndian.decode rest := Int.natCast_nonneg _
  obtain ⟨hlow, hhigh⟩ := signedByte_bounds first
  rw [twosComplement_cons]
  constructor
  · nlinarith
  · nlinarith

/-! ### Minimal contents -/

theorem isMinimal_singleton (b : UInt8) : IsMinimal [b] :=
  ⟨List.cons_ne_nil _ _, nofun, nofun⟩

/-- Two bytes in front decide. -/
theorem isMinimal_cons_cons_iff {first second : UInt8} {rest : List UInt8} :
    IsMinimal (first :: second :: rest)
      ↔ ¬ (first = 0x00 ∧ second < 0x80) ∧ ¬ (first = 0xFF ∧ 0x80 ≤ second) := by
  constructor
  · intro h
    refine ⟨?_, ?_⟩
    · rintro ⟨rfl, hlt⟩
      exact h.zeros second rest rfl hlt
    · rintro ⟨rfl, hle⟩
      exact h.ones second rest rfl hle
  · rintro ⟨hzeros, hones⟩
    refine ⟨List.cons_ne_nil _ _, ?_, ?_⟩
    · -- The second byte is the one at hand.
      intro second' rest' heq hlt
      cases heq
      exact hzeros ⟨rfl, hlt⟩
    · intro second' rest' heq hle
      cases heq
      exact hones ⟨rfl, hle⟩

/-- A first byte that the sign does not need can be dropped. -/
theorem twosComplement_drop {first second : UInt8} (rest : List UInt8)
    (h : first = 0x00 ∧ second < 0x80 ∨ first = 0xFF ∧ 0x80 ≤ second) :
    twosComplement (first :: second :: rest) = twosComplement (second :: rest) := by
  rw [twosComplement_cons, twosComplement_cons, BigEndian.decode_cons, List.length_cons, pow_succ]
  -- The byte in front is worth nothing, or what the sign of the second one is worth.
  rcases h with ⟨rfl, hlt⟩ | ⟨rfl, hle⟩
  · have hfirst : signedByte 0x00 = 0 := by decide
    have hsecond : signedByte second = second.toNat := if_neg (UInt8.not_le.2 hlt)
    rw [hfirst, hsecond]
    push_cast
    ring
  · have hfirst : signedByte 0xFF = -1 := by decide
    have hsecond : signedByte second = second.toNat - 256 := if_pos hle
    rw [hfirst, hsecond]
    push_cast
    ring

/-- A content whose first byte the sign needs stands for no integer of one byte less. -/
theorem IsMinimal.twosComplement_out {first second : UInt8} {rest : List UInt8}
    (h : IsMinimal (first :: second :: rest)) :
    twosComplement (first :: second :: rest) < -128 * 256 ^ rest.length
      ∨ 128 * 256 ^ rest.length ≤ twosComplement (first :: second :: rest) := by
  have hpos : (0 : ℤ) < 256 ^ rest.length := by positivity
  have hnonneg : (0 : ℤ) ≤ BigEndian.decode rest := Int.natCast_nonneg _
  have hlt : (BigEndian.decode rest : ℤ) < 256 ^ rest.length := by
    exact_mod_cast BigEndian.decode_lt rest
  have hsecond : (second.toNat : ℤ) ≤ 255 := by
    have := second.toNat_lt
    omega
  have hvalue : twosComplement (first :: second :: rest)
      = (256 * signedByte first + second.toNat) * 256 ^ rest.length + BigEndian.decode rest := by
    rw [twosComplement_cons, BigEndian.decode_cons, List.length_cons, pow_succ]
    push_cast
    ring
  rw [hvalue]
  -- Counted in units of the bytes behind, the first two bytes lie outside what one byte can hold.
  have hfront : 256 * signedByte first + second.toNat ≤ -129
      ∨ 128 ≤ 256 * signedByte first + second.toNat := by
    rcases lt_trichotomy (signedByte first) 0 with hneg | hzero | hpositive
    · by_cases hone : signedByte first = -1
      · have hlow := h.ones second rest (by rw [eq_ones_of_signedByte hone])
        rw [UInt8.not_le, UInt8.lt_iff_toNat_lt] at hlow
        change second.toNat < 128 at hlow
        omega
      · omega
    · have hhigh := h.zeros second rest (by rw [eq_zeros_of_signedByte hzero])
      rw [UInt8.not_lt, UInt8.le_iff_toNat_le] at hhigh
      change 128 ≤ second.toNat at hhigh
      omega
    · omega
  rcases hfront with hlow | hhigh
  · exact Or.inl (by nlinarith)
  · exact Or.inr (by nlinarith)

/-- A minimal content is as short as any that stands for the same integer. -/
theorem IsMinimal.length_le {content other : List UInt8} (h : IsMinimal content) (hother : other ≠ [])
    (hvalue : twosComplement other = twosComplement content) : content.length ≤ other.length := by
  obtain ⟨o, orest, rfl⟩ := List.exists_cons_of_ne_nil hother
  obtain ⟨first, rest, rfl⟩ := List.exists_cons_of_ne_nil h.ne_nil
  cases rest with
  | nil => exact Nat.le_add_left 1 _
  | cons second rest =>
    by_contra hlt
    rw [List.length_cons, List.length_cons, List.length_cons] at hlt
    have hpow : (256 : ℤ) ^ orest.length ≤ 256 ^ rest.length :=
      pow_le_pow_right₀ (by norm_num) (by omega)
    have hbounds := twosComplement_bounds o orest
    rw [hvalue] at hbounds
    -- A shorter one would bound the number that is out of its bounds.
    rcases h.twosComplement_out with hout | hout
    · linarith [hbounds.1]
    · linarith [hbounds.2]

/-- **Shortest contents are the minimal ones.** -/
theorem isContentOf_iff {content : List UInt8} {value : ℤ} :
    IsContentOf content value ↔ IsMinimal content ∧ twosComplement content = value := by
  constructor
  · rintro ⟨hne, rfl, hle⟩
    -- Dropping a byte that the sign does not need would give a shorter content.
    have hneeded : ∀ first second rest, content = first :: second :: rest →
        ¬ (first = 0x00 ∧ second < 0x80 ∨ first = 0xFF ∧ 0x80 ≤ second) := by
      rintro first second rest rfl hdrop
      have hlength := hle (second :: rest) (List.cons_ne_nil _ _) (twosComplement_drop rest hdrop).symm
      simp only [List.length_cons] at hlength
      omega
    refine ⟨⟨hne, ?_, ?_⟩, rfl⟩
    · intro second rest hcontent hsecond
      exact hneeded _ _ _ hcontent (Or.inl ⟨rfl, hsecond⟩)
    · intro second rest hcontent hsecond
      exact hneeded _ _ _ hcontent (Or.inr ⟨rfl, hsecond⟩)
  · rintro ⟨hminimal, rfl⟩
    exact ⟨hminimal.ne_nil, rfl, fun other hother hvalue => hminimal.length_le hother hvalue⟩

end Der

end CurveSign
