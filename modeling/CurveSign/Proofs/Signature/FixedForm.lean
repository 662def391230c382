import CurveSign.Proofs.Bytes.FixedWidth
import CurveSign.Proofs.Bytes.Words
import CurveSign.Proofs.Log
import Mathlib.Data.Set.Function

namespace CurveSign

/-!
# Signatures and their 64 bytes

Signatures are in bijection with the byte strings of length 64 whose halves spell numbers below the
order (`Signature.bijOn_toBytes`): those and no others are read, each as the signature that is written as
it (`Signature.ofBytes_cases`).  A byte string of another length is refused in silence, and one of
length 64 with an event (`Signature.events_ofBytes`).  The words of the components may be read and
written one by one (`Signature.ofBytes_eq_ofWordBytes`, `Signature.toBytes_eq_toWordBytes`).
-/

/-- A byte string has length 64, and its halves spell numbers below the order. -/
structure IsFixedForm (bytes : List UInt8) : Prop where
  length_eq : bytes.length = 64
  front_lt : BigEndian.decode (bytes.take 32) < Modulus.order.toNat
  back_lt : BigEndian.decode (bytes.drop 32) < Modulus.order.toNat

instance (bytes : List UInt8) : Decidable (IsFixedForm bytes) :=
  decidable_of_iff
    (bytes.length = 64 ∧ BigEndian.decode (bytes.take 32) < Modulus.order.toNat
      ∧ BigEndian.decode (bytes.drop 32) < Modulus.order.toNat)
    ⟨fun ⟨hlength, hfront, hback⟩ => ⟨hlength, hfront, hback⟩,
      fun ⟨hlength, hfront, hback⟩ => ⟨hlength, hfront, hback⟩⟩

/-- The halves of 64 bytes. -/
theorem length_halves {bytes : List UInt8} (h : bytes.length = 64) :
    (bytes.take 32).length = 32 ∧ (bytes.drop 32).length = 32 := by
  rw [List.length_take, List.length_drop, h]
  exact ⟨rfl, rfl⟩

namespace Signature

variable {bytes : List UInt8} {sig : Signature}

/-! ### What is written -/

/-- What a signature is written as has the form. -/
theorem isFixedForm_toBytes (sig : Signature) : IsFixedForm sig.toBytes where
  length_eq := by
    rw [toBytes, List.length_append, sig.r.length_toBytes, sig.s.length_toBytes]
  front_lt := by
    rw [toBytes, List.take_left' sig.r.length_toBytes, sig.r.decode_toBytes]
    exact sig.r.toNat_lt
  back_lt := by
    rw [toBytes, List.drop_left' sig.r.length_toBytes, sig.s.decode_toBytes]
    exact sig.s.toNat_lt

/-- Every fixed form is written for a signature. -/
theorem exists_toBytes_eq (h : IsFixedForm bytes) : ∃ sig : Signature, sig.toBytes = bytes := by
  obtain ⟨hfront, hback⟩ := length_halves h.length_eq
  obtain ⟨r, hr, -⟩ := Residue.exists_toBytes_eq hfront h.front_lt
  obtain ⟨s, hs, -⟩ := Residue.exists_toBytes_eq hback h.back_lt
  refine ⟨⟨r, s⟩, ?_⟩
  rw [toBytes, hr, hs, List.take_append_drop]

/-- Different signatures are written differently. -/
theorem toBytes_injective : Function.Injective toBytes := by
  intro a b h
  have hread := ofBytes_toBytes a
  rw [h, ofBytes_toBytes b] at hread
  exact (Except.ok.inj hread).symm

/-- **Signatures are their fixed forms.** -/
theorem bijOn_toBytes : Set.BijOn toBytes Set.univ {bytes | IsFixedForm bytes} :=
  ⟨fun sig _ => sig.isFixedForm_toBytes, toBytes_injective.injOn, fun _ h =>
    (exists_toBytes_eq h).imp fun _ hsig => ⟨Set.mem_univ _, hsig⟩⟩

/-! ### What is read -/

/-- What is read has the form. -/
theorem isFixedForm_of_ofBytes (h : ofBytes bytes = .ok sig) : IsFixedForm bytes := by
  obtain ⟨hlength, hr, hs⟩ := ofBytes_eq_ok_iff.1 h
  exact ⟨hlength, hr ▸ sig.r.toNat_lt, hs ▸ sig.s.toNat_lt⟩

/-- **Three outcomes**: fixed forms are read as what they are written for, and what else is refused
    depends on the length. -/
theorem ofBytes_cases (bytes : List UInt8) :
    (IsFixedForm bytes ∧ ∃ sig : Signature, sig.toBytes = bytes ∧ ofBytes bytes = .ok sig)
    ∨ (¬ IsFixedForm bytes ∧ bytes.length = 64 ∧ ofBytes bytes = .error .componentOutOfRange)
    ∨ (¬ IsFixedForm bytes ∧ bytes.length ≠ 64 ∧ ofBytes bytes = .error .signatureLength) := by
  by_cases hform : IsFixedForm bytes
  · obtain ⟨sig, rfl⟩ := exists_toBytes_eq hform
    exact .inl ⟨hform, sig, rfl, ofBytes_toBytes sig⟩
  · right
    by_cases hlength : bytes.length = 64
    · refine .inl ⟨hform, hlength, ?_⟩
      -- Were both halves read, the byte string would be a fixed form.
      have hnone (sig : Signature) : ofBytes bytes ≠ .ok sig :=
        fun h => hform (isFixedForm_of_ofBytes h)
      revert hnone
      rw [ofBytes, if_pos hlength]
      split
      · exact fun hnone => absurd rfl (hnone _)
      · exact fun _ => rfl
    · exact .inr ⟨hform, hlength, if_neg hlength⟩

/-- What reading reports. -/
theorem events_ofBytes (bytes : List UInt8) :
    events (ofBytes bytes) = if bytes.length = 64 ∧ ¬ IsFixedForm bytes
      then [⟨"signature component out of range", []⟩] else [] := by
  obtain ⟨hform, sig, -, hread⟩ | ⟨hform, hlength, hread⟩ | ⟨hform, hlength, hread⟩ :=
    ofBytes_cases bytes
  · rw [hread, if_neg fun h => h.2 hform]
    rfl
  · rw [hread, if_pos ⟨hlength, hform⟩]
    rfl
  · rw [hread, if_neg fun h => hlength h.1]
    rfl

/-! ### Word by word -/

/-- The signature of 64 bytes, with the halves read word by word. -/
def ofWordBytes (bytes : List UInt8) : Except Rejection Signature :=
  if bytes.length = 64 then
    match (Residue.ofWord256? (.ofWordBytes (bytes.take 32)) : Option Scalar),
      (Residue.ofWord256? (.ofWordBytes (bytes.drop 32)) : Option Scalar) with
    | some r, some s => .ok ⟨r, s⟩
    | _, _ => .error .componentOutOfRange
  else .error .signatureLength

/-- The 64 bytes, with the components written word by word. -/
def toWordBytes (sig : Signature) : List UInt8 :=
  sig.r.word.toWordBytes ++ sig.s.word.toWordBytes

/-- Reading is reading word by word. -/
theorem ofBytes_eq_ofWordBytes (bytes : List UInt8) : ofBytes bytes = ofWordBytes bytes := by
  by_cases hlength : bytes.length = 64
  · obtain ⟨hfront, hback⟩ := length_halves hlength
    rw [ofBytes, Residue.ofBytes?, Residue.ofBytes?, Word256.ofWordBytes_eq hfront,
      Word256.ofWordBytes_eq hback, Option.bind_some, Option.bind_some]
    rfl
  · rw [ofBytes, ofWordBytes, if_neg hlength, if_neg hlength]

/-- Writing is writing word by word. -/
theorem toBytes_eq_toWordBytes (sig : Signature) : sig.toBytes = sig.toWordBytes := by
  rw [toWordBytes, Word256.toWordBytes_eq, Word256.toWordBytes_eq]
  rfl

/-! ### The form of 64 bytes -/

/-- **The form of 64 bytes is exact.** A byte string is read if and only if it has length 64 and both
    halves spell numbers below the order; these numbers are then the components, and the signature is
    written as the byte string again.  Every signature is read back from what it is written as, so that
    signatures and these byte strings correspond one to one.  One event is reported exactly for the byte
    strings of length 64 that are refused, which is what the run that reads has in its log, and all this
    is what shifting and comparing words computes. -/
theorem fixedForm_exact :
    (∀ bytes, (∃ sig, ofBytes bytes = .ok sig) ↔ IsFixedForm bytes)
    ∧ (∀ bytes sig, ofBytes bytes = .ok sig → sig.toBytes = bytes
      ∧ sig.r.toNat = BigEndian.decode (bytes.take 32)
      ∧ sig.s.toNat = BigEndian.decode (bytes.drop 32))
    ∧ (∀ sig, ofBytes sig.toBytes = .ok sig)
    ∧ Set.BijOn toBytes Set.univ {bytes | IsFixedForm bytes}
    ∧ (∀ bytes, (events (ofBytes bytes)).length = 1
        ↔ bytes.length = 64 ∧ ∃ e, ofBytes bytes = .error e)
    ∧ (∀ bytes, ∀ event ∈ events (ofBytes bytes), event = ⟨"signature component out of range", []⟩)
    ∧ (∀ bytes, ofBytes bytes = ofWordBytes bytes)
    ∧ (∀ sig : Signature, sig.toBytes = sig.toWordBytes)
    ∧ ∀ bytes, (Logged.signatureOfBytes bytes).Tells (ofBytes bytes) := by
  refine ⟨fun bytes => ⟨fun ⟨_, h⟩ => isFixedForm_of_ofBytes h, fun h => ?_⟩, fun bytes sig h => ?_,
    ofBytes_toBytes, bijOn_toBytes, fun bytes => ?_, fun bytes event hevent => ?_,
    ofBytes_eq_ofWordBytes, toBytes_eq_toWordBytes, Logged.tells_signatureOfBytes⟩
  · obtain ⟨sig, rfl⟩ := exists_toBytes_eq h
    exact ⟨sig, ofBytes_toBytes sig⟩
  · obtain ⟨sig', rfl⟩ := exists_toBytes_eq (isFixedForm_of_ofBytes h)
    obtain rfl := Except.ok.inj ((ofBytes_toBytes sig').symm.trans h)
    exact ⟨rfl, (ofBytes_eq_ok_iff.1 h).2⟩
  · -- Of the two rejections only the one behind the test of the length reports.
    obtain ⟨hform, sig, -, hread⟩ | ⟨hform, hlength, hread⟩ | ⟨hform, hlength, hread⟩ :=
      ofBytes_cases bytes
    · rw [hread]
      exact iff_of_false Nat.zero_ne_one fun h => nomatch h.2
    · rw [hread]
      exact iff_of_true rfl ⟨hlength, _, rfl⟩
    · exact iff_of_false (by rw [hread]; decide) fun h => hlength h.1
  · rw [events_ofBytes] at hevent
    split_ifs at hevent with h
    · exact List.mem_singleton.1 hevent
    · exact absurd hevent List.not_mem_nil

/-- The largest scalar and the order, which is one more, stand in the front half. -/
theorem fixedForm_exact_order :
    ((∃ sig, ofBytes (BigEndian.encode 32 (Modulus.order.toNat - 1) ++ BigEndian.encode 32 0)
        = .ok sig)
      ∧ ¬ ∃ sig, ofBytes (BigEndian.encode 32 Modulus.order.toNat ++ BigEndian.encode 32 0)
        = .ok sig)
    ∧ (events (ofBytes (BigEndian.encode 32 Modulus.order.toNat ++ BigEndian.encode 32 0))).length
      = 1 := by
  obtain ⟨hread, -, -, -, hevents, -⟩ := fixedForm_exact
  refine ⟨⟨(hread _).2 (by decide +kernel), mt (hread _).1 (by decide +kernel)⟩,
    (hevents _).2 ⟨rfl, .componentOutOfRange, by decide +kernel⟩⟩

end Signature

end CurveSign
