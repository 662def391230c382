import CurveSign.Proofs.Der.Grammar
import CurveSign.Proofs.Der.Steps

namespace CurveSign

/-!
# Reading lengths

Reading a length succeeds exactly on the shortest definite form of one, and for a long form only if as
many bytes follow (`Der.Read.run_length_eq_ok_iff`).  In the loop over the octets the length so far
stays below the size of the input, so no bits are lost and no sum overflows
(`Der.Read.run_lengthOctets_succ`), and testing it after each octet refuses nothing that the test of the
complete length would not (`Der.Read.run_lengthOctets_eq_ok_iff`).
-/

namespace Der

namespace Read

variable {r r' : Reader}

/-! ### The octets of a long length -/

/-- One octet, for a length so far that leaves room for it. -/
theorem run_lengthOctets_succ (h : r.Sound) {octet : UInt8} {rest : List UInt8}
    (hunread : r.unread = octet :: rest) {octetsLeft length : ℕ} (hoctets : octetsLeft ≤ 8)
    (hlength : length + 1 < 2 ^ 56) :
    (lengthOctets (octetsLeft + 1) length).run r
      = if rest.length < 256 * length + octet.toNat + octetsLeft then
          .error (.lengthExceedsInput (256 * length + octet.toNat)) r
        else (lengthOctets octetsLeft (256 * length + octet.toNat)).run (r.skip 1) := by
  have hoctet := octet.toNat_lt
  -- The shift loses no bit, and the sum that is tested fits a machine word.
  have happend : appendOctet length octet = 256 * length + octet.toNat := by
    rw [appendOctet, Word.base]
    omega
  have hfits : 256 * length + octet.toNat + (octetsLeft + 1) < Word.base := by
    rw [Word.base]
    omega
  have hleft := run_remaining h
  rw [hunread, List.length_cons] at hleft
  rw [lengthOctets, run_bind (run_nextByte hunread)]
  dsimp only
  rw [happend, run_bind (run_addWord hfits), run_bind hleft]
  by_cases hlt : rest.length < 256 * length + octet.toNat + octetsLeft
  · rw [if_pos hlt, if_pos (by omega)]
    rfl
  · rw [if_neg hlt, if_neg (by omega), run_bind (run_advance_one h hunread)]

/-- Taking one octet more into a length so far. -/
theorem octets_value (length : ℕ) (octet : UInt8) (octets : List UInt8) :
    length * 256 ^ (octet :: octets).length + BigEndian.decode (octet :: octets)
      = (256 * length + octet.toNat) * 256 ^ octets.length + BigEndian.decode octets := by
  rw [BigEndian.decode_cons, List.length_cons, pow_succ]
  ring

/-- The octets are read if the complete length fits the bytes after them. -/
theorem run_lengthOctets_eq_ok_iff (h : r.Sound) {octetsLeft length m : ℕ} (hoctets : octetsLeft ≤ 8)
    (hlength : length + 1 < 2 ^ 56) :
    (lengthOctets octetsLeft length).run r = .ok m r'
      ↔ octetsLeft ≤ r.unread.length
        ∧ length * 256 ^ octetsLeft + BigEndian.decode (r.unread.take octetsLeft) = m
        ∧ (octetsLeft ≠ 0 → m + octetsLeft ≤ r.unread.length) ∧ r.skip octetsLeft = r' := by
  -- The length so far and the reader change from octet to octet, so both are general.
  induction octetsLeft generalizing r length with
  | zero =>
    rw [lengthOctets, run_pure_eq_ok_iff, List.take_zero, BigEndian.decode_nil, pow_zero, mul_one, Nat.add_zero]
    exact ⟨fun hrun => ⟨Nat.zero_le _, hrun.1, absurd rfl, hrun.2⟩, fun hrun => ⟨hrun.2.1, hrun.2.2.2⟩⟩
  | succ octetsLeft ih =>
    cases hunread : r.unread with
    | nil =>
      refine ⟨fun hrun => ?_, fun hrun => absurd hrun.1 (Nat.not_succ_le_zero _)⟩
      rw [lengthOctets] at hrun
      obtain ⟨_, _, hnext, _⟩ := run_bind_eq_ok_iff.1 hrun
      exact nomatch (run_nextByte_of_nil hunread).symm.trans hnext
    | cons octet tail =>
      obtain ⟨hsound, htail⟩ := h.skip_one hunread
      have hsize := h.length_lt
      have hcount := r.length_unread
      rw [hunread, List.length_cons] at hcount
      have hvalue := octets_value length octet (tail.take octetsLeft)
      rw [run_lengthOctets_succ h hunread (by omega) hlength, List.take_succ_cons, List.length_cons]
      split_ifs with hlt
      · -- The complete length is at least the length so far.
        refine ⟨nofun, ?_⟩
        rintro ⟨hle, hm, hfit, _⟩
        have hfit' := hfit (Nat.succ_ne_zero _)
        rw [List.length_cons, List.length_take_of_le (Nat.le_of_succ_le_succ hle), hm] at hvalue
        have hgrows := Nat.le_mul_of_pos_right (256 * length + octet.toNat)
          (Nat.pow_pos (n := octetsLeft) (show 0 < 256 by decide))
        omega
      · rw [ih hsound (by omega) (by omega), htail, Reader.skip_skip, Nat.add_comm 1]
        constructor
        · rintro ⟨hle, hm, hfit, hr⟩
          rw [List.length_cons, List.length_take_of_le hle, hm] at hvalue
          refine ⟨Nat.succ_le_succ hle, hvalue, fun _ => ?_, hr⟩
          -- After the last octet the length so far is the complete one.
          rcases Nat.eq_zero_or_pos octetsLeft with rfl | hpos
          · rw [List.take_zero, BigEndian.decode_nil, pow_zero, mul_one] at hm
            omega
          · have hfit' := hfit hpos.ne'
            omega
        · rintro ⟨hle, hm, hfit, hr⟩
          have hle' := Nat.le_of_succ_le_succ hle
          have hfit' := hfit (Nat.succ_ne_zero _)
          rw [List.length_cons, List.length_take_of_le hle', hm] at hvalue
          exact ⟨hle', hvalue.symm, fun _ => by omega, hr⟩

/-- The octets of a long length that fits the input are few, and their number fits the first octet. -/
theorem toNat_longOctet {m : ℕ} (hlong : 128 ≤ m) (hfits : m < 2 ^ 56) :
    (UInt8.ofNat (128 + (BigEndian.shortest m).length)).toNat
        = 128 + (BigEndian.shortest m).length
      ∧ (BigEndian.shortest m).length ≠ 0 ∧ (BigEndian.shortest m).length ≤ 7 := by
  have hfew : (BigEndian.shortest m).length ≤ 7 :=
    BigEndian.length_shortest_le (hfits.trans_eq (by norm_num))
  refine ⟨?_, ?_, hfew⟩
  · rw [UInt8.toNat_ofNat']
    omega
  · rw [Ne, List.length_eq_zero_iff, BigEndian.shortest_eq_nil_iff]
    omega

/-- A long length is read if its octets are the shortest for it and as many bytes follow. -/
theorem run_longLength_eq_ok_iff (h : r.Sound) {octets m : ℕ} (hoctets : octets ≠ 0) :
    (longLength octets).run r = .ok m r'
      ↔ 128 ≤ m ∧ octets = (BigEndian.shortest m).length
        ∧ ∃ rest, r.unread = BigEndian.shortest m ++ rest ∧ m ≤ rest.length ∧ r.skip octets = r' := by
  unfold longLength
  rw [run_bind (run_remaining h), run_bind run_peek, run_refuse_eq_ok_iff, run_refuse_eq_ok_iff,
    run_refuse_eq_ok_iff, run_bind_eq_ok_iff]
  simp only [run_refuse_eq_ok_iff, run_pure_eq_ok_iff]
  constructor
  · rintro ⟨_, hhead, hwide, _, _, hrun, hlong, rfl, rfl⟩
    rw [run_lengthOctets_eq_ok_iff h (by omega) (by norm_num), Nat.zero_mul, Nat.zero_add] at hrun
    obtain ⟨hle, hvalue, hfit, hr⟩ := hrun
    -- The octets have no zero in front, so they are the shortest form of their number.
    have hshortest := BigEndian.eq_shortest_iff.2 ⟨hvalue, by rwa [List.head?_take, if_neg hoctets]⟩
    have hfit' := hfit hoctets
    refine ⟨by omega, ?_, r.unread.drop octets, ?_, ?_, hr⟩
    · rw [← hshortest, List.length_take_of_le hle]
    · rw [← hshortest, List.take_append_drop]
    · rw [List.length_drop]
      omega
  · rintro ⟨hlong, hlength, rest, hunread, hfit, hr⟩
    have hcount := congrArg List.length hunread
    rw [List.length_append, ← hlength] at hcount
    have hbytes := h.length_lt
    rw [Reader.length_unread] at hcount
    -- A number that fits the input takes at most seven octets.
    obtain ⟨_, _, hfew⟩ := toNat_longOctet hlong (by omega)
    have htake : r.unread.take octets = BigEndian.shortest m := by
      rw [hunread, hlength, List.take_left]
    refine ⟨?_, ?_, by omega, m, r', ?_, by omega, rfl, rfl⟩
    · rw [Reader.length_unread]
      omega
    · have hhead := BigEndian.head?_shortest m
      rwa [← htake, List.head?_take, if_neg hoctets] at hhead
    · rw [run_lengthOctets_eq_ok_iff h (by omega) (by norm_num), htake, BigEndian.decode_shortest,
        Nat.zero_mul, Nat.zero_add, Reader.length_unread]
      exact ⟨by omega, rfl, fun _ => by omega, hr⟩

/-! ### Lengths -/

/-- A first octet below 128 is the length. -/
theorem run_length_of_lt (h : r.Sound) {b : UInt8} {rest : List UInt8}
    (hunread : r.unread = b :: rest) (hb : b.toNat < 128) :
    length.run r = .ok b.toNat (r.skip 1) := by
  have hshort : b < 0x80 := UInt8.lt_iff_toNat_lt.2 hb
  have hreserved : b ≠ 0xFF := by
    rintro rfl
    exact absurd hb (by decide)
  unfold length
  rw [run_bind (run_byte h hunread), if_neg hreserved, if_pos hshort, run_pure]

/-- A first octet above 128 counts the octets, unless it is reserved. -/
theorem run_length_of_gt (h : r.Sound) {b : UInt8} {rest : List UInt8}
    (hunread : r.unread = b :: rest) (hb : 128 < b.toNat) (hreserved : b ≠ 0xFF) :
    length.run r = (longLength (b.toNat - 128)).run (r.skip 1) := by
  have hshort : ¬ b < 0x80 := by
    rw [UInt8.not_lt, UInt8.le_iff_toNat_le]
    exact hb.le
  have hindefinite : b ≠ 0x80 := by
    rintro rfl
    exact absurd hb (by decide)
  unfold length
  rw [run_bind (run_byte h hunread), if_neg hreserved, if_neg hshort, if_neg hindefinite]

/-- A length that is read starts with an octet that is neither reserved nor indefinite. -/
theorem first_of_run_length (h : r.Sound) {m : ℕ} (hrun : length.run r = .ok m r') :
    ∃ b rest, r.unread = b :: rest ∧ b ≠ 0xFF ∧ b.toNat ≠ 128 := by
  unfold length at hrun
  rw [run_bind_eq_ok_iff] at hrun
  obtain ⟨b, _, hbyte, hrun⟩ := hrun
  obtain ⟨rest, hunread, _⟩ := (run_byte_eq_ok_iff h).1 hbyte
  obtain ⟨hreserved, hrun⟩ := run_refuse_eq_ok_iff.1 hrun
  refine ⟨b, rest, hunread, hreserved, ?_⟩
  -- An indefinite length is refused behind the reserved one.
  intro hvalue
  obtain rfl : b = 0x80 := UInt8.toNat_inj.1 hvalue
  rw [if_neg (by decide), if_pos rfl] at hrun
  exact nomatch hrun

/-- **A length is read** exactly from its shortest definite form, and a long one only if as many bytes
    follow.  The bytes behind the form stay unread. -/
theorem run_length_eq_ok_iff (h : r.Sound) {m : ℕ} :
    length.run r = .ok m r'
      ↔ ∃ rest, r.unread = definiteLength m ++ rest ∧ (128 ≤ m → m ≤ rest.length)
        ∧ r.skip (definiteLength m).length = r' := by
  constructor
  · intro hrun
    obtain ⟨b, tail, hunread, hreserved, hindefinite⟩ := first_of_run_length h hrun
    obtain ⟨hsound, htail⟩ := h.skip_one hunread
    -- The first octet is the length, or it counts the octets of the length.
    rcases Nat.lt_or_gt_of_ne hindefinite with hlt | hgt
    · rw [run_length_of_lt h hunread hlt, EStateM.Result.ok.injEq] at hrun
      obtain ⟨rfl, rfl⟩ := hrun
      rw [definiteLength_of_lt hlt, UInt8.ofNat_toNat]
      exact ⟨tail, hunread, fun hlong => by omega, rfl⟩
    · rw [run_length_of_gt h hunread hgt hreserved, run_longLength_eq_ok_iff hsound (by omega),
        htail] at hrun
      obtain ⟨hlong, hoctets, rest, hrest, hfit, rfl⟩ := hrun
      have hb : UInt8.ofNat (128 + (BigEndian.shortest m).length) = b := by
        rw [← hoctets, Nat.add_sub_cancel' hgt.le, UInt8.ofNat_toNat]
      rw [definiteLength_of_le hlong, hb, hunread, hrest, List.length_cons, ← hoctets,
        Reader.skip_skip, Nat.add_comm]
      exact ⟨rest, rfl, fun _ => hfit, rfl⟩
  · rintro ⟨rest, hunread, hfit, rfl⟩
    rcases Nat.lt_or_ge m 128 with hlt | hlong
    · rw [definiteLength_of_lt hlt] at hunread ⊢
      have hvalue : (UInt8.ofNat m).toNat = m := by
        rw [UInt8.toNat_ofNat']
        omega
      rw [run_length_of_lt h hunread (by omega), hvalue]
      rfl
    · rw [definiteLength_of_le hlong] at hunread ⊢
      rw [List.cons_append] at hunread
      obtain ⟨hsound, htail⟩ := h.skip_one hunread
      have hrest := hfit hlong
      have hcount := congrArg List.length htail
      rw [Reader.length_unread, List.length_append] at hcount
      have hbytes := hsound.length_lt
      obtain ⟨hvalue, hsome, hfew⟩ := toNat_longOctet hlong (by omega)
      -- Seven octets at most are far from the reserved number.
      have hreserved : UInt8.ofNat (128 + (BigEndian.shortest m).length) ≠ 0xFF := by
        rw [Ne, ← UInt8.toNat_inj, hvalue]
        show ¬ _ = 255
        omega
      rw [run_length_of_gt h hunread (by omega) hreserved, hvalue, Nat.add_sub_cancel_left,
        run_longLength_eq_ok_iff hsound hsome, List.length_cons, Reader.skip_skip, Nat.add_comm]
      exact ⟨hlong, rfl, rest, htail, hrest, rfl⟩

end Read

end Der

end CurveSign
