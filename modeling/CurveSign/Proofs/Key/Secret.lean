import CurveSign.Proofs.Bytes.FixedWidth
import CurveSign.Proofs.Key.Signing
import CurveSign.Proofs.Log

namespace CurveSign

/-!
# Secret keys

A signing key is read from exactly the 32 bytes that spell a number in `[1, n)`, and written as them
again (`SigningKey.ofBytes_eq_ok_iff`, `SigningKey.exists_ofBytes_eq_ok_iff`).  Since `n` is the order of
the base point, the multiple by such a number is never the identity, and different numbers have different
multiples (`SigningKey.verifyingKey_inj`).  Random keys skip the draws that are no secrets
(`SigningKey.random?_append`), so the first secret among the draws is the one that is taken
(`SigningKey.ofBytes_random?_exact`).
-/

variable {d : Scalar} {w : Word256} {bytes : List UInt8} {e : Rejection}

/-- Exactly 32 bytes that spell a number in `[1, n)`. -/
structure IsSecretForm (bytes : List UInt8) : Prop where
  length_eq : bytes.length = 32
  one_le : 1 ≤ BigEndian.decode bytes
  lt_order : BigEndian.decode bytes < Modulus.order.toNat

namespace SigningKey

variable {key key' : SigningKey}

/-! ### Keys by their secrets -/

/-- There is one key for a secret. -/
theorem ext_secret (h : key.secret = key'.secret) : key = key' := by
  obtain ⟨d, publicKey, hd, hpublic⟩ := key
  obtain ⟨d', publicKey', hd', hpublic'⟩ := key'
  obtain rfl : d = d' := h
  -- Both verifying keys are computed from the secret.
  obtain rfl := Except.ok.inj (hpublic.symm.trans hpublic')
  rfl

/-- Every scalar but zero is the secret of a key: its multiple of the base point is not the identity. -/
theorem exists_secret_eq (hd : d ≠ 0) : ∃ key : SigningKey, key.secret = d := by
  obtain ⟨x, y, hpoint, -, -⟩ := toAffine_multiplyBase hd
  have hzero : d.isZero = false := Residue.isZero_eq_false_iff.2 (mt Residue.toZMod_eq_zero_iff.1 hd)
  exact ⟨⟨d, ⟨x, y⟩, hzero, publicKey_eq_ok_iff.2 hpoint⟩, rfl⟩

theorem secret_nonzero (key : SigningKey) : key.secret ≠ 0 :=
  mt Residue.toZMod_eq_zero_iff.2 (Residue.isZero_eq_false_iff.1 key.secret_ne_zero)

/-- The verifying key of a key is the multiple of the base point by its secret. -/
theorem toAffine_verifyingKey (key : SigningKey) : key.verifyingKey.toAffine.OnCurve
    ∧ key.verifyingKey.toAffine.toGroup = key.secret.toZMod • basePoint := by
  have hstands := JacobianPoint.stands_multiplyBase key.secret
  rw [← publicKey_eq_ok_iff.1 key.publicKey_eq]
  exact ⟨hstands.onCurve_toAffine, hstands.toGroup_toAffine⟩

/-- **Different secrets have different verifying keys.** -/
theorem verifyingKey_inj : key.verifyingKey = key'.verifyingKey ↔ key = key' := by
  refine ⟨fun h => ?_, congrArg verifyingKey⟩
  have hgroup := key.toAffine_verifyingKey.2
  rw [h, key'.toAffine_verifyingKey.2] at hgroup
  have hsecret := smul_left_injective _ basePoint_ne_zero hgroup
  exact ext_secret (Residue.toZMod_inj.1 hsecret.symm)

/-! ### Reading a secret -/

/-- The key of a scalar is the key with that secret. -/
theorem ofScalar_eq_ok_iff : ofScalar d = .ok key ↔ key.secret = d := by
  constructor
  · intro h
    unfold ofScalar at h
    split_ifs at h
    split at h
    · obtain rfl := Except.ok.inj h
      rfl
    · exact nomatch h
  · rintro rfl
    unfold ofScalar
    rw [dif_pos key.secret_ne_zero]
    split
    · exact congrArg Except.ok (ext_secret rfl)
    · -- The key carries the equation of its verifying key.
      rename_i hpublic
      exact nomatch hpublic.symm.trans key.publicKey_eq

/-- The only scalar that is refused is zero: the multiple by another is not the identity. -/
theorem eq_of_ofScalar_eq_error (h : ofScalar d = .error e) : e = .secretOutOfRange := by
  by_cases hd : d = 0
  · obtain rfl := hd
    exact (Except.error.inj h).symm
  · obtain ⟨key, hkey⟩ := exists_secret_eq hd
    exact nomatch h.symm.trans (ofScalar_eq_ok_iff.2 hkey)

/-- The key of a number is the key whose secret is the number, which must be below the order. -/
theorem ofWord256_eq_ok_iff :
    ofWord256 w = .ok key ↔ Residue.ofWord256? w = some key.secret := by
  unfold ofWord256
  cases (Residue.ofWord256? w : Option Scalar) with
  | none => exact ⟨nofun, nofun⟩
  | some d =>
    rw [Option.some_inj, eq_comm (a := d)]
    exact ofScalar_eq_ok_iff

/-- A number is refused for being out of range. -/
theorem eq_of_ofWord256_eq_error (h : ofWord256 w = .error e) : e = .secretOutOfRange := by
  unfold ofWord256 at h
  split at h
  · exact eq_of_ofScalar_eq_error h
  · exact (Except.error.inj h).symm

theorem ofBytes_toBytes (w : Word256) : ofBytes w.toBytes = ofWord256 w := by
  rw [ofBytes, w.ofBytes?_toBytes]

/-- **A key is read** from its own bytes and from no others. -/
theorem ofBytes_eq_ok_iff : ofBytes bytes = .ok key ↔ bytes = key.toBytes := by
  have hbytes : bytes = key.toBytes ↔ Residue.ofBytes? bytes = some key.secret :=
    Residue.ofBytes?_eq_some_iff_toBytes.symm
  rw [hbytes]
  unfold ofBytes Residue.ofBytes?
  cases Word256.ofBytes? bytes with
  | none => exact ⟨nofun, nofun⟩
  | some w => exact ofWord256_eq_ok_iff

/-- Bytes are refused for their length or for their number. -/
theorem eq_of_ofBytes_eq_error (h : ofBytes bytes = .error e) :
    e = .secretLength ∨ e = .secretOutOfRange := by
  unfold ofBytes at h
  split at h
  · exact .inr (eq_of_ofWord256_eq_error h)
  · exact .inl (Except.error.inj h).symm

/-- Bytes are read and refused in silence. -/
theorem events_ofBytes (bytes : List UInt8) : events (ofBytes bytes) = [] := by
  cases h : ofBytes bytes with
  | ok key => rfl
  | error e => obtain rfl | rfl := eq_of_ofBytes_eq_error h <;> rfl

/-- What the run that reads a key returns. -/
def fields (key : SigningKey) : Scalar × VerifyingKey := (key.secret, key.verifyingKey)

/-- The fields of a key that is made from a secret. -/
theorem map_fields_ofScalar (d : Scalar) : (ofScalar d).map fields
    = if d.isZero = false then (publicKey d >>= fun key => .ok (d, key))
      else .error .secretOutOfRange := by
  by_cases hd : d = 0
  · obtain rfl := hd
    rfl
  · obtain ⟨key, rfl⟩ := exists_secret_eq hd
    rw [ofScalar_eq_ok_iff.2 rfl, if_pos key.secret_ne_zero, key.publicKey_eq, ok_bind]
    rfl

/-- Reading a key reports what the key is refused for. -/
theorem tells_secretOfBytes (bytes : List UInt8) :
    (Logged.secretOfBytes bytes).Tells ((ofBytes bytes).map fields) := by
  unfold Logged.secretOfBytes ofBytes
  cases Word256.ofBytes? bytes with
  | none => exact Logged.tells_refuse rfl
  | some w =>
    dsimp only
    unfold ofWord256
    cases (Residue.ofWord256? w : Option Scalar) with
    | none => exact Logged.tells_refuse rfl
    | some d =>
      dsimp only
      -- The key of the scalar is built in the same order: zero is refused, then the point is taken.
      rw [map_fields_ofScalar]
      refine Logged.Tells.ite ?_ (Logged.tells_refuse rfl)
      exact (Logged.tells_keyOfAffine _).bind fun key => Logged.tells_pure (d, key)

/-- The run reports nothing: bytes are refused in silence, and no secret has the identity for its point. -/
theorem log_secretOfBytes (bytes : List UInt8) : (Logged.secretOfBytes bytes).log = [] := by
  rw [(tells_secretOfBytes bytes).log_eq, events_map, events_ofBytes]

/-- The bytes of a key spell its secret. -/
theorem isSecretForm_toBytes (key : SigningKey) : IsSecretForm key.toBytes := by
  have hnumber : BigEndian.decode key.toBytes = key.secret.toNat := key.secret.decode_toBytes
  have hpos : key.secret.toNat ≠ 0 := Residue.toNat_inj.not.2 key.secret_nonzero
  refine ⟨key.secret.length_toBytes, ?_, ?_⟩
  · rw [hnumber]
    exact Nat.one_le_iff_ne_zero.2 hpos
  · rw [hnumber]
    exact key.secret.toNat_lt

/-- **The secret forms are the bytes of keys.** -/
theorem exists_ofBytes_eq_ok_iff : (∃ key, ofBytes bytes = .ok key) ↔ IsSecretForm bytes := by
  constructor
  · rintro ⟨key, hkey⟩
    rw [ofBytes_eq_ok_iff.1 hkey]
    exact key.isSecretForm_toBytes
  · intro h
    obtain ⟨d, hd, hnumber⟩ := Residue.exists_toBytes_eq h.length_eq h.lt_order
    -- The form excludes zero, the one scalar without a key.
    have hne : d ≠ 0 := by
      have hone := h.one_le
      rw [← Residue.toNat_inj.ne, hnumber, Residue.toNat_zero]
      omega
    obtain ⟨key, rfl⟩ := exists_secret_eq hne
    exact ⟨key, ofBytes_eq_ok_iff.2 hd.symm⟩

/-- The key has the number of the bytes for its secret and the multiple of the base point by that number,
    which is not the identity, for its point. -/
structure SpelledBy (key : SigningKey) (bytes : List UInt8) : Prop where
  toBytes_eq : key.toBytes = bytes
  secret_eq : key.secret.toNat = BigEndian.decode bytes
  onCurve : key.verifyingKey.toAffine.OnCurve
  point_eq : key.verifyingKey.toAffine.toGroup = BigEndian.decode bytes • basePoint
  point_ne_zero : BigEndian.decode bytes • basePoint ≠ 0

/-- What is read from bytes is spelled by them. -/
theorem spelledBy_of_ofBytes (h : ofBytes bytes = .ok key) : key.SpelledBy bytes := by
  have hbytes := ofBytes_eq_ok_iff.1 h
  have hnumber : key.secret.toNat = BigEndian.decode bytes := by
    rw [hbytes]
    exact key.secret.decode_toBytes.symm
  obtain ⟨hcurve, hgroup⟩ := key.toAffine_verifyingKey
  rw [Residue.toZMod, natCast_smul, hnumber] at hgroup
  refine ⟨hbytes.symm, hnumber, hcurve, hgroup, ?_⟩
  rw [← hnumber, ← natCast_smul]
  exact mt (smul_eq_zero_iff' basePoint_ne_zero).1 (Residue.isZero_eq_false_iff.1 key.secret_ne_zero)

/-! ### Random keys -/

variable {draw : Word256} {before : List Word256}

/-- A draw that is no secret is skipped. -/
theorem random?_cons_of_not (h : ¬ IsSecretForm draw.toBytes) (draws : List Word256) :
    random? (draw :: draws) = random? draws := by
  rw [random?]
  cases hdraw : ofWord256 draw with
  | ok key => exact absurd (exists_ofBytes_eq_ok_iff.1 ⟨key, (ofBytes_toBytes draw).trans hdraw⟩) h
  | error e => rfl

/-- A secret ends the draws. -/
theorem random?_cons_of_ofBytes (h : ofBytes draw.toBytes = .ok key) (draws : List Word256) :
    random? (draw :: draws) = some (key, draws) := by
  rw [ofBytes_toBytes] at h
  rw [random?, h]

/-- **Draws that are no secrets are skipped**, however many there are. -/
theorem random?_append (h : ∀ draw ∈ before, ¬ IsSecretForm draw.toBytes) (draws : List Word256) :
    random? (before ++ draws) = random? draws := by
  induction before with
  | nil => rfl
  | cons draw before ih =>
    rw [List.forall_mem_cons] at h
    rw [List.cons_append, random?_cons_of_not h.1, ih h.2]

/-- The first `count` draws of an endless sequence. -/
def firstDraws (draws : ℕ → Word256) (count : ℕ) : List Word256 := (List.range count).map draws

/-- The draws up to one of them, and those behind it. -/
theorem firstDraws_eq_append (draws : ℕ → Word256) (i rest : ℕ) :
    firstDraws draws (i + (rest + 1))
      = firstDraws draws i ++ draws i :: (List.range rest).map fun j => draws (i + (j + 1)) := by
  rw [firstDraws, firstDraws, List.range_add, List.map_append, List.map_map, List.range_succ_eq_map,
    List.map_cons, List.map_map]
  rfl

/-- Draws that come before the first secret are no secrets. -/
theorem not_of_mem_firstDraws {draws : ℕ → Word256} {i : ℕ}
    (h : ∀ j < i, ¬ IsSecretForm (draws j).toBytes) (hdraw : draw ∈ firstDraws draws i) :
    ¬ IsSecretForm draw.toBytes := by
  obtain ⟨j, hj, rfl⟩ := List.mem_map.1 hdraw
  exact h j (List.mem_range.1 hj)

/-- **The first secret is taken**, and the draws up to it are used up; fewer draws give no key. -/
theorem random?_firstDraws {draws : ℕ → Word256} {i : ℕ}
    (hbefore : ∀ j < i, ¬ IsSecretForm (draws j).toBytes) (h : ofBytes (draws i).toBytes = .ok key)
    (count : ℕ) : random? (firstDraws draws count)
      = if i < count then some (key, (firstDraws draws count).drop (i + 1)) else none := by
  split_ifs with hcount
  · obtain ⟨rest, rfl⟩ := Nat.exists_eq_add_of_lt hcount
    have hused : (firstDraws draws i ++ [draws i]).length = i + 1 := by
      rw [List.length_append, List.length_singleton, firstDraws, List.length_map, List.length_range]
    rw [add_assoc, firstDraws_eq_append, random?_append fun _ => not_of_mem_firstDraws hbefore,
      random?_cons_of_ofBytes h, List.append_cons, List.drop_left' hused]
  · -- All of the draws come before the first secret.
    have hnone : ∀ draw ∈ firstDraws draws count, ¬ IsSecretForm draw.toBytes := by
      intro draw
      exact not_of_mem_firstDraws fun j hj => hbefore j (by omega)
    have hskip := random?_append hnone []
    rwa [List.append_nil] at hskip

/-! ### Parsing and generation -/

/-- **Secret keys** are read from exactly the 32 bytes that spell a number in `[1, n)`, in silence also
    where they are refused, and never refused for the identity.  The key that is read spells the bytes,
    and other bytes have another verifying key.  Of an endless sequence of draws the first secret is
    taken, with the draws up to it and no others.  The log of the run that reads, which would hold a
    refusal of the identity, is empty. -/
theorem ofBytes_random?_exact :
    (∀ bytes : List UInt8,
      ((∃ key, ofBytes bytes = .ok key) ↔ IsSecretForm bytes)
      ∧ events (ofBytes bytes) = [] ∧ ofBytes bytes ≠ .error .identityKey
      ∧ ∀ key, ofBytes bytes = .ok key → key.SpelledBy bytes
        ∧ ∀ bytes' key', ofBytes bytes' = .ok key' → bytes' ≠ bytes →
          key'.verifyingKey ≠ key.verifyingKey)
    ∧ (∀ draws : ℕ → Word256, (∃ i, IsSecretForm (draws i).toBytes) →
      ∃ i key, IsSecretForm (draws i).toBytes ∧ (∀ j < i, ¬ IsSecretForm (draws j).toBytes)
      ∧ ofBytes (draws i).toBytes = .ok key
      ∧ ∀ count, random? (firstDraws draws count)
        = if i < count then some (key, (firstDraws draws count).drop (i + 1)) else none)
    ∧ ∀ bytes : List UInt8, (Logged.secretOfBytes bytes).log = []
      ∧ (Logged.secretOfBytes bytes).outcome = (ofBytes bytes).map fields := by
  refine ⟨?_, ?_, ?_⟩
  · intro bytes
    refine ⟨exists_ofBytes_eq_ok_iff, events_ofBytes bytes, ?_, ?_⟩
    · intro h
      obtain hlength | hrange := eq_of_ofBytes_eq_error h
      · exact nomatch hlength
      · exact nomatch hrange
    · intro key hkey
      refine ⟨spelledBy_of_ofBytes hkey, ?_⟩
      intro bytes' key' hkey' hne hsame
      -- Equal public keys have equal secrets, and those have the same bytes.
      obtain rfl := verifyingKey_inj.1 hsame
      exact hne ((ofBytes_eq_ok_iff.1 hkey').trans (ofBytes_eq_ok_iff.1 hkey).symm)
  · intro draws hsecret
    classical
    -- The first draw in range is the one that is taken.
    have hfirst := Nat.find_spec hsecret
    have hbefore : ∀ j < Nat.find hsecret, ¬ IsSecretForm (draws j).toBytes :=
      fun j hj => Nat.find_min hsecret hj
    obtain ⟨key, hkey⟩ := exists_ofBytes_eq_ok_iff.2 hfirst
    exact ⟨_, key, hfirst, hbefore, hkey, random?_firstDraws hbefore hkey⟩
  · intro bytes
    exact ⟨log_secretOfBytes bytes, (tells_secretOfBytes bytes).outcome_eq⟩

/-- Zero, the order, one, and zero from there on. -/
def drawsToOne : ℕ → Word256
  | 1 => Modulus.orderWord
  | 2 => Word256.one
  | _ => Word256.zero

/-- The bytes of one are read as the key whose point is the base point, and those of `n - 1` as another.
    The draws zero and `n` are no secrets, so one is taken as the third, and what is drawn next is left. -/
theorem ofBytes_random?_exact_unit :
    IsSecretForm Word256.one.toBytes
    ∧ ofBytes Word256.one.toBytes = .ok unit ∧ unit.SpelledBy Word256.one.toBytes
    ∧ (∃ last, ofBytes (-1 : Scalar).toBytes = .ok last ∧ last.verifyingKey ≠ unit.verifyingKey)
    ∧ ¬ IsSecretForm Modulus.orderWord.toBytes
    ∧ random? (firstDraws drawsToOne 4) = some (unit, [Word256.zero]) := by
  obtain ⟨hbytes, hdraws, -⟩ := ofBytes_random?_exact
  have hunit : ofBytes Word256.one.toBytes = .ok unit := ofBytes_eq_ok_iff.2 rfl
  have hone : IsSecretForm Word256.one.toBytes := (hbytes _).1.1 ⟨unit, hunit⟩
  have hzero : ¬ IsSecretForm Word256.zero.toBytes := by
    intro h
    have hle := h.one_le
    rw [Word256.decode_toBytes] at hle
    exact absurd hle (by decide)
  have horder : ¬ IsSecretForm Modulus.orderWord.toBytes := by
    intro h
    have hlt := h.lt_order
    rw [Word256.decode_toBytes] at hlt
    exact lt_irrefl _ hlt
  obtain ⟨hspelled, hother⟩ := (hbytes _).2.2.2 unit hunit
  refine ⟨hone, hunit, hspelled, ?_, horder, ?_⟩
  · obtain ⟨last, hlast⟩ := exists_secret_eq (d := -1) (by decide)
    have hread : ofBytes (-1 : Scalar).toBytes = .ok last := by
      rw [ofBytes_eq_ok_iff, ← hlast]
      rfl
    exact ⟨last, hread, hother _ last hread (by decide +kernel)⟩
  · obtain ⟨i, key, hfirst, hbefore, hkey, hrandom⟩ := hdraws drawsToOne ⟨2, hone⟩
    -- Zero and the order come first, and the third draw is a secret.
    obtain rfl : i = 2 := by
      rcases Nat.lt_trichotomy i 2 with hlt | heq | hgt
      · interval_cases i
        · exact absurd hfirst hzero
        · exact absurd hfirst horder
      · exact heq
      · exact absurd hone (hbefore 2 hgt)
    obtain rfl := Except.ok.inj (hkey.symm.trans hunit)
    exact hrandom 4

end SigningKey

end CurveSign
