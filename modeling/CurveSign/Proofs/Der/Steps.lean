import CurveSign.Der.Reader
import Mathlib.Algebra.Group.Nat.Defs

namespace CurveSign

/-!
# Steps of a reader

What one step does to a reader whose position is inside its bytes (`Reader.Sound`), told by the bytes
that it has not yet read: a successful step returns something from their front, and leaves the reader
after it (`Reader.skip`).
-/

namespace Der

namespace Reader

/-- The position is inside the bytes, which are few enough for sums of positions to be words. -/
structure Sound (r : Reader) : Prop where
  position_le : r.position ≤ r.bytes.length
  length_lt : r.bytes.length < 2 ^ 56

/-- The reader `count` bytes later. -/
def skip (r : Reader) (count : Nat) : Reader := { r with position := r.position + count }

/-- Skipping bytes drops them from those that are left. -/
@[simp] theorem unread_skip (r : Reader) (count : Nat) :
    (r.skip count).unread = r.unread.drop count := by
  rw [unread, unread, List.drop_drop]
  rfl

/-- Skipping twice is skipping the sum. -/
@[simp] theorem skip_skip (r : Reader) (count count' : Nat) :
    (r.skip count).skip count' = r.skip (count + count') := by
  simp only [skip, Nat.add_assoc]

theorem length_unread (r : Reader) : r.unread.length = r.bytes.length - r.position :=
  List.length_drop

/-- Skipping bytes that are there keeps a reader sound. -/
theorem Sound.skip {r : Reader} (h : r.Sound) {count : Nat} (hcount : count ≤ r.unread.length) :
    (r.skip count).Sound := by
  have hposition := h.position_le
  rw [length_unread] at hcount
  refine ⟨?_, h.length_lt⟩
  show r.position + count ≤ r.bytes.length
  omega

/-- A reader in front of some bytes, after them. -/
theorem Sound.skip_append {r : Reader} (h : r.Sound) {front back : List UInt8}
    (hunread : r.unread = front ++ back) :
    (r.skip front.length).Sound ∧ (r.skip front.length).unread = back := by
  have hcount : front.length ≤ r.unread.length := by
    simp [hunread]
  refine ⟨h.skip hcount, ?_⟩
  rw [unread_skip, hunread, List.drop_left]

/-- A reader in front of a byte, after it. -/
theorem Sound.skip_one {r : Reader} (h : r.Sound) {b : UInt8} {rest : List UInt8}
    (hunread : r.unread = b :: rest) : (r.skip 1).Sound ∧ (r.skip 1).unread = rest :=
  h.skip_append (show r.unread = [b] ++ rest from hunread)

theorem sound_start {bytes : List UInt8} (h : bytes.length < 2 ^ 56) : (start bytes).Sound :=
  ⟨Nat.zero_le _, h⟩

@[simp] theorem unread_start (bytes : List UInt8) : (start bytes).unread = bytes := rfl

end Reader

namespace Read

variable {α β : Type} {r r' : Reader}

theorem run_pure (a : α) : (pure a : Read α).run r = .ok a r := rfl

/-- A step that succeeds hands its result and its reader on. -/
theorem run_bind {x : Read α} {a : α} (h : x.run r = .ok a r') (f : α → Read β) :
    (x >>= f).run r = (f a).run r' := by
  show EStateM.bind x f r = f a r'
  rw [EStateM.bind, show x r = .ok a r' from h]

/-- A step that fails ends the run with its reason and its reader. -/
theorem run_bind_error {x : Read α} {e : Rejection} (h : x.run r = .error e r') (f : α → Read β) :
    (x >>= f).run r = .error e r' := by
  show EStateM.bind x f r = _
  rw [EStateM.bind, show x r = .error e r' from h]

/-- A sound reader tells how many bytes are left. -/
theorem run_remaining (h : r.Sound) : remaining.run r = .ok r.unread.length r := by
  show (if r.position ≤ r.bytes.length then pure (r.bytes.length - r.position) else _ : Read _) r = _
  rw [if_pos h.position_le, r.length_unread]
  rfl

/-- Looking at the next byte leaves the reader where it is. -/
theorem run_peek : peek.run r = .ok r.unread.head? r := by
  show EStateM.Result.ok r.bytes[r.position]? r = _
  rw [Reader.unread, List.head?_drop]

theorem run_addWord {a b : Nat} (hfits : a + b < Word.base) : (addWord a b).run r = .ok (a + b) r := by
  rw [addWord, if_pos hfits]
  rfl

/-- A sound reader moves past bytes that are there. -/
theorem run_advance (h : r.Sound) {count : Nat} (hcount : count ≤ r.unread.length) :
    (advance count).run r = .ok () (r.skip count) := by
  have hposition := h.position_le
  have hlength := h.length_lt
  rw [r.length_unread] at hcount
  have hfits : r.position + count < Word.base := by
    rw [Word.base]
    omega
  exact run_bind (run_addWord hfits) _

/-- The byte in front can be moved past. -/
theorem run_advance_one (h : r.Sound) {b : UInt8} {rest : List UInt8}
    (hunread : r.unread = b :: rest) : (advance 1).run r = .ok () (r.skip 1) := by
  apply run_advance h
  simp [hunread]

/-- The next byte is the first of those that are left. -/
theorem run_nextByte {b : UInt8} {rest : List UInt8} (hunread : r.unread = b :: rest) :
    nextByte.run r = .ok b r := by
  have hpeek : peek.run r = .ok (some b) r := by
    rw [run_peek, hunread]
    rfl
  exact run_bind hpeek _

/-- At the end of the bytes there is no next one. -/
theorem run_nextByte_of_nil (hunread : r.unread = []) : nextByte.run r = .error .truncated r := by
  have hpeek : peek.run r = .ok none r := by
    rw [run_peek, hunread]
    rfl
  exact run_bind hpeek _

/-- Reading a byte returns it and moves past it. -/
theorem run_byte (h : r.Sound) {b : UInt8} {rest : List UInt8} (hunread : r.unread = b :: rest) :
    byte.run r = .ok b (r.skip 1) := by
  have hnext := run_nextByte hunread
  unfold byte
  rw [run_bind hnext, run_bind (run_advance_one h hunread), run_pure]

/-- Reading bytes returns them and moves past them. -/
theorem run_slice (h : r.Sound) {count : Nat} (hcount : count ≤ r.unread.length) :
    (slice count).run r = .ok (r.unread.take count) (r.skip count) := by
  unfold slice
  rw [run_bind (run_remaining h), if_neg (by omega)]
  have hget : (get : Read Reader).run r = .ok r r := rfl
  rw [run_bind hget, run_bind (run_advance h hcount), run_pure]
  rfl

/-- Looking at an index leaves the reader where it is. -/
theorem run_byteAt {content : List UInt8} {index : Nat} {b : UInt8} (h : content[index]? = some b) :
    (byteAt content index).run r = .ok b r := by
  rw [byteAt, h]
  rfl

/-! ### Success -/

/-- Two steps in sequence succeed if the first does and the second does after it. -/
theorem run_bind_eq_ok_iff {x : Read α} {f : α → Read β} {b : β} :
    (x >>= f).run r = .ok b r' ↔ ∃ a r₁, x.run r = .ok a r₁ ∧ (f a).run r₁ = .ok b r' := by
  cases hx : x.run r with
  | ok a r₁ =>
    rw [run_bind hx]
    refine ⟨fun h => ⟨a, r₁, rfl, h⟩, ?_⟩
    rintro ⟨_, _, heq, h⟩
    cases heq
    exact h
  | error e r₁ =>
    rw [run_bind_error hx]
    exact ⟨nofun, fun ⟨_, _, h, _⟩ => nomatch h⟩

/-- A test that refuses lets the rest succeed only if it does not apply. -/
theorem run_refuse_eq_ok_iff {c : Prop} [Decidable c] {e : Rejection} {x : Read α} {a : α} :
    (if c then throw e else x).run r = .ok a r' ↔ ¬ c ∧ x.run r = .ok a r' := by
  by_cases hc : c
  · rw [if_pos hc]
    exact ⟨nofun, fun h => absurd hc h.1⟩
  · rw [if_neg hc]
    exact ⟨fun h => ⟨hc, h⟩, fun h => h.2⟩

theorem run_pure_eq_ok_iff {a b : α} : (pure a : Read α).run r = .ok b r' ↔ a = b ∧ r = r' := by
  rw [run_pure, EStateM.Result.ok.injEq]

/-- A byte is read if and only if there is one. -/
theorem run_byte_eq_ok_iff (h : r.Sound) {b : UInt8} :
    byte.run r = .ok b r' ↔ ∃ rest, r.unread = b :: rest ∧ r.skip 1 = r' := by
  constructor
  · intro hrun
    -- Without a byte the reader refuses, so a success shows the first one.
    cases hunread : r.unread with
    | nil =>
      obtain ⟨_, _, hnext, _⟩ := run_bind_eq_ok_iff.1 hrun
      exact nomatch (run_nextByte_of_nil hunread).symm.trans hnext
    | cons b' rest =>
      rw [run_byte h hunread, EStateM.Result.ok.injEq] at hrun
      obtain ⟨rfl, hr⟩ := hrun
      exact ⟨rest, rfl, hr⟩
  · rintro ⟨rest, hunread, rfl⟩
    exact run_byte h hunread

end Read

end Der

end CurveSign
