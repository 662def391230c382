import CurveSign.Proofs.Der.Course
import CurveSign.Proofs.Der.Reasons

namespace CurveSign

/-!
# The log of a call

A call, step by step, reports in some steps and refuses in others.  It `Tells` if from every reader its
log is what its outcome says: empty if it returns or refuses in silence, and otherwise the event of its
reason, once.  Calls in sequence tell if each of them does (`Script.Tells.bind`), and so reading a
signature does (`Script.tells_signature`).
-/

namespace Der

/-- A single step that fails has met a fault, of which there is nothing to say. -/
theorem Step.event?_of_run_eq_error {α : Type} {r r' : Reader} {e : Rejection} (s : Step α)
    (h : s.toRead.run r = .error e r') : e.event? = none := by
  cases s with
  | peek => cases h
  | report event => cases h
  | remaining =>
    change (if r.position ≤ r.bytes.length then _ else throw _ : Read ℕ) r = _ at h
    split_ifs at h
    · cases h
    · cases h
      rfl
  | window count =>
    change (if r.position + count ≤ r.bytes.length then _ else throw _ : Read _) r = _ at h
    split_ifs at h
    · cases h
    · cases h
      rfl
  | advance count =>
    -- Moving forward reads the position, and then forms a sum that may be too large.
    have hget : (get : Read Reader).run r = .ok r r := rfl
    rw [toRead, Read.advance, Read.run_bind hget] at h
    by_cases hfits : r.position + count < Word.base
    · rw [Read.run_bind (Read.run_addWord hfits)] at h
      cases h
    · have hsum : (Read.addWord r.position count).run r = .error (.fault .overflow) r := by
        rw [Read.addWord, if_neg hfits]
        rfl
      rw [Read.run_bind_error hsum] at h
      cases h
      rfl

namespace Script

variable {α β : Type}

/-- From every reader the call reports what there is to say of its outcome, and nothing else. -/
def Tells (x : Script α) : Prop := ∀ r, x.log r = events (x.toRead.outcome r)

/-! ### Steps -/

theorem tells_done (a : α) : (done a).Tells := fun _ => rfl

/-- A refusal without a report tells a reason that has none. -/
theorem tells_refuse {e : Rejection} (he : e.event? = none) : (refuse e : Script α).Tells := by
  intro r
  show [] = e.event?.toList
  rw [he]
  rfl

/-- A refusal behind a report tells the reason with that event. -/
theorem tells_reject {event : Event} {e : Rejection} (he : e.event? = some event) :
    (reject event e : Script α).Tells := by
  intro r
  show [event] = e.event?.toList
  rw [he]
  rfl

/-- A single step tells, unless it is a report. -/
theorem tells_take {s : Step α} (hlog : s.log = []) : (take s).Tells := by
  intro r
  rw [toRead_take, Read.outcome]
  cases hrun : s.toRead.run r with
  | ok a r' =>
    simp only [take, log, hrun, hlog]
    rfl
  | error e r' =>
    simp only [take, log, hrun, events, s.event?_of_run_eq_error hrun]
    rfl

/-- What a run of two calls reports: what the first does, and what the second does if it is reached. -/
theorem log_bind (x : Script α) (f : α → Script β) (r : Reader) :
    (x >>= f).log r = x.log r ++ match x.toRead.run r with
      | .ok a r' => (f a).log r'
      | .error _ _ => [] := by
  induction x generalizing r with
  | done a => rfl
  | refuse e => rfl
  | step s next ih =>
    show (step s fun b => next b >>= f).log r = (step s next).log r
      ++ match (s.toRead >>= fun b => (next b).toRead).run r with
        | .ok a r' => (f a).log r'
        | .error _ _ => []
    -- A step that fails ends both calls before anything else is reported.
    cases hrun : s.toRead.run r with
    | ok b r' => simp only [log, hrun, ih b r', Read.run_bind hrun, List.append_assoc]
    | error e r' => simp only [log, hrun, Read.run_bind_error hrun, List.append_nil]

/-- **Calls in sequence**: the second is reached only if the first returns, with nothing in the log. -/
theorem Tells.bind {x : Script α} {f : α → Script β} (hx : x.Tells) (hf : ∀ a, (f a).Tells) :
    (x >>= f).Tells := by
  intro r
  have hlog := hx r
  rw [log_bind, toRead_bind]
  unfold Read.outcome at hlog ⊢
  -- Where the first part refuses, the second one is not run and reports nothing.
  cases hrun : x.toRead.run r with
  | ok a r' =>
    rw [hrun] at hlog
    rw [hlog, Read.run_bind hrun]
    exact hf a r'
  | error e r' =>
    rw [hrun] at hlog
    rw [hlog, Read.run_bind_error hrun]
    exact List.append_nil _

/-- Both sides of a test tell. -/
theorem Tells.ite {c : Prop} [Decidable c] {x y : Script α} (hx : x.Tells) (hy : y.Tells) :
    (if c then x else y).Tells := by
  by_cases hc : c
  · rw [if_pos hc]
    exact hx
  · rw [if_neg hc]
    exact hy

theorem tells_addWord (a b : ℕ) : (addWord a b).Tells :=
  (tells_done _).ite (tells_refuse rfl)

/-- An index outside the bytes is a fault. -/
theorem tells_byteAt (content : List UInt8) (index : ℕ) : (byteAt content index).Tells := by
  unfold byteAt
  cases content[index]? with
  | none => exact tells_refuse rfl
  | some b => exact tells_done b

/-! ### Calls -/

/-- A byte that is missing is refused in silence. -/
theorem tells_nextByte : nextByte.Tells := by
  refine (tells_take rfl).bind fun b => ?_
  cases b with
  | none => exact tells_refuse rfl
  | some b => exact tells_done b

theorem tells_byte : byte.Tells :=
  tells_nextByte.bind fun b => (tells_take rfl).bind fun _ => tells_done b

/-- Bytes that are missing are refused in silence. -/
theorem tells_slice (count : ℕ) : (slice count).Tells := by
  refine (tells_take rfl).bind fun left => (tells_refuse rfl).ite ?_
  exact (tells_take rfl).bind fun content => (tells_take rfl).bind fun _ => tells_done content

/-- The octets of a length, by induction on their number. -/
theorem tells_lengthOctets (octetsLeft length : ℕ) : (lengthOctets octetsLeft length).Tells := by
  induction octetsLeft generalizing length with
  | zero => exact tells_done length
  | succ octetsLeft ih =>
    refine tells_nextByte.bind fun octet => (tells_addWord _ _).bind fun bound => ?_
    refine (tells_take rfl).bind fun left => (tells_reject rfl).ite ?_
    exact (tells_take rfl).bind fun _ => ih _

/-- The refusals of a long length are reported. -/
theorem tells_longLength (octets : ℕ) : (longLength octets).Tells := by
  refine (tells_take rfl).bind fun left => (tells_take rfl).bind fun first => ?_
  refine (tells_reject rfl).ite ((tells_reject rfl).ite ((tells_reject rfl).ite ?_))
  exact (tells_lengthOctets octets 0).bind fun length => (tells_reject rfl).ite (tells_done length)

/-- Reading a length reports what it is refused for. -/
theorem tells_length : length.Tells := by
  refine tells_byte.bind fun b => (tells_reject rfl).ite ((tells_done _).ite ?_)
  exact (tells_reject rfl).ite (tells_longLength _)

/-- The refusals of superfluous padding are reported. -/
theorem tells_checkPadding (content : List UInt8) (first : UInt8) :
    (checkPadding content first).Tells := by
  refine (tells_done ()).ite ((tells_byteAt content 1).bind fun second => ?_)
  exact (tells_reject rfl).ite ((tells_reject rfl).ite (tells_done ()))

/-- Content that is no scalar is not refused. -/
theorem tells_scalarOfContent (content : List UInt8) (first : UInt8) :
    (scalarOfContent content first).Tells := by
  refine (tells_done 0).ite ?_
  unfold scalarOfBytes
  cases (BigEndian.padLeft? 32 _).bind Word256.ofBytes? with
  | none => exact tells_refuse rfl
  | some w => exact tells_done _

/-- Reading an integer reports what it is refused for. -/
theorem tells_integer : integer.Tells := by
  refine (tells_take rfl).bind fun tag => (tells_reject rfl).ite ?_
  refine (tells_take rfl).bind fun _ => tells_length.bind fun length => ?_
  refine (tells_take rfl).bind fun left => (tells_reject rfl).ite ?_
  refine (tells_slice length).bind fun content => (tells_byteAt content 0).bind fun first => ?_
  exact (tells_checkPadding content first).bind fun _ => tells_scalarOfContent content first

/-- **Reading a signature** reports what it is refused for, and nothing else. -/
theorem tells_signature : signature.Tells := by
  refine tells_byte.bind fun tag => (tells_reject rfl).ite ?_
  refine tells_length.bind fun length => ?_
  refine (tells_take rfl).bind fun left => (tells_reject rfl).ite ?_
  refine tells_integer.bind fun r => tells_integer.bind fun s => ?_
  exact (tells_take rfl).bind fun left => (tells_reject rfl).ite (tells_done (r, s))

end Script

end Der

end CurveSign
