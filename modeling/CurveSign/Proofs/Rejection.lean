import CurveSign.Rejection
import Mathlib.Data.List.Basic

namespace CurveSign

/-!
# Reasons in order

An operation that refuses an input reports the event of its reason, and reports nothing else.  It
`Follows` a list of checks if the first one that fails gives the event, and if it accepts where none
fails.  Following any list leaves no refusal without a reason (`Follows.oneReason`).
-/

variable {α : Type}

/-- What an operation with this outcome reports: nothing if it accepts, and the event of its reason, if
that has one, if it refuses. -/
def events : Except Rejection α → List Event
  | .ok _ => []
  | .error e => e.event?.toList

/-- An acceptance is silent, and a refusal has one event. -/
def OneReason (outcome : Except Rejection α) : Prop :=
  (events outcome).length = if outcome.isOk then 0 else 1

theorem oneReason_ok (a : α) : OneReason (.ok a : Except Rejection α) := rfl

/-- A reason with an event is one reason. -/
theorem oneReason_error {e : Rejection} {event : Event} (he : e.event? = some event) :
    OneReason (.error e : Except Rejection α) := by
  show e.event?.toList.length = 1
  rw [he]
  rfl

/-- A value is handed on to what follows. -/
theorem ok_bind {ε β : Type} (a : α) (f : α → Except ε β) : (Except.ok a >>= f) = f a := rfl

/-! ### Checks -/

/-- A check: when it fails, and what is then reported. -/
structure Check where
  fails : Prop
  event : Event

/-- The outcome is that of making the checks one after the other up to the first that fails, which is
then the one that is reported. -/
def Follows (outcome : Except Rejection α) : List Check → Prop
  | [] => ∃ a, outcome = .ok a
  | check :: rest =>
    (check.fails → events outcome = [check.event]) ∧ (¬ check.fails → Follows outcome rest)

section Follows

variable {outcome : Except Rejection α} {check : Check} {rest : List Check}

/-- A check that passes is followed by the rest. -/
theorem Follows.of_not_fails (h : ¬ check.fails) (hrest : Follows outcome rest) :
    Follows outcome (check :: rest) :=
  ⟨fun hfails => absurd hfails h, fun _ => hrest⟩

/-- A refusal follows the checks from the one that it reports on. -/
theorem follows_error {e : Rejection} (h : check.fails) (he : e.event? = some check.event) :
    Follows (.error e : Except Rejection α) (check :: rest) := by
  refine ⟨fun _ => ?_, fun hnot => absurd h hnot⟩
  show e.event?.toList = _
  rw [he]
  rfl

/-- A test in front of an operation is a check in front of its checks. -/
theorem follows_ite {c : Prop} [Decidable c] {e : Rejection} (hc : c ↔ check.fails)
    (he : e.event? = some check.event) (hrest : ¬ c → Follows outcome rest) :
    Follows (if c then .error e else outcome) (check :: rest) := by
  by_cases h : c
  · rw [if_pos h]
    exact follows_error (hc.1 h) he
  · rw [if_neg h]
    exact .of_not_fails (mt hc.2 h) (hrest h)

/-- **The first failing check** is the one that is reported; where none fails the input is accepted. -/
theorem Follows.first_failing {checks : List Check} (h : Follows outcome checks) :
    ((∀ c ∈ checks, ¬ c.fails) ∧ ∃ a, outcome = .ok a)
    ∨ ∃ before check after, checks = before ++ check :: after ∧ (∀ c ∈ before, ¬ c.fails)
      ∧ check.fails ∧ events outcome = [check.event] := by
  induction checks with
  | nil => exact .inl ⟨nofun, h⟩
  | cons check rest ih =>
    by_cases hcheck : check.fails
    · exact .inr ⟨[], check, rest, rfl, nofun, hcheck, h.1 hcheck⟩
    · obtain ⟨hnone, haccepts⟩ | ⟨before, later, after, rfl, hbefore, hlater⟩ := ih (h.2 hcheck)
      · exact .inl ⟨List.forall_mem_cons.2 ⟨hcheck, hnone⟩, haccepts⟩
      · have hbefore' : ∀ c ∈ check :: before, ¬ c.fails :=
          List.forall_mem_cons.2 ⟨hcheck, hbefore⟩
        exact .inr ⟨check :: before, later, after, rfl, hbefore', hlater⟩

/-- What is made of an acceptance changes no report. -/
theorem events_map {β : Type} (f : α → β) (outcome : Except Rejection α) :
    events (outcome.map f) = events outcome := by
  cases outcome <;> rfl

/-- What is made of an acceptance changes no check. -/
theorem Follows.map {β : Type} (f : α → β) {checks : List Check} (h : Follows outcome checks) :
    Follows (outcome.map f) checks := by
  induction checks with
  | nil =>
    obtain ⟨a, rfl⟩ := h
    exact ⟨f a, rfl⟩
  | cons check checks ih =>
    exact ⟨fun hfails => (events_map f outcome).trans (h.1 hfails), fun hnot => ih (h.2 hnot)⟩

/-- **Following checks** leaves no refusal without its one reason. -/
theorem Follows.oneReason {checks : List Check} (h : Follows outcome checks) :
    OneReason outcome := by
  obtain ⟨-, a, rfl⟩ | ⟨_, check, _, -, -, -, hevents⟩ := h.first_failing
  · exact oneReason_ok a
  · cases outcome with
    | ok a => exact nomatch hevents
    | error e =>
      show (events (.error e : Except Rejection α)).length = 1
      rw [hevents]
      rfl

end Follows

end CurveSign
