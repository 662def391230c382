import CurveSign.Rejection

namespace CurveSign

/-!
# Register programs

A program is a list of steps over numbered registers.  Each step reads registers and gives one
answer; an answer that holds an element puts it into the next register, and any other answer puts
the default element there.
-/

/-- What a step answers. -/
inductive Answer (α : Type)
  | element (value : α)
  | absent
  | truth (value : Bool)
  | order (value : Ordering)
  | text (value : String)
  | refused (reason : Rejection)

/-- The element that the answer leaves in its register. -/
def Answer.register {α : Type} (default : α) : Answer α → α
  | element value => value
  | _ => default

/-- The element that the answer holds, if it holds one, has the property. -/
def Answer.Satisfies {α : Type} (P : α → Prop) : Answer α → Prop
  | element value => P value
  | _ => True

/-- A register has what answers and the default have. -/
theorem Answer.Satisfies.register {α : Type} {P : α → Prop} {default : α} {answer : Answer α}
    (h : answer.Satisfies P) (hdefault : P default) : P (answer.register default) := by
  cases answer with
  | element value => exact h
  | _ => exact hdefault

/-- The answer with its element in another form. -/
def Answer.map {α β : Type} (f : α → β) : Answer α → Answer β
  | element value => element (f value)
  | absent => absent
  | truth value => truth value
  | order value => order value
  | text value => text value
  | refused reason => refused reason

theorem Answer.register_map {α β : Type} (f : α → β) (default : α) (answer : Answer α) :
    (answer.map f).register (f default) = f (answer.register default) := by
  cases answer <;> rfl

/-- The answer for an element that may be missing. -/
def Answer.ofOption {α : Type} : Option α → Answer α
  | some value => element value
  | none => absent

theorem Answer.map_ofOption {α β : Type} (f : α → β) (result : Option α) :
    (ofOption result).map f = ofOption (result.map f) := by
  cases result <;> rfl

/-- It is enough that the element, if there is one, has the property. -/
theorem Answer.satisfies_ofOption {α : Type} {P : α → Prop} {result : Option α}
    (h : ∀ value, result = some value → P value) : (ofOption result).Satisfies P := by
  cases result with
  | none => trivial
  | some value => exact h value rfl

/-- The answers of the steps in order, given the registers filled so far. -/
def runProgram {α σ : Type} (default : α) (step : (Nat → α) → σ → Answer α) :
    List σ → List α → List (Answer α)
  | [], _ => []
  | s :: rest, registers =>
    let answer := step (fun i => registers.getD i default) s
    answer :: runProgram default step rest (registers ++ [answer.register default])

/-- **What each step keeps, a run keeps**: a property of the default and of the registers at the start,
which every step passes on from the registers to its answer, belongs to all answers. -/
theorem satisfies_of_mem_runProgram {α σ : Type} {P : α → Prop} {default : α}
    {step : (Nat → α) → σ → Answer α} (hdefault : P default)
    (hstep : ∀ get s, (∀ i, P (get i)) → (step get s).Satisfies P) {steps : List σ}
    {registers : List α} (hregisters : ∀ a ∈ registers, P a) {answer : Answer α}
    (h : answer ∈ runProgram default step steps registers) : answer.Satisfies P := by
  induction steps generalizing registers with
  | nil => exact nomatch h
  | cons s rest ih =>
    have hget : ∀ i, P (registers.getD i default) := by
      intro i
      rw [List.getD_eq_getElem?_getD]
      cases hi : registers[i]? with
      | none => exact hdefault
      | some a => exact hregisters a (List.mem_of_getElem? hi)
    have hanswer := hstep _ s hget
    rw [runProgram, List.mem_cons] at h
    rcases h with rfl | h
    · exact hanswer
    · -- The rest runs with one more register, which holds the answer or the default.
      refine ih ?_ h
      intro a ha
      rw [List.mem_append, List.mem_singleton] at ha
      rcases ha with ha | rfl
      · exact hregisters a ha
      · exact hanswer.register hdefault

/-- **What each step translates, a run translates**: if every step answers on registers in another form
with its answer in that form, then so does a program. -/
theorem map_runProgram {α β σ : Type} {f : α → β} {default : α} {step : (Nat → α) → σ → Answer α}
    {step' : (Nat → β) → σ → Answer β}
    (hstep : ∀ get s, (step get s).map f = step' (fun i => f (get i)) s) (steps : List σ)
    (registers : List α) :
    (runProgram default step steps registers).map (Answer.map f)
      = runProgram (f default) step' steps (registers.map f) := by
  induction steps generalizing registers with
  | nil => rfl
  | cons s rest ih =>
    -- A register that is missing is the default in either form.
    have hget : (fun i => f (registers.getD i default))
        = fun i => (registers.map f).getD i (f default) := by
      funext i
      rw [List.getD_eq_getElem?_getD, List.getD_eq_getElem?_getD, List.getElem?_map]
      cases registers[i]? <;> rfl
    have hanswer := hstep (fun i => registers.getD i default) s
    rw [hget] at hanswer
    rw [runProgram, runProgram, List.map_cons, ih, List.map_append, List.map_singleton, ← hanswer,
      Answer.register_map]

end CurveSign
