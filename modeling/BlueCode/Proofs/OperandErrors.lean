import BlueCode.Proofs.AcceptedPrograms
import BlueCode.Proofs.Isolation

namespace BlueCode

open Loader (Slot)

theorem Loader.Slot.readable_of_writable {o : Operand} (h : Slot.accepts .writable o = true) :
    Slot.accepts .readable o = true := by
  cases o with
  | name s => exact h
  | _ => rfl

/-- The errors that are due to the operands of an instruction, whatever is stored anywhere. -/
def RunError.isOperandError : RunError → Bool
  | nameAsValue _ | missingOperand | notWritable _ => true
  | _ => false

theorem RunError.isInternal_of_isOperandError {e : RunError} (h : e.isOperandError = true) :
    e.isInternal = true := by
  unfold isOperandError at h
  split at h <;> first
    | rfl
    | cases h

theorem RunError.isOperandError_of_code {e : RunError} (h : e.code = "VAR-R008") :
    e.isOperandError = true := by
  unfold code at h
  split at h <;> first
    | rfl
    | exact absurd h (by decide)

/-- The computation does not fail because of an instruction's operands. -/
def Spared {α : Type} (x : Except RunError α) : Prop :=
  ∀ e, x = .error e → e.isOperandError = false

namespace Spared

variable {α β : Type}

theorem ok (a : α) : Spared (.ok a) := nofun

theorem error {e : RunError} (h : e.isOperandError = false) :
    Spared (.error e : Except RunError α) := by
  rintro _ ⟨⟩
  exact h

theorem bind {x : Except RunError α} {f : α → Except RunError β} (h : Spared x)
    (hf : ∀ a, Spared (f a)) : Spared (x >>= f) := by
  intro e he
  rcases bind_eq_error.1 he with hx | ⟨a, -, ha⟩
  · exact h e hx
  · exact hf a e ha

theorem map {x : Except RunError α} (h : Spared x) (f : α → β) : Spared (x.map f) := by
  cases x with
  | error e => exact error (h e rfl)
  | ok a => exact ok (f a)

theorem value (x : Except ValueError α) : Spared (x.mapError .value) := by
  cases x with
  | error e => exact error rfl
  | ok a => exact ok a

end Spared

namespace State

variable {settings : Settings} {image : Image}

theorem spared_cell (base : Nat) (offset : Int) : Spared (cell base offset) := by
  unfold cell
  split
  · exact .ok _
  · exact .error rfl

theorem spared_read (s : State) {o : Operand} (h : Slot.accepts .readable o = true) :
    Spared (s.read (some o)) := by
  cases o with
  | name name => exact absurd h Bool.false_ne_true
  | stackTop =>
    rw [read_stackTop]
    cases s.stack.get? s.stackPointer.toInt with
    | none => exact .error rfl
    | some v => exact .ok v
  | heap address =>
    rw [read_heap]
    apply (spared_cell _ _).bind
    intro cell
    cases s.heap.get? cell with
    | none => exact .error rfl
    | some v => exact .ok v
  | _ => exact .ok _

theorem spared_write (s : State) {o : Operand} (h : Slot.accepts .writable o = true) (v : Value) :
    Spared (s.write (some o) v) := by
  cases o with
  | reg r => exact .ok _
  | stackPointer => exact (Spared.value _).map _
  | stackTop => exact .ok _
  | heap address => exact (spared_cell _ _).bind fun _ => .ok _
  | _ => exact absurd h Bool.false_ne_true

theorem spared_push (s : State) (v : Value) : Spared (s.push v) := by
  unfold push
  split
  · exact .error rfl
  · exact .ok _

theorem spared_pop (s : State) : Spared s.pop := by
  unfold pop
  split
  · exact .error rfl
  · dsimp only
    split
    · exact .ok _
    · exact .error rfl

theorem spared_jump (s : State) (label : String) : Spared (s.jump label) := by
  unfold jump
  split
  · exact .ok _
  · exact .error rfl

theorem spared_leave (s : State) : Spared s.leave := by
  unfold leave
  split
  · exact .ok _
  · apply s.spared_pop.bind
    rintro ⟨v, popped⟩
    apply (Spared.value _).bind
    intro address
    split
    · exact .error rfl
    · exact .ok _

theorem spared_enter (s : State) (callee : Routine) : Spared (s.enter settings callee) := by
  unfold enter
  split
  · exact .error rfl
  · exact (spared_cell _ _).bind fun _ => (spared_cell _ _).bind fun _ => .ok _

theorem spared_effect (acc : Value) (b : Builtin) : Spared (effect settings acc b) := by
  intro e he
  have hnot : e.isInternal = false := Calls.Proper.effect_not_internal he
  cases hop : e.isOperandError with
  | false => rfl
  | true =>
    rw [RunError.isInternal_of_isOperandError hop] at hnot
    cases hnot

theorem spared_call (s : State) (name : String) : Spared (s.call settings image name) := by
  apply (s.spared_push _).bind
  intro pushed
  split
  · apply (spared_effect _ _).bind
    intro effect
    split
    · exact pushed.spared_pop.bind fun _ => .ok _
    · exact pushed.spared_pop.bind fun _ => .ok _
    · exact .ok _
  · split
    · exact (pushed.spared_enter _).bind fun _ => .ok _
    · exact .error rfl

end State

namespace Instruction.Formed

variable {settings : Settings} {image : Image} {i : Instruction}

/-- Running an instruction in the form that belongs to its operation does not fail because of its
operands. -/
theorem spared_execute (h : i.Formed) (s : State) : Spared (s.execute settings image i) := by
  obtain ⟨op, src, dst⟩ := i
  cases op with
  | mov =>
    obtain ⟨a, b, ha, hb, he⟩ := h.two_eq rfl
    cases he
    exact (s.spared_read ha).bind fun v =>
      (s.spared_write hb v).bind fun _ => .ok _
  | push =>
    obtain ⟨a, ha, he⟩ := h.one_eq rfl
    cases he
    exact (s.spared_read ha).bind fun v =>
      (s.spared_push v).bind fun _ => .ok _
  | pop =>
    obtain ⟨b, hb, he⟩ := h.one_eq rfl
    cases he
    exact s.spared_pop.bind fun popped =>
      (popped.2.spared_write hb popped.1).bind fun _ => .ok _
  | arith op =>
    obtain ⟨a, b, ha, hb, he⟩ := h.two_eq rfl
    cases he
    exact (s.spared_read ha).bind fun _ =>
      (s.spared_read (Slot.readable_of_writable hb)).bind fun _ => (Spared.value _).bind fun v =>
        (s.spared_write hb v).bind fun _ => .ok _
  | compare op =>
    obtain ⟨a, b, ha, hb, he⟩ := h.two_eq rfl
    cases he
    exact (s.spared_read ha).bind fun _ =>
      (s.spared_read hb).bind fun _ =>
        (Spared.value _).bind fun _ => .ok _
  | define => exact .ok _
  | call => exact s.spared_call _
  | ret => exact s.spared_leave
  | jump => exact (s.spared_jump _).bind fun _ => .ok _
  | jumpIfNot =>
    obtain ⟨a, b, ha, -, he⟩ := h.two_eq rfl
    cases he
    apply (s.spared_read ha).bind
    intro v
    apply (Spared.value _).bind
    intro n
    split
    · exact (s.spared_jump _).bind fun _ => .ok _
    · exact .ok _
  | label => exact .ok _

end Instruction.Formed

/-- No run of an image that comes from a text fails because of the operands of an instruction. -/
theorem isOperandError_of_load {text : String} {image : Image} (h : load text = .ok image)
    {settings : Settings} {fuel : Nat} {o : Outcome} {e : RunError}
    (hr : image.run settings fuel = some o) (he : o.result = .error e) :
    e.isOperandError = false := by
  unfold Image.run at hr
  split at hr
  · next main hmain =>
    obtain ⟨s, hs, hstep⟩ := State.exists_error (.start hmain) hr he
    obtain ⟨name, hf⟩ := hs.nested.exists_name List.mem_cons_self
    unfold State.step at hstep
    split at hstep
    · next i hi =>
      have shaped : i.Shaped := (shaped_of_load h hf).2 i (Array.mem_of_getElem? hi)
      exact shaped.formed.spared_execute s e hstep
    · exact s.spared_leave e hstep
  · cases hr
    cases he
    rfl

end BlueCode
