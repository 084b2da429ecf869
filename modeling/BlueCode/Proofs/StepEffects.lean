import BlueCode.Proofs.ProperCalls

namespace BlueCode

open Compile

/-- Two computations fail with the same error, or both have results, and these are related. -/
inductive Concur {ε α β : Type} (R : α → β → Prop) : Except ε α → Except ε β → Prop where
  | ok {a : α} {b : β} : R a b → Concur R (.ok a) (.ok b)
  | error (e : ε) : Concur R (.error e) (.error e)

namespace Concur

variable {ε α β γ δ : Type} {R : α → β → Prop} {S : γ → δ → Prop} {x : Except ε α} {y : Except ε β}

theorem bind {f : α → Except ε γ} {g : β → Except ε δ} (h : Concur R x y)
    (hf : ∀ a b, R a b → Concur S (f a) (g b)) : Concur S (x >>= f) (y >>= g) := by
  cases h with
  | ok h => exact hf _ _ h
  | error e => exact .error e

theorem bind_same (x : Except ε α) {f : α → Except ε γ} {g : α → Except ε δ}
    (h : ∀ a, Concur S (f a) (g a)) : Concur S (x >>= f) (x >>= g) := by
  cases x with
  | error e => exact .error e
  | ok a => exact h a

@[simp] theorem ok_iff {a : α} {b : β} : Concur R (.ok a : Except ε α) (.ok b : Except ε β) ↔ R a b :=
  ⟨fun h => by cases h with | ok h => exact h, .ok⟩

@[simp] theorem error_iff {e e' : ε} : Concur R (.error e) (.error e') ↔ e = e' :=
  ⟨fun h => by cases h; rfl, fun h => h ▸ .error e⟩

@[simp] theorem not_ok_error {a : α} {e : ε} : ¬ Concur R (.ok a) (.error e) := nofun

@[simp] theorem not_error_ok {b : β} {e : ε} : ¬ Concur R (.error e) (.ok b) := nofun

end Concur

inductive Transition.Both (R : State → State → Prop) : Transition → Transition → Prop where
  | moved {s t : State} : R s t → Both R (.moved s) (.moved t)
  | printed {text : String} {s t : State} : R s t → Both R (.printed text s) (.printed text t)
  | entered {s t : State} : R s t → Both R (.entered s) (.entered t)
  | left {s t : State} : R s t → Both R (.left s) (.left t)
  | halted {halt : Halt} : Both R (.halted halt) (.halted halt)

@[simp] theorem Transition.both_moved {R : State → State → Prop} {s t : State} :
    Both R (.moved s) (.moved t) ↔ R s t :=
  ⟨fun h => by cases h with | moved h => exact h, .moved⟩

namespace State

/-- The calls are the same, the current one perhaps at another place. -/
structure SameCalls (s t : State) : Prop where
  routine : t.frame.routine = s.frame.routine
  base : t.frame.base = s.frame.base
  callers : t.callers = s.callers

inductive Yields (settings : Settings) (image : Image) (s : State) : Transition → Prop where
  | moved {next : State} : s.SameCalls next → next.heap = s.heap →
      Yields settings image s (.moved next)
  | stored {next : State} {i : Instruction} {address : Int64} {cell : Int} {v : Value} :
      s.instruction? = some i → i.dst = some (.heap address) →
      State.cell s.frame.base address.toInt = .ok cell →
      s.SameCalls next → next.heap = s.heap.set cell v → Yields settings image s (.moved next)
  | printed {next : State} {text : String} : s.SameCalls next → next.heap = s.heap →
      Yields settings image s (.printed text next)
  | entered {next : State} {name : String} {callee : Routine} : image.find? name = some callee →
      ¬ settings.maxCallDepth ≤ s.depth →
      ((s.frame.base + s.frame.routine.frameSize : Nat) : Int) + callee.frameSize ≤
        Int64.maxValue.toInt →
      next.heap = s.heap.clear (s.frame.base + s.frame.routine.frameSize) callee.frameSize →
      next.frame = ⟨callee, 0, s.frame.base + s.frame.routine.frameSize⟩ →
      next.callers = s.callers.push s.frame → Yields settings image s (.entered next)
  | left {next : State} {caller : Frame} {position : Nat} : s.callers.back? = some caller →
      next.heap = s.heap → next.frame = { caller with position := position } →
      next.callers = s.callers.pop → Yields settings image s (.left next)
  | halted {halt : Halt} : Yields settings image s (.halted halt)

variable {settings : Settings} {image : Image} {s t : State} {v : Value}

theorem SameCalls.advance (h : s.SameCalls t) : s.SameCalls t.advance :=
  ⟨h.routine, h.base, h.callers⟩

theorem read_stackTop (s : State) : s.read (some .stackTop) =
    (s.stack.get? s.stackPointer.toInt).elim (.error .stackUnderflow) .ok := by
  rw [read]
  cases s.stack.get? s.stackPointer.toInt <;> rfl

theorem read_heap (s : State) (address : Int64) : s.read (some (.heap address)) =
    State.cell s.frame.base address.toInt >>= fun cell =>
      (s.heap.get? cell).elim (.error (.uninitialized address)) .ok := by
  rw [read]
  refine bind_congr fun cell => ?_
  cases s.heap.get? cell <;> rfl

theorem pop_of_get? (h : s.stackPointer ≠ Int64.minValue)
    (hv : s.stack.get? (s.stackPointer - 1).toInt = some v) :
    s.pop = .ok (v, setStackPointer { s with
      stack := s.stack.erase (s.stackPointer - 1).toInt } (s.stackPointer - 1)) := by
  rw [pop, if_neg h]
  simp only [hv]

theorem cell_eq_ok {base : Nat} {offset cell : Int} (h : State.cell base offset = .ok cell) :
    cell = base + offset ∧ cell ≤ Int64.maxValue.toInt := by
  unfold State.cell at h
  split at h
  · next hle =>
    cases h
    exact ⟨rfl, hle⟩
  · cases h

/-- The states differ in nothing but registers and stack. -/
structure Beside (s t : State) : Prop where
  frame : t.frame = s.frame
  callers : t.callers = s.callers
  heap : t.heap = s.heap

namespace Beside

theorem refl (s : State) : s.Beside s := ⟨rfl, rfl, rfl⟩

theorem trans {u : State} (h : s.Beside t) (h' : t.Beside u) : s.Beside u :=
  ⟨h'.frame.trans h.frame, h'.callers.trans h.callers, h'.heap.trans h.heap⟩

theorem sameCalls (h : s.Beside t) : s.SameCalls t :=
  ⟨congrArg Frame.routine h.frame, congrArg Frame.base h.frame, h.callers⟩

theorem of_push (h : s.push v = .ok t) : s.Beside t := by
  unfold push at h
  split at h
  · cases h
  · cases h
    exact ⟨rfl, rfl, rfl⟩

theorem of_pop (h : s.pop = .ok (v, t)) : s.Beside t := by
  unfold pop at h
  split at h
  · cases h
  · simp only at h
    split at h
    · cases h
      exact ⟨rfl, rfl, rfl⟩
    · cases h

end Beside

theorem jump_eq_ok {label : String} (h : s.jump label = .ok t) :
    s.SameCalls t ∧ t.heap = s.heap := by
  unfold jump at h
  split at h
  · cases h
    exact ⟨⟨rfl, rfl, rfl⟩, rfl⟩
  · cases h

theorem write_eq_ok {o : Option Operand} (h : s.write o v = .ok t) :
    s.Beside t ∨ ∃ address cell, o = some (.heap address) ∧
      State.cell s.frame.base address.toInt = .ok cell ∧
      t = { s with heap := s.heap.set cell v } := by
  unfold write at h
  split at h
  · cases h
    exact .inl ⟨rfl, rfl, rfl⟩
  · cases hv : v.asInt.mapError RunError.value with
    | error e =>
      rw [hv] at h
      cases h
    | ok n =>
      rw [hv] at h
      cases h
      exact .inl ⟨rfl, rfl, rfl⟩
  · cases h
    exact .inl ⟨rfl, rfl, rfl⟩
  · next address =>
    obtain ⟨cell, hc, h⟩ := bind_eq_ok.1 h
    cases h
    exact .inr ⟨address, cell, rfl, hc, rfl⟩
  · cases h

theorem write_frame {o : Option Operand} (h : s.write o v = .ok t) : t.frame = s.frame := by
  rcases write_eq_ok h with hb | ⟨_, _, -, -, rfl⟩
  · exact hb.frame
  · rfl

inductive Does (settings : Settings) (image : Image) (s : State) (i : Instruction) :
    Transition → Prop where
  | advances {next : State} : s.Beside next → Does settings image s i (.moved next.advance)
  | writes {before next : State} {v : Value} : s.Beside before → before.write i.dst v = .ok next →
      Does settings image s i (.moved next.advance)
  | jumps {next : State} : jumpTarget? i = some i.target → s.jump i.target = .ok next →
      Does settings image s i (.moved next)
  | prints {next : State} {text : String} : s.Beside next →
      Does settings image s i (.printed text next.advance)
  | halts {halt : Halt} : Does settings image s i (.halted halt)
  | enters {pushed next : State} {callee : Routine} : image.find? i.target = some callee →
      s.Beside pushed → pushed.enter settings callee = .ok next →
      Does settings image s i (.entered next)
  | leaves {transition : Transition} : s.leave = .ok transition → Does settings image s i transition

variable {i : Instruction} {transition : Transition}

theorem call_does (h : s.call settings image i.target = .ok transition) :
    s.Does settings image i transition := by
  obtain ⟨pushed, hp, h⟩ := bind_eq_ok.1 h
  have hpushed : s.Beside pushed := .of_push hp
  split at h
  · obtain ⟨effect, -, h⟩ := bind_eq_ok.1 h
    cases effect with
    | nothing =>
      obtain ⟨⟨v, popped⟩, hpop, h⟩ := bind_eq_ok.1 h
      cases h
      exact .advances (hpushed.trans (.of_pop hpop))
    | print text =>
      obtain ⟨⟨v, popped⟩, hpop, h⟩ := bind_eq_ok.1 h
      cases h
      exact .prints (hpushed.trans (.of_pop hpop))
    | halt halt =>
      cases h
      exact .halts
  · split at h
    · next callee hf =>
      obtain ⟨next, hn, h⟩ := bind_eq_ok.1 h
      cases h
      exact .enters hf hpushed hn
    · cases h

theorem execute_does (h : s.execute settings image i = .ok transition) :
    s.Does settings image i transition := by
  cases hop : i.op with
  | mov =>
    rw [execute, hop] at h
    obtain ⟨v, -, h⟩ := bind_eq_ok.1 h
    obtain ⟨next, hw, h⟩ := bind_eq_ok.1 h
    cases h
    exact .writes (.refl s) hw
  | push =>
    rw [execute, hop] at h
    obtain ⟨v, -, h⟩ := bind_eq_ok.1 h
    obtain ⟨next, hp, h⟩ := bind_eq_ok.1 h
    cases h
    exact .advances (.of_push hp)
  | pop =>
    rw [execute, hop] at h
    obtain ⟨⟨v, popped⟩, hp, h⟩ := bind_eq_ok.1 h
    obtain ⟨next, hw, h⟩ := bind_eq_ok.1 h
    cases h
    exact .writes (.of_pop hp) hw
  | arith op =>
    rw [execute, hop] at h
    obtain ⟨left, -, h⟩ := bind_eq_ok.1 h
    obtain ⟨right, -, h⟩ := bind_eq_ok.1 h
    obtain ⟨v, -, h⟩ := bind_eq_ok.1 h
    obtain ⟨next, hw, h⟩ := bind_eq_ok.1 h
    cases h
    exact .writes (.refl s) hw
  | compare op =>
    rw [execute, hop] at h
    obtain ⟨left, -, h⟩ := bind_eq_ok.1 h
    obtain ⟨right, -, h⟩ := bind_eq_ok.1 h
    obtain ⟨holds, -, h⟩ := bind_eq_ok.1 h
    cases h
    exact .advances ⟨rfl, rfl, rfl⟩
  | jump =>
    rw [execute, hop] at h
    obtain ⟨next, hj, h⟩ := bind_eq_ok.1 h
    cases h
    exact .jumps (if_pos (.inl hop)) hj
  | jumpIfNot =>
    rw [execute, hop] at h
    obtain ⟨v, -, h⟩ := bind_eq_ok.1 h
    obtain ⟨n, -, h⟩ := bind_eq_ok.1 h
    split at h
    · obtain ⟨next, hj, h⟩ := bind_eq_ok.1 h
      cases h
      exact .jumps (if_pos (.inr hop)) hj
    · cases h
      exact .advances (.refl s)
  | call =>
    rw [execute, hop] at h
    exact call_does h
  | ret =>
    rw [execute, hop] at h
    exact .leaves h
  | define =>
    rw [execute, hop] at h
    cases h
    exact .advances (.refl s)
  | label =>
    rw [execute, hop] at h
    cases h
    exact .advances (.refl s)

namespace Yields

theorem of_write {before next : State} (hi : s.instruction? = some i) (hb : s.Beside before)
    (h : before.write i.dst v = .ok next) : Yields settings image s (.moved next.advance) := by
  rcases write_eq_ok h with hnext | ⟨address, cell, hdst, hcell, rfl⟩
  · have hb' := hb.trans hnext
    exact .moved hb'.sameCalls.advance hb'.heap
  · rw [hb.frame] at hcell
    have hsame := hb.sameCalls
    have hheap : before.heap.set cell v = s.heap.set cell v := congrArg (Memory.set · cell v) hb.heap
    exact .stored hi hdst hcell ⟨hsame.routine, hsame.base, hsame.callers⟩ hheap

theorem of_enter {name : String} {callee : Routine} {pushed next : State}
    (hf : image.find? name = some callee) (hb : s.Beside pushed)
    (h : pushed.enter settings callee = .ok next) : Yields settings image s (.entered next) := by
  have hdepth : pushed.depth = s.depth := congrArg (Array.size · + 1) hb.callers
  unfold enter at h
  rw [hdepth, hb.frame, hb.heap, hb.callers] at h
  split at h
  · cases h
  · next hd =>
    obtain ⟨first, -, h⟩ := bind_eq_ok.1 h
    obtain ⟨last, hlast, h⟩ := bind_eq_ok.1 h
    cases h
    obtain ⟨rfl, hle⟩ := cell_eq_ok hlast
    exact .entered hf hd hle rfl rfl rfl

theorem of_leave (h : s.leave = .ok transition) : Yields settings image s transition := by
  unfold leave at h
  split at h
  · cases h
    exact .halted
  · next caller hcaller =>
    obtain ⟨⟨v, popped⟩, hp, h⟩ := bind_eq_ok.1 h
    obtain ⟨address, -, h⟩ := bind_eq_ok.1 h
    split at h
    · cases h
    · cases h
      have hb : s.Beside popped := .of_pop hp
      exact .left hcaller hb.heap rfl (congrArg Array.pop hb.callers)

theorem of_does (hi : s.instruction? = some i) (h : s.Does settings image i transition) :
    Yields settings image s transition := by
  cases h with
  | advances hb => exact .moved hb.sameCalls.advance hb.heap
  | writes hb hw => exact .of_write hi hb hw
  | jumps _ hj =>
    obtain ⟨hsame, hheap⟩ := jump_eq_ok hj
    exact .moved hsame hheap
  | prints hb => exact .printed hb.sameCalls.advance hb.heap
  | halts => exact .halted
  | enters hf hb he => exact .of_enter hf hb he
  | leaves hl => exact .of_leave hl

end Yields

theorem yields_step (h : s.step settings image = .ok transition) :
    Yields settings image s transition := by
  unfold step at h
  split at h
  · next i hi => exact .of_does hi (execute_does h)
  · exact .of_leave h

/-- The states are the same but for heap cells outside a range. -/
structure SameOn (base size : Nat) (s t : State) : Prop where
  registers : t.registers = s.registers
  stack : t.stack = s.stack
  frame : t.frame = s.frame
  callers : t.callers = s.callers
  heap : ∀ cell : Int, base ≤ cell → cell < base + size → t.heap.get? cell = s.heap.get? cell

/-- The operand is no heap cell outside a range. -/
def Within (base size frameBase : Nat) (o : Option Operand) : Prop :=
  ∀ address, o = some (.heap address) →
    (base : Int) ≤ frameBase + address.toInt ∧ (frameBase : Int) + address.toInt < base + size

namespace SameOn

variable {base size : Nat} {o : Option Operand}

theorem advance (h : SameOn base size s t) : SameOn base size s.advance t.advance where
  registers := h.registers
  stack := h.stack
  frame := congrArg (fun f : Frame => { f with position := f.position + 1 }) h.frame
  callers := h.callers
  heap := h.heap

theorem read (h : SameOn base size s t) (ho : Within base size s.frame.base o) :
    t.read o = s.read o := by
  cases o with
  | none => rfl
  | some o =>
    cases o with
    | reg r => rw [State.read, State.read, h.registers]
    | stackPointer => rw [State.read, State.read, stackPointer, stackPointer, h.registers]
    | stackTop => rw [read_stackTop, read_stackTop, h.stack, stackPointer, stackPointer, h.registers]
    | heap address =>
      rw [read_heap, read_heap, h.frame]
      cases hc : State.cell s.frame.base address.toInt with
      | error e => rfl
      | ok cell =>
        obtain ⟨rfl, -⟩ := cell_eq_ok hc
        obtain ⟨hl, hu⟩ := ho address rfl
        change (t.heap.get? _).elim _ _ = (s.heap.get? _).elim _ _
        rw [h.heap _ hl hu]
    | _ => rfl

theorem write (h : SameOn base size s t) (o : Option Operand) (v : Value) :
    Concur (SameOn base size) (s.write o v) (t.write o v) := by
  obtain ⟨registers, heap, stack, frame, callers⟩ := s
  obtain ⟨registers', heap', stack', frame', callers'⟩ := t
  obtain ⟨rfl, rfl, rfl, rfl, hheap⟩ := h
  unfold State.write
  split
  · exact .ok ⟨rfl, rfl, rfl, rfl, hheap⟩
  · cases v.asInt.mapError RunError.value with
    | error e => exact .error e
    | ok n => exact .ok ⟨rfl, rfl, rfl, rfl, hheap⟩
  · exact .ok ⟨rfl, rfl, rfl, rfl, hheap⟩
  · refine .bind_same _ fun cell => .ok ⟨rfl, rfl, rfl, rfl, fun other hl hu => ?_⟩
    simp only [Memory.get?_set]
    rw [hheap other hl hu]
  · exact .error _

theorem push (h : SameOn base size s t) (v : Value) :
    Concur (SameOn base size) (s.push v) (t.push v) := by
  unfold State.push stackPointer setStackPointer
  rw [h.registers, h.stack, h.frame, h.callers]
  split
  · exact .error _
  · exact .ok ⟨rfl, rfl, rfl, rfl, h.heap⟩

theorem pop (h : SameOn base size s t) :
    Concur (fun a b : Value × State => b.1 = a.1 ∧ SameOn base size a.2 b.2) s.pop t.pop := by
  unfold State.pop stackPointer setStackPointer
  rw [h.registers, h.stack, h.frame, h.callers]
  split
  · exact .error _
  · dsimp only
    split
    · exact .ok ⟨rfl, rfl, rfl, rfl, rfl, h.heap⟩
    · exact .error _

theorem jump (h : SameOn base size s t) (label : String) :
    Concur (SameOn base size) (s.jump label) (t.jump label) := by
  unfold State.jump
  rw [h.frame]
  split
  · exact .ok ⟨h.registers, h.stack, by rw [goto, goto, h.frame], h.callers, h.heap⟩
  · exact .error _

theorem leave (h : SameOn base size s t) :
    Concur (Transition.Both (SameOn base size)) s.leave t.leave := by
  unfold State.leave
  rw [h.callers]
  split
  · rw [h.registers]
    exact .ok .halted
  · next caller _ =>
    refine h.pop.bind ?_
    rintro ⟨v, s'⟩ ⟨_, t'⟩ ⟨rfl, h'⟩
    apply Concur.bind_same
    intro address
    split
    · exact .error _
    · refine .ok (.left ⟨h'.registers, h'.stack, rfl, ?_, h'.heap⟩)
      exact congrArg Array.pop h'.callers

theorem enter (h : SameOn base size s t) (settings : Settings) (callee : Routine) :
    Concur (SameOn base size) (s.enter settings callee) (t.enter settings callee) := by
  have hdepth : t.depth = s.depth := congrArg (Array.size · + 1) h.callers
  unfold State.enter
  rw [hdepth, h.registers, h.stack, h.frame, h.callers]
  split
  · exact .error _
  · refine .bind_same _ fun _ => .bind_same _ fun _ => .ok ⟨rfl, rfl, rfl, rfl, fun cell hl hu => ?_⟩
    simp only [Memory.get?_clear]
    rw [h.heap cell hl hu]

theorem call (h : SameOn base size s t) (name : String) :
    Concur (Transition.Both (SameOn base size)) (s.call settings image name)
      (t.call settings image name) := by
  unfold State.call
  rw [h.frame]
  refine (h.push _).bind fun s' t' h' => ?_
  split
  · rw [h'.registers]
    apply Concur.bind_same
    intro effect
    split
    · exact h'.pop.bind fun a b hab => .ok (.moved hab.2.advance)
    · exact h'.pop.bind fun a b hab => .ok (.printed hab.2.advance)
    · exact .ok .halted
  · split
    · exact (h'.enter settings _).bind fun a b hab => .ok (.entered hab)
    · exact .error _

/-- A step sees nothing of the heap but the cells that its operands name. -/
theorem execute {i : Instruction} (h : SameOn base size s t)
    (hs : Within base size s.frame.base i.src) (hd : Within base size s.frame.base i.dst) :
    Concur (Transition.Both (SameOn base size)) (s.execute settings image i)
      (t.execute settings image i) := by
  unfold State.execute
  rw [h.read hs, h.read hd]
  cases i.op with
  | mov => exact .bind_same _ fun v => (h.write _ v).bind fun _ _ h' => .ok (.moved h'.advance)
  | push => exact .bind_same _ fun v => (h.push v).bind fun _ _ h' => .ok (.moved h'.advance)
  | pop =>
    refine h.pop.bind ?_
    rintro ⟨_, s'⟩ ⟨v, t'⟩ ⟨rfl, h'⟩
    exact (h'.write _ v).bind fun _ _ h' => .ok (.moved h'.advance)
  | arith op =>
    exact .bind_same _ fun left => .bind_same _ fun right => .bind_same _ fun v =>
      (h.write _ v).bind fun _ _ h' => .ok (.moved h'.advance)
  | compare op =>
    refine .bind_same _ fun left => .bind_same _ fun right => .bind_same _ fun holds => ?_
    refine .ok (.moved (advance ⟨?_, h.stack, h.frame, h.callers, h.heap⟩))
    exact congrArg (Registers.set · .ra _) h.registers
  | jump => exact (h.jump _).bind fun _ _ h' => .ok (.moved h')
  | jumpIfNot =>
    apply Concur.bind_same
    intro v
    apply Concur.bind_same
    intro n
    split
    · exact (h.jump _).bind fun _ _ h' => .ok (.moved h')
    · exact .ok (.moved h.advance)
  | call => exact h.call _
  | ret => exact h.leave
  | define => exact .ok (.moved h.advance)
  | label => exact .ok (.moved h.advance)

theorem step (h : SameOn base size s t)
    (hi : ∀ i, s.instruction? = some i →
      Within base size s.frame.base i.src ∧ Within base size s.frame.base i.dst) :
    Concur (Transition.Both (SameOn base size)) (s.step settings image)
      (t.step settings image) := by
  have hsame : t.instruction? = s.instruction? := by rw [instruction?, h.frame, instruction?]
  unfold State.step
  rw [hsame]
  split
  · next i hinst => exact h.execute (hi i hinst).1 (hi i hinst).2
  · exact h.leave

end SameOn

end State

end BlueCode
