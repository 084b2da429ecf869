import BlueCode.Proofs.Steps
import BlueCode.Proofs.TidyCode

namespace BlueCode

open Compile

def Operand.value? : Operand → Option Value
  | .int n => some (.int n)
  | .float x => some (.float x)
  | .str s => some (.str s)
  | _ => none

namespace Memory

/-- The memory that a stack leaves if the last value of the list is pushed first. -/
def ofStack : List Value → Memory
  | [] => empty
  | v :: rest => (ofStack rest).set rest.length v

theorem get?_ofStack (values : List Value) (cell : Int) :
    ((ofStack values).get? cell).isSome ↔ 0 ≤ cell ∧ cell < values.length := by
  induction values with
  | nil =>
    rw [ofStack, get?_empty, List.length_nil]
    simp only [Option.isSome_none, Bool.false_eq_true, false_iff]
    omega
  | cons v rest ih =>
    rw [ofStack, get?_set, List.length_cons]
    split
    · simp only [Option.isSome_some, true_iff]
      omega
    · rw [ih]
      omega

theorem get?_ofStack_append (above : List Value) (v : Value) (below : List Value) :
    (ofStack (above ++ v :: below)).get? below.length = some v := by
  induction above with
  | nil => rw [List.nil_append, ofStack, get?_set, if_pos rfl]
  | cons w above ih =>
    have hne : ((above ++ v :: below).length : Int) ≠ below.length := by
      rw [List.length_append, List.length_cons]
      omega
    rw [List.cons_append, ofStack, get?_set, if_neg hne, ih]

theorem erase_ofStack (v : Value) (rest : List Value) :
    (ofStack (v :: rest)).erase rest.length = ofStack rest := by
  apply ext
  intro cell
  rw [ofStack, get?_erase, get?_set]
  split
  · next h =>
    have hnone : ((ofStack rest).get? cell).isSome = false := by
      rw [← Bool.not_eq_true, get?_ofStack]
      omega
    rw [Option.isSome_eq_false_iff, Option.isNone_iff_eq_none] at hnone
    exact hnone.symm
  · rfl

end Memory

/-- The instruction to run, or the call that is waited for. -/
def Frame.instruction? (f : Frame) : Option Instruction :=
  f.routine.code[f.position]?

/-- The values that the code of a call leaves on the stack up to its place. -/
def Frame.pending (f : Frame) : Nat :=
  BlueCode.pending f.routine.code.toList f.position

/-- A call: its frame, and the values that wait on the stack for it, the latest first. -/
structure Activation where
  frame : Frame
  waiting : List Value

/-- A state of the machine, as its calls. -/
structure Calls where
  general : Vector Value 8
  heap : Memory
  frame : Frame
  waiting : List Value
  callers : List Activation

namespace Calls

/-- What lies on the stack below the values of a call: the address to return to, and the same for
the call that waits. -/
def returns : List Activation → List Value
  | [] => []
  | caller :: rest =>
    .int (.ofNat (caller.frame.position + 1)) :: (caller.waiting ++ returns rest)

def cells (c : Calls) : List Value :=
  c.waiting ++ returns c.callers

def height (c : Calls) : Nat :=
  c.cells.length

def state (c : Calls) : State where
  registers := ⟨c.general, .ofNat c.height⟩
  heap := c.heap
  stack := .ofStack c.cells
  frame := c.frame
  callers := (c.callers.map Activation.frame).reverse.toArray

def instruction? (c : Calls) : Option Instruction :=
  c.frame.instruction?

def get (c : Calls) (r : Register) : Value :=
  Registers.get ⟨c.general, 0⟩ r

def set (c : Calls) (r : Register) (v : Value) : Calls :=
  { c with general := (Registers.set ⟨c.general, 0⟩ r v).general }

def goto (c : Calls) (position : Nat) : Calls :=
  { c with frame := { c.frame with position := position } }

def advance (c : Calls) : Calls :=
  c.goto (c.frame.position + 1)

def push (c : Calls) (v : Value) : Calls :=
  { c with waiting := v :: c.waiting }

def initial (main : Routine) : Calls :=
  ⟨Vector.replicate 8 .null, .empty, ⟨main, 0, 0⟩, [], []⟩

def load (c : Calls) (k : Nat) : Except RunError Calls :=
  (State.cell c.frame.base k).bind fun cell =>
    match c.heap.get? cell with
    | some v => .ok (c.set .ra v)
    | none => .error (.uninitialized (.ofNat k))

def store (c : Calls) (k : Nat) : Except RunError Calls :=
  (State.cell c.frame.base k).map fun cell => { c with heap := c.heap.set cell (c.get .ra) }

def enter (c : Calls) (callee : Routine) : Calls where
  general := c.general
  heap := c.heap.clear (c.frame.base + c.frame.routine.frameSize) callee.frameSize
  frame := ⟨callee, 0, c.frame.base + c.frame.routine.frameSize⟩
  waiting := []
  callers := ⟨c.frame, c.waiting⟩ :: c.callers

def start (settings : Settings) (c : Calls) (callee : Routine) : Except RunError Calls :=
  if settings.maxCallDepth ≤ c.callers.length + 1 then .error (.tooManyCalls settings.maxCallDepth)
  else
    (State.cell c.frame.base c.frame.routine.frameSize).bind fun _ =>
      (State.cell (c.frame.base + c.frame.routine.frameSize : Nat) callee.frameSize).map fun _ =>
        c.enter callee

def perform (c : Calls) : State.Effect → Transition
  | .nothing => .moved c.advance.state
  | .print text => .printed text c.advance.state
  | .halt halt => .halted halt

def resume (c : Calls) (caller : Activation) (rest : List Activation) : Calls where
  general := c.general
  heap := c.heap
  frame := { caller.frame with position := caller.frame.position + 1 }
  waiting := caller.waiting
  callers := rest

theorem initial_state (main : Routine) : (initial main).state = .start main := rfl

@[simp] theorem state_frame (c : Calls) : c.state.frame = c.frame := rfl

@[simp] theorem state_goto (c : Calls) (position : Nat) :
    c.state.goto position = (c.goto position).state := rfl

@[simp] theorem state_advance (c : Calls) : c.state.advance = c.advance.state := rfl

@[simp] theorem state_setRegister (c : Calls) (r : Register) (v : Value) :
    c.state.setRegister r v = (c.set r v).state := rfl

@[simp] theorem state_accumulator (c : Calls) : c.state.registers.accumulator = c.get .ra := rfl

@[simp] theorem height_push (c : Calls) (v : Value) : (c.push v).height = c.height + 1 := rfl

@[simp] theorem get_set_same (c : Calls) (r : Register) (v : Value) : (c.set r v).get r = v :=
  Registers.get_set_same ⟨c.general, 0⟩ r v

theorem get_set_other (c : Calls) {r other : Register} (v : Value) (h : r ≠ other) :
    (c.set r v).get other = c.get other :=
  Registers.get_set_other ⟨c.general, 0⟩ v h

theorem state_depth (c : Calls) : c.state.depth = c.callers.length + 1 := by
  simp [State.depth, state]

theorem state_push {c : Calls} (h : c.height + 1 < 2 ^ 63) (v : Value) :
    c.state.push v = .ok (c.push v).state := by
  have hne : c.state.stackPointer ≠ Int64.maxValue := fun he => by
    have hi := congrArg Int64.toInt he
    rw [State.stackPointer, state, toInt_ofNat (by omega), Int64.toInt_maxValue] at hi
    omega
  rw [State.push, if_neg hne]
  simp only [State.stackPointer, State.setStackPointer, state, height_push, Int64.ofNat_add,
    toInt_ofNat (Nat.lt_of_succ_lt h)]
  rfl

theorem state_push_full {c : Calls} (h : c.height + 1 = 2 ^ 63) (v : Value) :
    c.state.push v = .error .stackPointerOverflow := by
  have he : c.state.stackPointer = Int64.maxValue := by
    rw [← Int64.toInt_inj, State.stackPointer, state, toInt_ofNat (by omega), Int64.toInt_maxValue]
    omega
  rw [State.push, if_pos he]

theorem state_pop {c : Calls} {v : Value} {rest : List Value} (hv : c.cells = v :: rest)
    (h : c.height < 2 ^ 63) :
    c.state.pop = .ok (v, { c.state with registers := ⟨c.general, .ofNat rest.length⟩,
                                         stack := .ofStack rest }) := by
  have hheight : c.height = rest.length + 1 := by
    rw [height, hv, List.length_cons]
  have hlast : Int64.ofNat c.height - 1 = .ofNat rest.length := by
    rw [hheight, Int64.ofNat_add]
    exact Int64.add_sub_cancel _ _
  have hne : c.state.stackPointer ≠ Int64.minValue := fun he => by
    have hi := congrArg Int64.toInt he
    rw [State.stackPointer, state, toInt_ofNat h, Int64.toInt_minValue] at hi
    omega
  have hget : (Memory.ofStack c.cells).get? rest.length = some v := by
    rw [hv]
    exact Memory.get?_ofStack_append [] v rest
  have herase : (Memory.ofStack c.cells).erase rest.length = .ofStack rest := by
    rw [hv]
    exact Memory.erase_ofStack v rest
  rw [State.pop, if_neg hne]
  simp only [State.stackPointer, State.setStackPointer, state, hlast,
    toInt_ofNat (show rest.length < 2 ^ 63 by omega), hget, herase]

theorem state_enter (settings : Settings) (c : Calls) (callee : Routine) :
    (c.push (.int (.ofNat (c.frame.position + 1)))).state.enter settings callee =
      (c.start settings callee).map state := by
  have hdepth : (c.push (.int (.ofNat (c.frame.position + 1)))).state.depth = c.callers.length + 1 :=
    state_depth _
  have hcallers : c.state.callers.push c.frame = (c.enter callee).state.callers := by
    simp [state, enter]
  rw [State.enter, hdepth, start]
  by_cases hd : settings.maxCallDepth ≤ c.callers.length + 1
  · rw [if_pos hd, if_pos hd]
    rfl
  · rw [if_neg hd, if_neg hd]
    change State.cell c.frame.base c.frame.routine.frameSize >>= _ = _
    cases State.cell c.frame.base c.frame.routine.frameSize with
    | error e => rfl
    | ok _ =>
      change State.cell (c.frame.base + c.frame.routine.frameSize : Nat) callee.frameSize >>= _ = _
      simp only [Except.bind]
      cases State.cell (c.frame.base + c.frame.routine.frameSize : Nat) callee.frameSize with
      | error e => rfl
      | ok _ =>
        change Except.ok (State.mk _ _ _ _ (c.state.callers.push c.frame)) = _
        rw [hcallers]
        rfl

theorem start_eq_map {settings : Settings} {c c' : Calls} {callee callee' : Routine}
    {f : Calls → Calls} (hframe : c'.frame.routine.frameSize = c.frame.routine.frameSize)
    (hbase : c'.frame.base = c.frame.base) (hcallers : c'.callers.length = c.callers.length)
    (hcallee : callee'.frameSize = callee.frameSize)
    (henter : c'.enter callee' = f (c.enter callee)) :
    c'.start settings callee' = (c.start settings callee).map f := by
  rw [start, start, hframe, hbase, hcallers, hcallee, henter]
  split
  · rfl
  · cases State.cell c.frame.base c.frame.routine.frameSize with
    | error e => rfl
    | ok first =>
      simp only [Except.bind]
      cases State.cell (c.frame.base + c.frame.routine.frameSize : Nat) callee.frameSize <;> rfl

theorem enter_of_start {settings : Settings} {c c' : Calls} {callee : Routine}
    (h : c.start settings callee = .ok c') :
    ¬ settings.maxCallDepth ≤ c.callers.length + 1 ∧ c' = c.enter callee := by
  rw [Calls.start] at h
  split at h
  · cases h
  · next hd =>
    refine ⟨hd, ?_⟩
    cases hfirst : State.cell c.frame.base c.frame.routine.frameSize with
    | error e =>
      rw [hfirst] at h
      cases h
    | ok first =>
      simp only [hfirst, Except.bind] at h
      cases hlast : State.cell (c.frame.base + c.frame.routine.frameSize : Nat) callee.frameSize with
      | error e =>
        rw [hlast] at h
        cases h
      | ok last =>
        rw [hlast] at h
        exact (Except.ok.inj h).symm

theorem cell_eq_ok {base offset : Nat} (h : base + offset < 2 ^ 63) :
    State.cell base offset = .ok (base + offset) := by
  rw [State.cell, if_pos]
  rw [Int64.toInt_maxValue]
  omega

variable {settings : Settings} {image : Image} {c : Calls}

theorem step_eq_execute {i : Instruction} (hi : c.instruction? = some i) :
    c.state.step settings image = c.state.execute settings image i := by
  have hs : c.state.instruction? = some i := hi
  rw [State.step, hs]

theorem step_constant {o : Operand} (hi : c.instruction? = some (.mov o acc)) (ho : Constant o) :
    ∃ v, o.value? = some v ∧
      c.state.step settings image = .ok (.moved (c.set .ra v).advance.state) := by
  rw [step_eq_execute hi]
  cases ho <;> exact ⟨_, rfl, rfl⟩

theorem step_load {k : Nat} (hi : c.instruction? = some (.mov (.heap (.ofNat k)) acc))
    (hk : k < 2 ^ 63) :
    c.state.step settings image = (c.load k).map fun next => .moved next.advance.state := by
  rw [step_eq_execute hi]
  simp only [State.execute, Instruction.mov, State.read, toInt_ofNat hk, load]
  change (State.cell c.frame.base k >>= _) >>= _ = _
  cases State.cell c.frame.base k with
  | error e => rfl
  | ok cell =>
    change (match c.heap.get? cell with | some v => pure v | none => _) >>= _ = _
    simp only [Except.bind]
    cases c.heap.get? cell with
    | none => rfl
    | some v => rfl

theorem step_store {k : Nat} (hi : c.instruction? = some (.mov acc (.heap (.ofNat k))))
    (hk : k < 2 ^ 63) :
    c.state.step settings image = (c.store k).map fun next => .moved next.advance.state := by
  rw [step_eq_execute hi]
  simp only [State.execute, Instruction.mov, State.read, State.write, toInt_ofNat hk, store]
  change (State.cell c.frame.base k >>= _) >>= _ = _
  cases State.cell c.frame.base k <;> rfl

theorem step_push (hi : c.instruction? = some (.push acc)) (h : c.height + 1 < 2 ^ 63) :
    c.state.step settings image = .ok (.moved (c.push (c.get .ra)).advance.state) := by
  rw [step_eq_execute hi]
  change c.state.push (c.get .ra) >>= _ = _
  rw [state_push h]
  rfl

theorem step_push_full (hi : c.instruction? = some (.push acc)) (h : c.height + 1 = 2 ^ 63) :
    c.state.step settings image = .error .stackPointerOverflow := by
  rw [step_eq_execute hi]
  change c.state.push (c.get .ra) >>= _ = _
  rw [state_push_full h]
  rfl

theorem step_pop {v : Value} {rest : List Value} (hi : c.instruction? = some (.pop (.reg .rb)))
    (hw : c.waiting = v :: rest) (h : c.height < 2 ^ 63) :
    c.state.step settings image =
      .ok (.moved (({ c with waiting := rest }).set .rb v).advance.state) := by
  have hv : c.cells = v :: (rest ++ returns c.callers) := by
    rw [cells, hw]
    rfl
  rw [step_eq_execute hi]
  change c.state.pop >>= _ = _
  rw [state_pop hv h]
  rfl

theorem step_arith {op : ArithOp} (hi : c.instruction? = some ⟨.arith op, some (.reg .rb), some acc⟩) :
    c.state.step settings image =
      ((op.apply (c.get .rb) (c.get .ra)).mapError RunError.value).map fun v =>
        .moved (c.set .ra v).advance.state := by
  rw [step_eq_execute hi]
  change (op.apply (c.get .rb) (c.get .ra)).mapError RunError.value >>= _ = _
  cases op.apply (c.get .rb) (c.get .ra) <;> rfl

theorem step_compare {op : CompareOp}
    (hi : c.instruction? = some ⟨.compare op, some (.reg .rb), some acc⟩) :
    c.state.step settings image =
      ((op.holds (c.get .rb) (c.get .ra)).mapError RunError.value).map fun holds =>
        .moved (c.set .ra (.ofBool holds)).advance.state := by
  rw [step_eq_execute hi]
  change (op.holds (c.get .rb) (c.get .ra)).mapError RunError.value >>= _ = _
  cases op.holds (c.get .rb) (c.get .ra) <;> rfl

theorem step_jump {label : String} {k : Nat} (hi : c.instruction? = some (.jump label))
    (hl : c.frame.routine.labels[label]? = some k) :
    c.state.step settings image = .ok (.moved (c.goto k).state) := by
  have hjump : c.state.jump label = .ok (c.goto k).state := by
    rw [State.jump]
    simp only [state, hl]
    rfl
  rw [step_eq_execute hi]
  change c.state.jump label >>= _ = _
  rw [hjump]
  rfl

theorem step_jumpIfNot {label : String} {k : Nat}
    (hi : c.instruction? = some (.jumpIfNot acc label))
    (hl : c.frame.routine.labels[label]? = some k) :
    c.state.step settings image =
      ((c.get .ra).asInt.mapError RunError.value).map fun n =>
        .moved (if n = 0 then c.goto k else c.advance).state := by
  have hjump : c.state.jump label = .ok (c.goto k).state := by
    rw [State.jump]
    simp only [state, hl]
    rfl
  rw [step_eq_execute hi]
  change (c.get .ra).asInt.mapError RunError.value >>= _ = _
  cases (c.get .ra).asInt with
  | error e => rfl
  | ok n =>
    change (if n = 0 then c.state.jump label >>= _ else _) = _
    rw [hjump]
    change _ = Except.ok (Transition.moved (if n = 0 then c.goto k else c.advance).state)
    by_cases hn : n = 0
    · rw [if_pos hn, if_pos hn]
      rfl
    · rw [if_neg hn, if_neg hn]
      rfl

theorem step_label {label : String} (hi : c.instruction? = some (.label label)) :
    c.state.step settings image = .ok (.moved c.advance.state) :=
  step_eq_execute hi

theorem step_call_full {name : String} (hi : c.instruction? = some (.call name))
    (h : c.height + 1 = 2 ^ 63) : c.state.step settings image = .error .stackPointerOverflow := by
  rw [step_eq_execute hi]
  change c.state.call settings image name = _
  rw [State.call, state_push_full h]
  rfl

/-- A builtin leaves nothing on the stack. -/
theorem step_call_builtin {name : String} {b : Builtin} (hi : c.instruction? = some (.call name))
    (hb : Builtin.ofName? name = some b) (h : c.height + 1 < 2 ^ 63) :
    c.state.step settings image = (State.effect settings (c.get .ra) b).map c.perform := by
  have hpop (v : Value) : (c.push v).state.pop = .ok (v, c.state) := state_pop rfl h
  rw [step_eq_execute hi]
  change c.state.call settings image name = _
  rw [State.call, state_push h]
  simp only [bind, Except.bind, hb, state_accumulator]
  have hacc (v : Value) : (c.push v).get .ra = c.get .ra := rfl
  rw [hacc]
  cases State.effect settings (c.get .ra) b with
  | error e => rfl
  | ok effect =>
    cases effect with
    | nothing =>
      rw [hpop]
      rfl
    | print text =>
      rw [hpop]
      rfl
    | halt halt => rfl

theorem step_call_missing {name : String} (hi : c.instruction? = some (.call name))
    (hb : Builtin.ofName? name = none) (hf : image.find? name = none) (h : c.height + 1 < 2 ^ 63) :
    c.state.step settings image = .error (.missingFunction name) := by
  rw [step_eq_execute hi]
  change c.state.call settings image name = _
  rw [State.call, state_push h]
  simp only [bind, Except.bind, hb, hf]
  rfl

theorem step_call {name : String} {callee : Routine} (hi : c.instruction? = some (.call name))
    (hb : Builtin.ofName? name = none) (hf : image.find? name = some callee)
    (h : c.height + 1 < 2 ^ 63) :
    c.state.step settings image = (c.start settings callee).map fun next => .entered next.state := by
  rw [step_eq_execute hi]
  change c.state.call settings image name = _
  rw [State.call, state_push h]
  simp only [bind, Except.bind, hb, hf, state_frame, state_enter]
  cases c.start settings callee <;> rfl

theorem leave_main (h : c.callers = []) :
    c.state.leave = .ok (.halted (.returned (c.get .ra))) := by
  rw [State.leave]
  simp [state, h, get, Registers.accumulator, Registers.get]

theorem leave_call {caller : Activation} {rest : List Activation}
    (hc : c.callers = caller :: rest) (hw : c.waiting = []) (h : c.height < 2 ^ 63)
    (hp : caller.frame.position + 1 < 2 ^ 63) :
    c.state.leave = .ok (.left (c.resume caller rest).state) := by
  have hv : c.cells = .int (.ofNat (caller.frame.position + 1)) :: (caller.waiting ++ returns rest) := by
    rw [cells, hw, hc]
    rfl
  have hback : c.state.callers.back? = some caller.frame := by
    simp [state, hc]
  have hpos : ¬ Int64.ofNat (caller.frame.position + 1) < 0 := by
    rw [Int64.lt_iff_toInt_lt, toInt_ofNat hp]
    exact Int.not_lt.2 (Int.natCast_nonneg _)
  rw [State.leave, hback]
  simp only [state_pop hv h, bind, Except.bind, Value.asInt, Except.mapError, if_neg hpos,
    toInt_ofNat hp]
  have hcallers : c.state.callers.pop = (c.resume caller rest).state.callers := by
    simp [state, hc, resume]
  change Except.ok (Transition.left (State.mk _ _ _ _ c.state.callers.pop)) = _
  rw [hcallers]
  rfl

end Calls

end BlueCode
