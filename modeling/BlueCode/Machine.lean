import BlueCode.Image
import BlueCode.Memory

namespace BlueCode

inductive Halt where
  | returned (value : Value)
  | exited (status : Int32)
  deriving DecidableEq, Repr

inductive RunError where
  | missingFunction (name : String)
  | unresolvedLabel (function label : String)
  | value (cause : ValueError)
  | badStatus (status : Int64)
  | badPause (seconds : Float)
  | nameAsValue (name : String)
  | missingOperand
  | badReturnAddress (address : Int64)
  | stackPointerOverflow
  | addressOverflow (base : Nat) (offset : Int)
  | uninitialized (address : Int64)
  | stackUnderflow
  | tooManyCalls (limit : Nat)
  | notWritable (operand : Option Operand)
  | output (reason : String)
  deriving DecidableEq, Repr

namespace RunError

def message : RunError → String
  | missingFunction name => "undefined function: " ++ name
  | unresolvedLabel function label => "label " ++ label ++ " not found in " ++ function
  | value .divisionByZero => ValueError.divisionByZero.reason
  | value cause => "type mismatch: " ++ cause.reason
  | badStatus status =>
    "type mismatch: exit status " ++ (Value.int status).display ++ " is out of range"
  | badPause seconds =>
    "type mismatch: cannot sleep for " ++ (Value.float seconds).display ++ " seconds"
  | nameAsValue name => "type mismatch: '" ++ name ++ "' is not a value"
  | missingOperand => "type mismatch: missing operand"
  | badReturnAddress address =>
    "type mismatch: " ++ (Value.int address).display ++ " is not a return address"
  | stackPointerOverflow => "type mismatch: stack pointer overflow"
  | addressOverflow base offset =>
    "type mismatch: heap address " ++ toString base ++ " + " ++
      String.ofList (Decimal.intChars offset) ++ " is out of range"
  | uninitialized address =>
    "read of uninitialized heap cell [" ++ (Value.int address).display ++ "]"
  | stackUnderflow => "pop from empty stack"
  | tooManyCalls limit => "call depth limit of " ++ toString limit ++ " exceeded"
  | notWritable (some operand) => "operand " ++ operand.text ++ " cannot be written"
  | notWritable none => "operand <none> cannot be written"
  | output reason => reason

def code : RunError → String
  | missingFunction _ => "VAR-R001"
  | unresolvedLabel _ _ => "VAR-R002"
  | value .divisionByZero => "VAR-R004"
  | value _ | badStatus _ | badPause _ | nameAsValue _ | missingOperand | badReturnAddress _
  | stackPointerOverflow | addressOverflow _ _ => "VAR-R003"
  | uninitialized _ => "VAR-R005"
  | stackUnderflow => "VAR-R006"
  | tooManyCalls _ => "VAR-R007"
  | notWritable _ => "VAR-R008"
  | output _ => "VAR-R009"

end RunError

structure Settings where
  /-- How many calls may be live at a time, that of the main routine included. -/
  maxCallDepth : Nat := 1024
  outputFailure : Option String := none
  deriving DecidableEq, Repr

structure Frame where
  routine : Routine
  position : Nat
  /-- The heap cell that is the routine's own cell zero. -/
  base : Nat

structure State where
  registers : Registers
  heap : Memory
  stack : Memory
  frame : Frame
  /-- The calls that wait, the latest last. -/
  callers : Array Frame

/-- What an instruction leads to. -/
inductive Transition where
  | moved (next : State)
  | printed (text : String) (next : State)
  | entered (next : State)
  | left (next : State)
  | halted (halt : Halt)

namespace State

def start (main : Routine) : State :=
  ⟨.initial, .empty, .empty, ⟨main, 0, 0⟩, #[]⟩

def depth (s : State) : Nat :=
  s.callers.size + 1

def stackPointer (s : State) : Int64 :=
  s.registers.stackPointer

def setStackPointer (s : State) (n : Int64) : State :=
  { s with registers := { s.registers with stackPointer := n } }

def setRegister (s : State) (r : Register) (v : Value) : State :=
  { s with registers := s.registers.set r v }

/-- The heap cell at an offset from a base, which has to be a 64-bit address. -/
def cell (base : Nat) (offset : Int) : Except RunError Int :=
  if base + offset ≤ Int64.maxValue.toInt then .ok (base + offset)
  else .error (.addressOverflow base offset)

def read (s : State) : Option Operand → Except RunError Value
  | some (.reg r) => .ok (s.registers.get r)
  | some .stackPointer => .ok (.int s.stackPointer)
  | some .stackTop =>
    match s.stack.get? s.stackPointer.toInt with
    | some v => .ok v
    | none => .error .stackUnderflow
  | some (.heap address) => do
    match s.heap.get? (← cell s.frame.base address.toInt) with
    | some v => return v
    | none => throw (.uninitialized address)
  | some (.int n) => .ok (.int n)
  | some (.float x) => .ok (.float x)
  | some (.str text) => .ok (.str text)
  | some (.name name) => .error (.nameAsValue name)
  | none => .error .missingOperand

def write (s : State) (operand : Option Operand) (v : Value) : Except RunError State :=
  match operand with
  | some (.reg r) => .ok (s.setRegister r v)
  | some .stackPointer => (v.asInt.mapError .value).map s.setStackPointer
  | some .stackTop => .ok { s with stack := s.stack.set s.stackPointer.toInt v }
  | some (.heap address) => do
    let target ← cell s.frame.base address.toInt
    return { s with heap := s.heap.set target v }
  | other => .error (.notWritable other)

def push (s : State) (v : Value) : Except RunError State :=
  if s.stackPointer = Int64.maxValue then .error .stackPointerOverflow
  else .ok (setStackPointer { s with stack := s.stack.set s.stackPointer.toInt v }
    (s.stackPointer + 1))

def pop (s : State) : Except RunError (Value × State) :=
  if s.stackPointer = Int64.minValue then .error .stackUnderflow
  else
    let top := s.stackPointer - 1
    match s.stack.get? top.toInt with
    | some v => .ok (v, setStackPointer { s with stack := s.stack.erase top.toInt } top)
    | none => .error .stackUnderflow

def goto (s : State) (position : Nat) : State :=
  { s with frame := { s.frame with position := position } }

def advance (s : State) : State :=
  s.goto (s.frame.position + 1)

def jump (s : State) (label : String) : Except RunError State :=
  match s.frame.routine.labels[label]? with
  | some position => .ok (s.goto position)
  | none => .error (.unresolvedLabel s.frame.routine.name label)

/-- Starts a call. Its cells lie behind those of the caller, and what earlier calls left in them is
removed. -/
def enter (settings : Settings) (s : State) (callee : Routine) : Except RunError State := do
  if settings.maxCallDepth ≤ s.depth then throw (.tooManyCalls settings.maxCallDepth)
  let base := s.frame.base + s.frame.routine.frameSize
  let _ ← cell s.frame.base s.frame.routine.frameSize
  let _ ← cell base callee.frameSize
  return { s with
    heap := s.heap.clear base callee.frameSize
    callers := s.callers.push s.frame
    frame := ⟨callee, 0, base⟩ }

/-- Ends a call; the main routine's ends the run. The return address lies on the stack. -/
def leave (s : State) : Except RunError Transition :=
  match s.callers.back? with
  | none => .ok (.halted (.returned s.registers.accumulator))
  | some caller => do
    let (value, s) ← s.pop
    let address ← value.asInt.mapError .value
    if address < 0 then throw (.badReturnAddress address)
    return .left { s with
      frame := { caller with position := address.toInt.toNat }, callers := s.callers.pop }

def isPause (seconds : Float) : Bool :=
  !(seconds < 0) && seconds < 18446744073709551616.0

/-- Every use of the output fails if it takes no text. -/
def useOutput (settings : Settings) : Except RunError Unit :=
  match settings.outputFailure with
  | some reason => .error (.output reason)
  | none => .ok ()

inductive Effect where
  | nothing
  | print (text : String)
  | halt (halt : Halt)
  deriving DecidableEq, Repr

def effect (settings : Settings) (acc : Value) : Builtin → Except RunError Effect
  | .print => do
    useOutput settings
    return .print (acc.display ++ "\n")
  | .exit => do
    let status ← acc.asInt.mapError .value
    if status < Int32.minValue.toInt64 ∨ Int32.maxValue.toInt64 < status then
      throw (.badStatus status)
    useOutput settings
    return .halt (.exited status.toInt32)
  | .sleep => do
    let seconds ← acc.asFloat.mapError .value
    if !isPause seconds then throw (.badPause seconds)
    useOutput settings
    return .nothing

/-- The return address is pushed first, and taken back at once if a builtin is called. -/
def call (settings : Settings) (image : Image) (s : State) (name : String) :
    Except RunError Transition := do
  let s ← s.push (.int (Int64.ofNat (s.frame.position + 1)))
  match Builtin.ofName? name with
  | some b =>
    match ← effect settings s.registers.accumulator b with
    | .nothing => return .moved (← s.pop).2.advance
    | .print text => return .printed text (← s.pop).2.advance
    | .halt halt => return .halted halt
  | none =>
    match image.find? name with
    | some callee => return .entered (← s.enter settings callee)
    | none => throw (.missingFunction name)

def execute (settings : Settings) (image : Image) (s : State) (i : Instruction) :
    Except RunError Transition :=
  match i.op with
  | .mov => do
    let value ← s.read i.src
    return .moved (← s.write i.dst value).advance
  | .push => do
    let value ← s.read i.src
    return .moved (← s.push value).advance
  | .pop => do
    let (value, s) ← s.pop
    return .moved (← s.write i.dst value).advance
  | .arith op => do
    let left ← s.read i.src
    let right ← s.read i.dst
    let result ← (op.apply left right).mapError .value
    return .moved (← s.write i.dst result).advance
  | .compare op => do
    let left ← s.read i.src
    let right ← s.read i.dst
    let holds ← (op.holds left right).mapError .value
    return .moved (s.setRegister .ra (.ofBool holds)).advance
  | .jump => return .moved (← s.jump i.target)
  | .jumpIfNot => do
    let value ← s.read i.src
    if (← value.asInt.mapError .value) = 0 then return .moved (← s.jump i.target)
    return .moved s.advance
  | .call => s.call settings image i.target
  | .ret => s.leave
  | .define | .label => .ok (.moved s.advance)

def instruction? (s : State) : Option Instruction :=
  s.frame.routine.code[s.frame.position]?

/-- Running off the end of the code is a return. -/
def step (settings : Settings) (image : Image) (s : State) : Except RunError Transition :=
  match s.instruction? with
  | some i => s.execute settings image i
  | none => s.leave

def pause? (s : State) : Option Float :=
  match s.instruction? with
  | some i =>
    if i.op = .call ∧ Builtin.ofName? i.target = some .sleep then
      match s.registers.accumulator.asFloat with
      | .ok seconds => if isPause seconds then some seconds else none
      | .error _ => none
    else none
  | none => none

end State

structure Outcome where
  result : Except RunError Halt
  output : String

/-- Runs at most `fuel` steps, adding to what has been printed; there is no outcome if more are
needed. -/
def State.run (settings : Settings) (image : Image) : Nat → State → String → Option Outcome
  | 0, _, _ => none
  | fuel + 1, s, output =>
    match s.step settings image with
    | .ok (.moved next) | .ok (.entered next) | .ok (.left next) =>
      next.run settings image fuel output
    | .ok (.printed text next) => next.run settings image fuel (output ++ text)
    | .ok (.halted halt) => some ⟨.ok halt, output⟩
    | .error e => some ⟨.error e, output⟩

def Image.run (settings : Settings) (fuel : Nat) (image : Image) : Option Outcome :=
  match image.find? "main" with
  | some main => (State.start main).run settings image fuel ""
  | none => some ⟨.error (.missingFunction "main"), ""⟩

end BlueCode
