import BlueCode.Pipeline

namespace BlueCode

structure Event where
  message : String
  fields : List (String × String)
  deriving DecidableEq, Repr

inductive Detail where
  | calls
  | instructions
  deriving DecidableEq, Repr

namespace Event

def lexed (tokens : List Located) : Event :=
  ⟨"lexed source", [("tokens", toString tokens.length)]⟩

def parsed (p : Program) : Event :=
  ⟨"parsed program", [("functions", toString p.functions.length)]⟩

def compiled (f : Function) (code : List Instruction) : Event :=
  ⟨"compiled function", [("function", f.name), ("instructions", toString code.length)]⟩

def optimized (before after : List Instruction) : Event :=
  ⟨"peephole pass",
    [("before", toString before.length), ("after", toString after.length),
     ("removed", toString (before.length - after.length))]⟩

def loaded (r : Routine) : Event :=
  ⟨"loaded function",
    [("function", r.name), ("instructions", toString r.code.size),
     ("labels", toString r.labels.size), ("frame_size", toString r.frameSize)]⟩

def stackPointer (s : State) : String × String :=
  ("rsp", (Value.int s.stackPointer).display)

def instruction (s : State) (i : Instruction) : Event :=
  ⟨i.text,
    [("function", s.frame.routine.name), ("ip", toString s.frame.position), stackPointer s]⟩

def entered (s : State) : Event :=
  ⟨"call",
    [("function", s.frame.routine.name), ("depth", toString s.depth), stackPointer s]⟩

def left (function : String) (s : State) : Event :=
  ⟨"return", [("function", function), ("depth", toString s.depth), stackPointer s]⟩

def exited (status : Int32) : Event :=
  ⟨"exit builtin", [("status", String.ofList (Decimal.intChars status.toInt))]⟩

end Event

/-- Events, and the result that they have led to. -/
structure Traced (α : Type) where
  events : List Event
  result : Except Failure α

namespace Traced

def andThen {α β : Type} (t : Traced α) (next : α → Traced β) : Traced β :=
  match t.result with
  | .ok a => ⟨t.events ++ (next a).events, (next a).result⟩
  | .error f => ⟨t.events, .error f⟩

end Traced

def lexTraced (source : String) : Traced (List Located) :=
  match lex source with
  | .ok tokens => ⟨[.lexed tokens], .ok tokens⟩
  | .error e => ⟨[], .error (.lex e)⟩

def parseTraced (tokens : List Located) : Traced Program :=
  match parse tokens with
  | .ok p => ⟨[.parsed p], .ok p⟩
  | .error e => ⟨[], .error (.parse e)⟩

/-- The functions that are compiled before the first error. -/
def compileEvents (sigs : Compile.Signatures) : List Function → List Event
  | [] => []
  | f :: rest =>
    match Compile.function sigs f with
    | .ok code => .compiled f code :: compileEvents sigs rest
    | .error _ => []

namespace Program

def sourceTraced (source : String) : Traced Program :=
  (lexTraced source).andThen parseTraced

def compileTraced (p : Program) : Traced (List Instruction) :=
  let events :=
    match Compile.signatures [] p.functions with
    | .ok sigs => compileEvents sigs p.functions
    | .error _ => []
  ⟨events, p.compile.mapError .compile⟩

def instructionsTraced (optimized : Bool) (p : Program) : Traced (List Instruction) :=
  p.compileTraced.andThen fun code =>
    if optimized then ⟨[.optimized code (optimize code)], .ok (optimize code)⟩ else ⟨[], .ok code⟩

end Program

namespace Image

def ofLinesTraced (lines : List Line) : Traced Image :=
  ⟨(Builder.empty.completed lines).map .loaded, (ofLines lines).mapError .load⟩

end Image

namespace Program

def imageTraced (optimized : Bool) (p : Program) : Traced Image :=
  (p.instructionsTraced optimized).andThen fun code =>
    Image.ofLinesTraced (Loader.lines (assemble code))

end Program

/-- The last events, the latest first, and how many more are taken. -/
structure Log where
  events : List Event
  room : Nat

namespace Log

def empty (limit : Nat) : Log := ⟨[], limit⟩

def tell (log : Log) (events : List Event) : Log :=
  ⟨(events.take log.room).reverse ++ log.events, log.room - events.length⟩

end Log

def State.events (detail : Detail) (s : State) : List Event :=
  match detail, s.instruction? with
  | .instructions, some i => [.instruction s i]
  | _, _ => []

def Transition.events (function : String) : Transition → List Event
  | .entered next => [.entered next]
  | .left next => [.left function next]
  | .halted (.exited status) => [.exited status]
  | _ => []

def State.traceRun (detail : Detail) (settings : Settings) (image : Image) :
    Nat → State → String → Log → Option (Log × Outcome)
  | 0, _, _, _ => none
  | fuel + 1, s, output, log =>
    let log := if log.room = 0 then log else log.tell (s.events detail)
    match s.step settings image with
    | .error e => some (log, ⟨.error e, output⟩)
    | .ok transition =>
      let log := log.tell (transition.events s.frame.routine.name)
      match transition with
      | .moved next | .entered next | .left next =>
        next.traceRun detail settings image fuel output log
      | .printed text next => next.traceRun detail settings image fuel (output ++ text) log
      | .halted halt => some (log, ⟨.ok halt, output⟩)

def Image.traceRun (detail : Detail) (settings : Settings) (fuel : Nat) (image : Image)
    (log : Log) : Option (Log × Outcome) :=
  match image.find? "main" with
  | some main => (State.start main).traceRun detail settings image fuel "" log
  | none => some (log, ⟨.error (.missingFunction "main"), ""⟩)

def traceImage (detail : Detail) (settings : Settings) (fuel limit : Nat) (t : Traced Image) :
    Option (Log × Report) :=
  let log := (Log.empty limit).tell t.events
  match t.result with
  | .ok image => (image.traceRun detail settings fuel log).map fun r => (r.1, r.2.report)
  | .error f => some (log, f.report)

/-- The first `limit` events of all stages, and the outcome of the run. -/
def runTraced (detail : Detail) (settings : Settings) (fuel limit : Nat) (t : Traced Image) :
    Option (List Event × Report) :=
  (traceImage detail settings fuel limit t).map fun r => (r.1.events.reverse, r.2)

end BlueCode
