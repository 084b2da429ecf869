import BlueCode.Instruction
import Std.Data.ExtTreeMap

namespace BlueCode

structure Routine where
  name : String
  code : Array Instruction
  labels : Std.ExtTreeMap String Nat
  /-- One more than the greatest heap address in the code; zero if there is none. -/
  frameSize : Nat

/-- Why code cannot be loaded. Lines count from one. -/
inductive LoadError where
  | badInstruction (line : Nat) (text : String)
  | badOperand (line : Nat) (operand : String)
  | orphan (line : Nat)
  | duplicateFunction (name : String)
  | duplicateLabel (function label : String)
  deriving DecidableEq, Repr

namespace LoadError

def message : LoadError → String
  | badInstruction line text =>
    "line " ++ toString line ++ ": unrecognized instruction '" ++ text ++ "'"
  | badOperand line operand =>
    "line " ++ toString line ++ ": unrecognized operand '" ++ operand ++ "'"
  | orphan line => "line " ++ toString line ++ ": instruction appears before any function marker"
  | duplicateFunction name => "function " ++ name ++ " is defined more than once"
  | duplicateLabel function label =>
    "label " ++ label ++ " is defined more than once in " ++ function

def code : LoadError → String
  | badInstruction .. => "VAR-A001"
  | badOperand .. => "VAR-A002"
  | orphan .. => "VAR-A003"
  | duplicateFunction .. => "VAR-A004"
  | duplicateLabel .. => "VAR-A005"

def line? : LoadError → Option Nat
  | badInstruction line _ | badOperand line _ | orphan line => some line
  | duplicateFunction _ | duplicateLabel _ _ => none

end LoadError

structure Image where
  routines : Std.ExtTreeMap String Routine

namespace Routine

def empty (name : String) : Routine :=
  ⟨name, #[], ∅, 0⟩

/-- Makes room for an operand that is a heap cell. The greatest address has no next one and is
refused. -/
def reserve (r : Routine) (line : Nat) : Option Operand → Except LoadError Routine
  | some (.heap address) =>
    if address = Int64.maxValue then .error (.badOperand line (Operand.heap address).text)
    else .ok { r with frameSize := max r.frameSize (address.toInt + 1).toNat }
  | _ => .ok r

def mark (r : Routine) (i : Instruction) : Except LoadError Routine :=
  if i.op = .label then
    if i.target ∈ r.labels then .error (.duplicateLabel r.name i.target)
    else .ok { r with labels := r.labels.insert i.target r.code.size }
  else .ok r

def add (r : Routine) (line : Nat) (i : Instruction) : Except LoadError Routine := do
  let r ← r.mark i
  let r ← r.reserve line i.src
  let r ← r.reserve line i.dst
  return { r with code := r.code.push i }

end Routine

namespace Image

/-- An image under construction: the functions that are complete, and the one being read. -/
structure Builder where
  image : Image
  current : Option Routine

namespace Builder

def empty : Builder := ⟨⟨∅⟩, none⟩

def finish (b : Builder) : Image :=
  match b.current with
  | some r => ⟨b.image.routines.insert r.name r⟩
  | none => b.image

/-- Adds the instruction of a line. A marker completes the current function and starts another. -/
def add (b : Builder) (line : Nat) (i : Instruction) : Except LoadError Builder :=
  if i.op = .define then
    if i.target ∈ b.finish.routines then .error (.duplicateFunction i.target)
    else .ok ⟨b.finish, some (.empty i.target)⟩
  else
    match b.current with
    | some r => do return { b with current := some (← r.add line i) }
    | none => .error (.orphan line)

end Builder

structure Line where
  number : Nat
  content : Except LoadError Instruction

namespace Builder

def addLine (b : Builder) (line : Line) : Except LoadError Builder := do
  b.add line.number (← line.content)

def completed? (b : Builder) (line : Line) : Option Routine :=
  match line.content with
  | .ok i => if i.op = .define then b.current else none
  | .error _ => none

/-- The routines completed while lines are added, up to the first error. -/
def completed (b : Builder) : List Line → List Routine
  | [] => b.current.toList
  | line :: rest =>
    (b.completed? line).toList ++
      match b.addLine line with
      | .ok next => next.completed rest
      | .error _ => []

end Builder

def ofLines (lines : List Line) : Except LoadError Image := do
  let b ← lines.foldlM Builder.addLine Builder.empty
  return b.finish

def numbered (code : List Instruction) : List Line :=
  (code.zipIdx 1).map fun (i, line) => ⟨line, .ok i⟩

def ofInstructions (code : List Instruction) : Except LoadError Image :=
  ofLines (numbered code)

def find? (image : Image) (name : String) : Option Routine :=
  image.routines[name]?

def toList (image : Image) : List Routine :=
  image.routines.toList.map (·.2)

end Image

end BlueCode
