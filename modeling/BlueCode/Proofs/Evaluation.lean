import BlueCode.Machine
import BlueCode.Program

namespace BlueCode

inductive Evaluation (α : Type) where
  | done (result : α)
  | ended (o : Outcome)
  /-- Some loop has used up its rounds. -/
  | unfinished

namespace Evaluation

def bind {α β : Type} : Evaluation α → (α → Evaluation β) → Evaluation β
  | done a, f => f a
  | ended o, _ => ended o
  | unfinished, _ => unfinished

instance : Monad Evaluation where
  pure := done
  bind := bind

def outcome? : Evaluation Outcome → Option Outcome
  | done o | ended o => some o
  | unfinished => none

end Evaluation

/-- What the evaluation of a function changes. -/
structure Store where
  accumulator : Value
  values : String → Option Value
  output : String

namespace Store

def fail {α : Type} (s : Store) (e : RunError) : Evaluation α :=
  .ended ⟨.error e, s.output⟩

def keep (s : Store) (v : Value) : Store :=
  { s with accumulator := v }

def assign (s : Store) (name : String) : Store :=
  { s with values := fun other => if other = name then some s.accumulator else s.values other }

/-- Reads a variable. The error names its place among those of the function. -/
def load (s : Store) (names : List String) (name : String) : Evaluation Store :=
  match s.values name with
  | some v => .done (s.keep v)
  | none => s.fail (.uninitialized (.ofNat (names.idxOf name)))

def compute (s : Store) : Except ValueError Value → Evaluation Store
  | .ok v => .done (s.keep v)
  | .error e => s.fail (.value e)

def test (s : Store) : Evaluation Bool :=
  match s.accumulator.asInt with
  | .ok n => .done (n != 0)
  | .error e => s.fail (.value e)

def print (s : Store) (settings : Settings) (text : String) : Evaluation Store :=
  match settings.outputFailure with
  | some reason => s.fail (.output reason)
  | none => .done { s with output := s.output ++ text }

/-- Runs a builtin, whose argument is the accumulator: `print` writes it on a line of its own,
`exit` ends the program with it as the status, and `sleep` waits for so many seconds. The last two
use the output, but write nothing. -/
def perform (s : Store) (settings : Settings) : Builtin → Evaluation Store
  | .print => s.print settings (s.accumulator.display ++ "\n")
  | .exit =>
    match s.accumulator.asInt with
    | .error e => s.fail (.value e)
    | .ok n =>
      if Int32.minValue.toInt ≤ n.toInt ∧ n.toInt ≤ Int32.maxValue.toInt then do
        let s ← s.print settings ""
        .ended ⟨.ok (.exited (Int32.ofInt n.toInt)), s.output⟩
      else s.fail (.badStatus n)
  | .sleep =>
    match s.accumulator.asFloat with
    | .error e => s.fail (.value e)
    | .ok x =>
      if ¬ x < 0 ∧ x < 18446744073709551616 then s.print settings "" else s.fail (.badPause x)

end Store

/-- Calls a function of the program with an argument, given what has been printed. It has a result
and prints. -/
abbrev Invoke := String → Value → String → Evaluation (Value × String)

/-- What the evaluation of a function depends on. -/
structure Scope where
  settings : Settings
  fuel : Nat
  names : List String
  invoke : Invoke

/-- Calls a builtin or else a function. -/
def Scope.call (scope : Scope) (name : String) (s : Store) : Evaluation Store :=
  match Builtin.ofName? name with
  | some b => s.perform scope.settings b
  | none => do
    let (result, output) ← scope.invoke name s.accumulator s.output
    return ⟨result, s.values, output⟩

def Literal.value : Literal → Value
  | int n => .int n
  | float x => .float x
  | str s => .str s

mutual

/-- Evaluates an expression; its value is left in the accumulator. Nothing but a variable can be
assigned to. -/
def Expr.evaluate (scope : Scope) : Expr → Store → Evaluation Store
  | .literal value, s => .done (s.keep value.value)
  | .ident name, s => s.load scope.names name
  | .assign (.ident name) value, s => do
    let s ← value.evaluate scope s
    return s.assign name
  | .assign _ _, _ => .unfinished
  | .arith op left right, s => do
    let first ← left.evaluate scope s
    let second ← right.evaluate scope first
    second.compute (op.apply first.accumulator second.accumulator)
  | .compare op left right, s => do
    let first ← left.evaluate scope s
    let second ← right.evaluate scope first
    second.compute ((op.holds first.accumulator second.accumulator).map .ofBool)
  | .call function args, s => do
    let s ← Expr.evaluateAll scope args s
    scope.call function s

def Expr.evaluateAll (scope : Scope) : List Expr → Store → Evaluation Store
  | [], s => .done s
  | e :: rest, s => do
    let s ← e.evaluate scope s
    Expr.evaluateAll scope rest s

end

inductive Flow where
  | next
  | leave
  | ret
  deriving DecidableEq, Repr

/-- Repeats a round until it leaves the loop. -/
def repeatRound (round : Store → Evaluation (Flow × Store)) :
    Nat → Store → Evaluation (Flow × Store)
  | 0, _ => .unfinished
  | n + 1, s => do
    match ← round s with
    | (.next, s) => repeatRound round n s
    | (.leave, s) => return (.next, s)
    | (.ret, s) => return (.ret, s)

mutual

def Stmt.evaluate (scope : Scope) : Stmt → Store → Evaluation (Flow × Store)
  | .declare name value, s => do
    let s ← value.evaluate scope s
    return (.next, s.assign name)
  | .ret none, s => .done (.ret, s)
  | .ret (some value), s => do
    let s ← value.evaluate scope s
    return (.ret, s)
  | .branch condition onTrue none, s => do
    let s ← condition.evaluate scope s
    if ← s.test then Stmt.evaluateAll scope onTrue s else return (.next, s)
  | .branch condition onTrue (some onFalse), s => do
    let s ← condition.evaluate scope s
    if ← s.test then Stmt.evaluateAll scope onTrue s else Stmt.evaluateAll scope onFalse s
  | .loop condition body, s =>
    repeatRound (fun s => do
      let s ← condition.evaluate scope s
      if ← s.test then Stmt.evaluateAll scope body s else return (.leave, s)) scope.fuel s
  | .leave, s => .done (.leave, s)
  | .effect e, s => do
    let s ← e.evaluate scope s
    return (.next, s)

def Stmt.evaluateAll (scope : Scope) : List Stmt → Store → Evaluation (Flow × Store)
  | [], s => .done (.next, s)
  | first :: rest, s => do
    match ← first.evaluate scope s with
    | (.next, s) => Stmt.evaluateAll scope rest s
    | (flow, s) => return (flow, s)

end

mutual

/-- The variables of a function after a statement, in the order of their first declaration. -/
def Stmt.declared (before : List String) : Stmt → List String
  | .declare name _ => if name ∈ before then before else before ++ [name]
  | .branch _ onTrue none => Stmt.allDeclared before onTrue
  | .branch _ onTrue (some onFalse) =>
    Stmt.allDeclared (Stmt.allDeclared before onTrue) onFalse
  | .loop _ body => Stmt.allDeclared before body
  | .ret _ => before
  | .leave => before
  | .effect _ => before

def Stmt.allDeclared (before : List String) : List Stmt → List String
  | [] => before
  | first :: rest => Stmt.allDeclared (first.declared before) rest

end

namespace Function

def names (f : Function) : List String :=
  Stmt.allDeclared f.params f.body

/-- Only the parameter has a value when a function starts: its argument, which is in the
accumulator. -/
def entry (f : Function) (argument : Value) (output : String) : Store where
  accumulator := argument
  values := fun name => if name ∈ f.params then some argument else none
  output := output

/-- Evaluates the body of a function. Its result is what it leaves in the accumulator, wherever it
ends. -/
def evaluate (f : Function) (settings : Settings) (fuel : Nat) (invoke : Invoke) (argument : Value)
    (output : String) : Evaluation (Value × String) := do
  let (_, s) ← Stmt.evaluateAll ⟨settings, fuel, f.names, invoke⟩ f.body
    (f.entry argument output)
  return (s.accumulator, s.output)

end Function

namespace Program

def function? (p : Program) (name : String) : Option Function :=
  p.functions.find? (·.name == name)

/-- Calls a function, where so many more calls may be live. -/
def invoke (p : Program) (settings : Settings) (fuel : Nat) : Nat → Invoke
  | calls, name, argument, output =>
    match p.function? name with
    | none => .ended ⟨.error (.missingFunction name), output⟩
    | some f =>
      match calls with
      | 0 => .ended ⟨.error (.tooManyCalls settings.maxCallDepth), output⟩
      | calls + 1 => f.evaluate settings fuel (p.invoke settings fuel calls) argument output

/-- Evaluates the main function, whose call is live already. Each loop may take so many rounds. -/
def evaluate (p : Program) (settings : Settings) (fuel : Nat) : Option Outcome :=
  match p.function? "main" with
  | none => some ⟨.error (.missingFunction "main"), ""⟩
  | some f =>
    Evaluation.outcome? do
      let (result, output) ←
        f.evaluate settings fuel (p.invoke settings fuel (settings.maxCallDepth - 1)) .null ""
      return ⟨.ok (.returned result), output⟩

end Program

end BlueCode
