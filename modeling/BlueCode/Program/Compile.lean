import BlueCode.Instruction
import BlueCode.Program
import BlueCode.Text.Quoted

namespace BlueCode

/-- Why a program cannot be compiled. `function` is the one being compiled. -/
inductive CompileError where
  | undefinedVariable (name function : String)
  | breakOutsideLoop (function : String)
  | invalidTarget (function : String)
  | arityMismatch (name : String) (least greatest found : Nat)
  | tooManyParameters (function : String) (count : Nat)
  | duplicateFunction (name : String)
  | invalidString (literal function : String)
  deriving DecidableEq, Repr

namespace CompileError

def message : CompileError → String
  | undefinedVariable name _ => "undefined variable: " ++ name
  | breakOutsideLoop _ => "'break' outside of a loop"
  | invalidTarget _ => "left side of '=' must be a variable"
  | arityMismatch name least greatest found =>
    let expected :=
      if least = greatest then toString least else toString least ++ " to " ++ toString greatest
    name ++ " expects " ++ expected ++ " argument(s), got " ++ toString found
  | tooManyParameters function count =>
    "function " ++ function ++ " declares " ++ toString count ++
      " parameters; at most one is supported"
  | duplicateFunction name => "function " ++ name ++ " is defined more than once"
  | invalidString literal _ =>
    "string literal " ++ Text.quoted literal ++ " cannot hold a quote or line break"

def code : CompileError → String
  | undefinedVariable .. => "VAR-C001"
  | breakOutsideLoop .. => "VAR-C002"
  | invalidTarget .. => "VAR-C003"
  | arityMismatch .. => "VAR-C004"
  | tooManyParameters .. => "VAR-C005"
  | duplicateFunction .. => "VAR-C006"
  | invalidString .. => "VAR-C007"

def function? : CompileError → Option String
  | undefinedVariable _ function | breakOutsideLoop function | invalidTarget function
  | tooManyParameters function _ | invalidString _ function => some function
  | arityMismatch .. | duplicateFunction _ => none

end CompileError

namespace Compile

abbrev Signatures := List (String × Nat)

def signatures (before : Signatures) : List Function → Except CompileError Signatures
  | [] => .ok before
  | f :: rest =>
    if 1 < f.params.length then .error (.tooManyParameters f.name f.params.length)
    else if (before.lookup f.name).isSome then .error (.duplicateFunction f.name)
    else signatures (before ++ [(f.name, f.params.length)]) rest

structure Context where
  signatures : Signatures
  function : String
  /-- The variables declared so far; the place of each in the list is its heap address. -/
  declared : List String

def Context.cell (cx : Context) (name : String) : Except CompileError Operand :=
  match cx.declared.idxOf? name with
  | some address => .ok (.heap (Int64.ofNat address))
  | none => .error (.undefinedVariable name cx.function)

/-- The number of arguments has to fit a builtin, and else a function of the program; a name that is
neither may be called with any. -/
def Context.checkArity (cx : Context) (name : String) (found : Nat) : Except CompileError Unit :=
  let arity : Option (Nat × Nat) :=
    match Builtin.ofName? name with
    | some builtin => some builtin.arity
    | none => (cx.signatures.lookup name).map fun count => (count, count)
  match arity with
  | some (least, greatest) =>
    if least ≤ found ∧ found ≤ greatest then .ok ()
    else .error (.arityMismatch name least greatest found)
  | none => .ok ()

def acc : Operand := .reg .ra

/-- A string has to fit into a line of machine code. -/
def Context.literal (cx : Context) : Literal → Except CompileError Operand
  | .int n => .ok (.int n)
  | .float x => .ok (.float x)
  | .str s =>
    if s.toList.any fun c => c == '"' || c == '\n' || c == '\r' then
      .error (.invalidString s cx.function)
    else .ok (.str s)

mutual

/-- Operands go from left to right; the left one waits on the stack for the right one. -/
def expr (cx : Context) : Expr → Except CompileError (List Instruction)
  | .literal value => do
    let operand ← cx.literal value
    return [.mov operand acc]
  | .ident name => do
    let cell ← cx.cell name
    return [.mov cell acc]
  | .assign (.ident name) value => do
    let cell ← cx.cell name
    let code ← expr cx value
    return code ++ [.mov acc cell]
  | .assign _ _ => .error (.invalidTarget cx.function)
  | .arith op left right => do
    let left ← expr cx left
    let right ← expr cx right
    return left ++ .push acc :: right ++
      [.pop (.reg .rb), ⟨.arith op, some (.reg .rb), some acc⟩]
  | .compare op left right => do
    let left ← expr cx left
    let right ← expr cx right
    return left ++ .push acc :: right ++
      [.pop (.reg .rb), ⟨.compare op, some (.reg .rb), some acc⟩]
  | .call function args => do
    cx.checkArity function args.length
    let code ← exprs cx args
    return code ++ [.call function]

def exprs (cx : Context) : List Expr → Except CompileError (List Instruction)
  | [] => .ok []
  | e :: rest => do
    let first ← expr cx e
    let others ← exprs cx rest
    return first ++ others

end

structure Progress where
  declared : List String
  labels : Nat

/-- A repeated declaration keeps the cell of the first. -/
def Progress.declare (p : Progress) (name : String) : Progress :=
  if name ∈ p.declared then p else { p with declared := p.declared ++ [name] }

def Progress.label (p : Progress) (stem : String) : String × Progress :=
  (stem ++ "_" ++ toString p.labels, { p with labels := p.labels + 1 })

mutual

/-- `exit` is the label behind the innermost loop. -/
def stmt (sigs : Signatures) (function : String) (exit : Option String) (p : Progress) :
    Stmt → Except CompileError (List Instruction × Progress)
  | .declare name value => do
    let code ← expr ⟨sigs, function, p.declared⟩ value
    let p := p.declare name
    let cell ← Context.cell ⟨sigs, function, p.declared⟩ name
    return (code ++ [.mov acc cell], p)
  | .ret none => .ok ([.ret], p)
  | .ret (some value) => do
    let code ← expr ⟨sigs, function, p.declared⟩ value
    return (code ++ [.ret], p)
  | .branch condition onTrue none => do
    let test ← expr ⟨sigs, function, p.declared⟩ condition
    let (done, p) := p.label "PT"
    let (first, p) ← stmts sigs function exit p onTrue
    return (test ++ .jumpIfNot acc done :: first ++ [.label done], p)
  | .branch condition onTrue (some onFalse) => do
    let test ← expr ⟨sigs, function, p.declared⟩ condition
    let (other, p) := p.label "PT"
    let (first, p) ← stmts sigs function exit p onTrue
    let (done, p) := p.label "PT"
    let (second, p) ← stmts sigs function exit p onFalse
    return (test ++ .jumpIfNot acc other :: first ++ .jump done :: .label other :: second ++
      [.label done], p)
  | .loop condition body => do
    let (start, p) := p.label "LOOP_START"
    let (done, p) := p.label "LOOP_END"
    let test ← expr ⟨sigs, function, p.declared⟩ condition
    let (code, p) ← stmts sigs function (some done) p body
    return (.label start :: test ++ .jumpIfNot acc done :: code ++ [.jump start, .label done], p)
  | .leave =>
    match exit with
    | some done => .ok ([.jump done], p)
    | none => .error (.breakOutsideLoop function)
  | .effect e => do
    let code ← expr ⟨sigs, function, p.declared⟩ e
    return (code, p)

def stmts (sigs : Signatures) (function : String) (exit : Option String) (p : Progress) :
    List Stmt → Except CompileError (List Instruction × Progress)
  | [] => .ok ([], p)
  | s :: rest => do
    let (first, p) ← stmt sigs function exit p s
    let (others, p) ← stmts sigs function exit p rest
    return (first ++ others, p)

end

def function (sigs : Signatures) (f : Function) : Except CompileError (List Instruction) := do
  let params := f.params.take 1
  let (body, _) ← stmts sigs f.name none ⟨params, 0⟩ f.body
  return .define f.name :: params.map (fun _ => .mov acc (.heap 0)) ++ body

end Compile

def Program.compile (p : Program) : Except CompileError (List Instruction) := do
  let sigs ← Compile.signatures [] p.functions
  let codes ← p.functions.mapM (Compile.function sigs)
  return codes.flatten

end BlueCode
