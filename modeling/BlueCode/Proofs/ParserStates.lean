import BlueCode.Program.Parser

namespace BlueCode.Parser

/-- The operators of one expression whose right sides are not complete. -/
structure Pending where
  /-- Left sides of `=`, the innermost last. -/
  targets : List Expr
  compared : Option (Expr × CompareOp)
  summed : Option (Expr × ArithOp)
  scaled : Option (Expr × ArithOp)

namespace Pending

def none : Pending := ⟨[], .none, .none, .none⟩

def product (p : Pending) (last : Expr) : Expr :=
  match p.scaled with
  | some (left, op) => .arith op left last
  | .none => last

def sum (p : Pending) (last : Expr) : Expr :=
  match p.summed with
  | some (left, op) => .arith op left (p.product last)
  | .none => p.product last

def comparison (p : Pending) (last : Expr) : Expr :=
  match p.compared with
  | some (left, op) => .compare op left (p.sum last)
  | .none => p.sum last

def expression (p : Pending) (last : Expr) : Expr :=
  p.targets.foldr .assign (p.comparison last)

end Pending

inductive Bracket where
  | group (outside : Pending)
  | argument (function : String) (before : List Expr) (outside : Pending)

inductive Purpose where
  | declare (name : String)
  | ret
  | effect
  /-- The condition of an `if`; the list holds the conditions and blocks of the `if`s, the outermost
  first, whose `else` it stands in. -/
  | branch (chain : List (Expr × List Stmt))
  | loop

inductive Opener where
  | onTrue (chain : List (Expr × List Stmt)) (condition : Expr)
  | onFalse (chain : List (Expr × List Stmt)) (condition : Expr) (onTrue : List Stmt)
  | loop (condition : Expr)

/-- The innermost open block of a function, with the blocks around it. -/
structure Scope where
  functions : List Function
  name : String
  params : List String
  body : List Stmt
  openers : List (Opener × List Stmt)

def Scope.push (s : Scope) (stmt : Stmt) : Scope :=
  { s with body := s.body ++ [stmt] }

/-- Closes a chain of `else if`s around its last member. -/
def chained (chain : List (Expr × List Stmt)) (last : Stmt) : Stmt :=
  chain.foldr (fun (condition, onTrue) inner => .branch condition onTrue (some [inner])) last

structure Nest where
  scope : Scope
  purpose : Purpose
  brackets : List Bracket
  pending : Pending

/-- What has been read, and so what may come next. -/
inductive State where
  | program (functions : List Function)
  | functionName (functions : List Function)
  | parameterList (functions : List Function) (name : String)
  | firstParameter (functions : List Function) (name : String)
  | nextParameter (functions : List Function) (name : String) (params : List String)
  | afterParameter (functions : List Function) (name : String) (params : List String)
  | functionBody (functions : List Function) (name : String) (params : List String)
  | statement (scope : Scope)
  | terminated (scope : Scope)
  | variableName (scope : Scope)
  | variableValue (scope : Scope) (name : String)
  | returned (scope : Scope)
  | operand (nest : Nest)
  | firstArgument (nest : Nest) (function : String)
  | named (nest : Nest) (name : String)
  | complete (nest : Nest) (last : Expr)
  | afterOnTrue (scope : Scope) (chain : List (Expr × List Stmt)) (condition : Expr)
      (onTrue : List Stmt)
  | afterElse (scope : Scope) (chain : List (Expr × List Stmt)) (condition : Expr)
      (onTrue : List Stmt)

def Scope.enter (s : Scope) (opener : Opener) : State :=
  .statement { s with body := [], openers := (opener, s.body) :: s.openers }

def Scope.close (s : Scope) : State :=
  match s.openers with
  | [] => .program (s.functions ++ [⟨s.name, s.params, s.body⟩])
  | (.onTrue chain condition, before) :: rest =>
    .afterOnTrue { s with body := before, openers := rest } chain condition s.body
  | (.onFalse chain condition onTrue, before) :: rest =>
    .statement { s with
      body := before ++ [chained chain (.branch condition onTrue (some s.body))]
      openers := rest }
  | (.loop condition, before) :: rest =>
    .statement { s with body := before ++ [.loop condition s.body], openers := rest }

def Scope.expression (s : Scope) (purpose : Purpose) : Nest :=
  ⟨s, purpose, [], .none⟩

def Nest.operand (nest : Nest) : Token → Except Expected State
  | .int n => .ok (.complete nest (.literal (.int n)))
  | .float x => .ok (.complete nest (.literal (.float x)))
  | .str s => .ok (.complete nest (.literal (.str s)))
  | .ident name => .ok (.named nest name)
  | .symbol .openParen =>
    .ok (.operand { nest with brackets := .group nest.pending :: nest.brackets, pending := .none })
  | .symbol _ => .error .expression

def Scope.statement (scope : Scope) : Token → Except Expected State
  | .symbol .var => .ok (.variableName scope)
  | .symbol .ret => .ok (.returned scope)
  | .symbol .cond => .ok (.operand (scope.expression (.branch [])))
  | .symbol .loop => .ok (.operand (scope.expression .loop))
  | .symbol .leave => .ok (.terminated (scope.push .leave))
  | .symbol .closeBrace => .ok scope.close
  | t => (scope.expression .effect).operand t

/-- A token after a statement that a semicolon may follow. -/
def Scope.terminated (scope : Scope) : Token → Except Expected State
  | .symbol .semicolon => .ok (.statement scope)
  | t => scope.statement t

/-- A token, no operator, after the expression `value`. -/
def Nest.finished (nest : Nest) (value : Expr) (t : Token) : Except Expected State :=
  match nest.brackets with
  | .group outside :: rest =>
    if t = .symbol .closeParen then
      .ok (.complete { nest with brackets := rest, pending := outside } value)
    else .error (.symbol .closeParen)
  | .argument function before outside :: rest =>
    if t = .symbol .comma then
      .ok (.operand { nest with
        brackets := .argument function (before ++ [value]) outside :: rest, pending := .none })
    else if t = .symbol .closeParen then
      .ok (.complete { nest with brackets := rest, pending := outside }
        (.call function (before ++ [value])))
    else .error (.symbol .closeParen)
  | [] =>
    match nest.purpose with
    | .declare name => (nest.scope.push (.declare name value)).terminated t
    | .ret => (nest.scope.push (.ret (some value))).terminated t
    | .effect => (nest.scope.push (.effect value)).terminated t
    | .branch chain =>
      if t = .symbol .openBrace then .ok (nest.scope.enter (.onTrue chain value))
      else .error (.symbol .openBrace)
    | .loop =>
      if t = .symbol .openBrace then .ok (nest.scope.enter (.loop value))
      else .error (.symbol .openBrace)

inductive Operator where
  | assign
  | compare (op : CompareOp)
  | sum (op : ArithOp)
  | product (op : ArithOp)
  deriving DecidableEq, Repr

def Operator.ofToken? : Token → Option Operator
  | .symbol .assign => some .assign
  | .symbol .equal => some (.compare .eq)
  | .symbol .notEqual => some (.compare .ne)
  | .symbol .less => some (.compare .lt)
  | .symbol .greater => some (.compare .gt)
  | .symbol .lessEqual => some (.compare .le)
  | .symbol .greaterEqual => some (.compare .ge)
  | .symbol .plus => some (.sum .add)
  | .symbol .minus => some (.sum .sub)
  | .symbol .star => some (.product .mul)
  | .symbol .slash => some (.product .div)
  | _ => none

/-- An operator takes as its left side what binds tighter, or as tight if it groups to the left. -/
def Pending.extend (p : Pending) (last : Expr) : Operator → Pending
  | .assign => ⟨p.targets ++ [p.comparison last], .none, .none, .none⟩
  | .compare op => ⟨p.targets, some (p.comparison last, op), .none, .none⟩
  | .sum op => ⟨p.targets, p.compared, some (p.sum last, op), .none⟩
  | .product op => ⟨p.targets, p.compared, p.summed, some (p.product last, op)⟩

def Nest.complete (nest : Nest) (last : Expr) (t : Token) : Except Expected State :=
  match Operator.ofToken? t with
  | some op => .ok (.operand { nest with pending := nest.pending.extend last op })
  | none => nest.finished (nest.pending.expression last) t

def State.feed : State → Token → Except Expected State
  | .program functions, t =>
    if t = .symbol .func then .ok (.functionName functions) else .error .declaration
  | .functionName functions, t =>
    match t with
    | .ident name => .ok (.parameterList functions name)
    | _ => .error .identifier
  | .parameterList functions name, t =>
    if t = .symbol .openParen then .ok (.firstParameter functions name)
    else .error (.symbol .openParen)
  | .firstParameter functions name, t =>
    match t with
    | .symbol .closeParen => .ok (.functionBody functions name [])
    | .ident param => .ok (.afterParameter functions name [param])
    | _ => .error .identifier
  | .nextParameter functions name params, t =>
    match t with
    | .ident param => .ok (.afterParameter functions name (params ++ [param]))
    | _ => .error .identifier
  | .afterParameter functions name params, t =>
    match t with
    | .symbol .comma => .ok (.nextParameter functions name params)
    | .symbol .closeParen => .ok (.functionBody functions name params)
    | _ => .error (.symbol .closeParen)
  | .functionBody functions name params, t =>
    if t = .symbol .openBrace then .ok (.statement ⟨functions, name, params, [], []⟩)
    else .error (.symbol .openBrace)
  | .statement scope, t => scope.statement t
  | .terminated scope, t => scope.terminated t
  | .variableName scope, t =>
    match t with
    | .ident name => .ok (.variableValue scope name)
    | _ => .error .identifier
  | .variableValue scope name, t =>
    if t = .symbol .assign then .ok (.operand (scope.expression (.declare name)))
    else .error (.symbol .assign)
  | .returned scope, t =>
    if t = .symbol .semicolon ∨ t = .symbol .closeBrace then (scope.push (.ret none)).terminated t
    else (scope.expression .ret).operand t
  | .operand nest, t => nest.operand t
  | .firstArgument nest function, t =>
    if t = .symbol .closeParen then .ok (.complete nest (.call function []))
    else
      Nest.operand { nest with
        brackets := .argument function [] nest.pending :: nest.brackets, pending := .none } t
  | .named nest name, t =>
    if t = .symbol .openParen then .ok (.firstArgument nest name) else nest.complete (.ident name) t
  | .complete nest last, t => nest.complete last t
  | .afterOnTrue scope chain condition onTrue, t =>
    if t = .symbol .otherwise then .ok (.afterElse scope chain condition onTrue)
    else (scope.push (chained chain (.branch condition onTrue none))).statement t
  | .afterElse scope chain condition onTrue, t =>
    match t with
    | .symbol .cond =>
      .ok (.operand (scope.expression (.branch (chain ++ [(condition, onTrue)]))))
    | .symbol .openBrace => .ok (scope.enter (.onFalse chain condition onTrue))
    | _ => .error (.symbol .openBrace)

/-- What the end of the text should have been after the expression being read. -/
def Nest.missing (nest : Nest) : Expected :=
  match nest.brackets, nest.purpose with
  | _ :: _, _ => .symbol .closeParen
  | [], .branch _ => .symbol .openBrace
  | [], .loop => .symbol .openBrace
  | [], _ => .symbol .closeBrace

/-- The program, if the tokens may end here. -/
def State.finish : State → Except Expected Program
  | .program functions => .ok ⟨functions⟩
  | .functionName _ => .error .identifier
  | .parameterList _ _ => .error (.symbol .openParen)
  | .firstParameter _ _ => .error .identifier
  | .nextParameter _ _ _ => .error .identifier
  | .afterParameter _ _ _ => .error (.symbol .closeParen)
  | .functionBody _ _ _ => .error (.symbol .openBrace)
  | .statement _ => .error (.symbol .closeBrace)
  | .terminated _ => .error (.symbol .closeBrace)
  | .variableName _ => .error .identifier
  | .variableValue _ _ => .error (.symbol .assign)
  | .returned _ => .error (.symbol .closeBrace)
  | .operand _ => .error .expression
  | .firstArgument _ _ => .error .expression
  | .named nest _ => .error nest.missing
  | .complete nest _ => .error nest.missing
  | .afterOnTrue _ _ _ _ => .error (.symbol .closeBrace)
  | .afterElse _ _ _ _ => .error (.symbol .openBrace)

/-- Reads on from a state. `position` counts the tokens before these, and `stop` is where the last
of them ends. -/
def run (state : State) (position stop : Nat) : List Located → Except ParseError Program
  | [] =>
    match state.finish with
    | .ok program => .ok program
    | .error expected => .error ⟨position, ⟨stop, stop⟩, expected, none⟩
  | t :: rest =>
    match state.feed t.token with
    | .ok next => run next (position + 1) t.span.stop rest
    | .error expected => .error ⟨position, t.span, expected, some t.token⟩

end BlueCode.Parser
