import BlueCode.Program
import BlueCode.Token.Lexer

namespace BlueCode

namespace Parser

inductive Expected where
  | symbol (s : Symbol)
  | identifier
  | declaration
  | expression
  deriving DecidableEq, Repr

end Parser

/-- The first token that cannot be part of a program, or the end of the text. -/
structure ParseError where
  /-- How many tokens stand before it. -/
  position : Nat
  span : Text.Span
  expected : Parser.Expected
  found : Option Token
  deriving DecidableEq, Repr

namespace Parser

def Expected.describe : Expected → String
  | .symbol s => (Token.symbol s).describe
  | .identifier => "identifier"
  | .declaration => "'func' declaration"
  | .expression => "expression"

/-- What was read of the tokens from the position `start` on, and the position behind it. -/
structure Part (tokens : Array Located) (start : Nat) (α : Type) where
  value : α
  next : Nat
  start_lt : start < next
  next_le : next ≤ tokens.size

namespace Part

variable {tokens : Array Located} {start : Nat} {α β : Type}

def join (part : Part tokens start α) (more : Part tokens part.next β) : Part tokens start β :=
  ⟨more.value, more.next, Nat.lt_trans part.start_lt more.start_lt, more.next_le⟩

def map (f : α → β) (part : Part tokens start α) : Part tokens start β :=
  ⟨f part.value, part.next, part.start_lt, part.next_le⟩

theorem left_lt (part : Part tokens start α) : tokens.size - part.next < tokens.size - start := by
  have := part.start_lt
  have := part.next_le
  omega

end Part

section

variable (tokens : Array Located)

def peek (position : Nat) : Option Token :=
  tokens[position]?.map Located.token

/-- The end of the text lies behind the last token. -/
def stop : Nat :=
  tokens.back?.elim 0 fun last => last.span.stop

def spanAt (position : Nat) : Text.Span :=
  tokens[position]?.elim ⟨stop tokens, stop tokens⟩ Located.span

def failure (position : Nat) (expected : Expected) : ParseError :=
  ⟨position, spanAt tokens position, expected, peek tokens position⟩

variable {tokens} in
def step {position : Nat} {t : Token} {α : Type} (h : peek tokens position = some t) (value : α) :
    Part tokens position α where
  value := value
  next := position + 1
  start_lt := Nat.lt_succ_self position
  next_le := by
    obtain ⟨located, hlocated, -⟩ := Option.map_eq_some_iff.1 h
    exact (Array.getElem?_eq_some_iff.1 hlocated).1

def eat? (s : Symbol) (position : Nat) : Option (Part tokens position Unit) :=
  if h : peek tokens position = some (.symbol s) then some (step h ()) else none

def expect (s : Symbol) (position : Nat) : Except ParseError (Part tokens position Unit) :=
  match eat? tokens s position with
  | some eaten => .ok eaten
  | none => .error (failure tokens position (.symbol s))

def identifier (position : Nat) : Except ParseError (Part tokens position String) :=
  match h : peek tokens position with
  | some (.ident name) => .ok (step h name)
  | _ => .error (failure tokens position .identifier)

/-- The operators that bind their operands equally tight, and group to the left. -/
inductive Level where
  | comparison
  | sum
  | product
  deriving DecidableEq, Repr

def Level.operation? : Level → Token → Option (Expr → Expr → Expr)
  | comparison, .symbol .equal => some (.compare .eq)
  | comparison, .symbol .notEqual => some (.compare .ne)
  | comparison, .symbol .less => some (.compare .lt)
  | comparison, .symbol .greater => some (.compare .gt)
  | comparison, .symbol .lessEqual => some (.compare .le)
  | comparison, .symbol .greaterEqual => some (.compare .ge)
  | sum, .symbol .plus => some (.arith .add)
  | sum, .symbol .minus => some (.arith .sub)
  | product, .symbol .star => some (.arith .mul)
  | product, .symbol .slash => some (.arith .div)
  | _, _ => none

def Level.rank : Level → Nat
  | product => 0
  | sum => 1
  | comparison => 2

def operation? (level : Level) (position : Nat) :
    Option (Part tokens position (Expr → Expr → Expr)) :=
  match h : peek tokens position with
  | some t => (level.operation? t).map (step h)
  | none => none

mutual

def expression (position : Nat) : Except ParseError (Part tokens position Expr) := do
  let left ← chain .comparison position
  match eat? tokens .assign left.next with
  | some eaten =>
    let right ← expression eaten.next
    return left.join (eaten.join (right.map (.assign left.value)))
  | none => return left
termination_by (tokens.size - position, 7)
decreasing_by
  · exact Prod.Lex.right _ (by decide)
  · exact Prod.Lex.left _ _ (Nat.lt_trans eaten.left_lt left.left_lt)

def chain (level : Level) (position : Nat) : Except ParseError (Part tokens position Expr) := do
  let first ← operand level position
  links level first
termination_by (tokens.size - position, 2 * level.rank + 2)
decreasing_by
  · exact Prod.Lex.right _ (by omega)
  · exact Prod.Lex.left _ _ first.left_lt

/-- The operators of a level with their right operands, behind `left`. -/
def links {start : Nat} (level : Level) (left : Part tokens start Expr) :
    Except ParseError (Part tokens start Expr) := do
  match operation? tokens level left.next with
  | some operation =>
    let right ← operand level operation.next
    links level (left.join (operation.join (right.map (operation.value left.value))))
  | none => return left
termination_by (tokens.size - left.next, 0)
decreasing_by
  · exact Prod.Lex.left _ _ operation.left_lt
  · exact Prod.Lex.left _ _ (Nat.lt_trans right.left_lt operation.left_lt)

def operand (level : Level) (position : Nat) : Except ParseError (Part tokens position Expr) :=
  match level with
  | .comparison => chain .sum position
  | .sum => chain .product position
  | .product => factor position
termination_by (tokens.size - position, 2 * level.rank + 1)
decreasing_by
  all_goals exact Prod.Lex.right _ (by decide)

def factor (position : Nat) : Except ParseError (Part tokens position Expr) :=
  match h : peek tokens position with
  | some (.int n) => .ok (step h (.literal (.int n)))
  | some (.float x) => .ok (step h (.literal (.float x)))
  | some (.str s) => .ok (step h (.literal (.str s)))
  | some (.ident name) =>
    if peek tokens (position + 1) = some (.symbol .openParen) then call (step h name)
    else .ok (step h (.ident name))
  | _ =>
    match eat? tokens .openParen position with
    | some opened => do
      let inner ← expression opened.next
      let closed ← expect tokens .closeParen inner.next
      return opened.join (inner.join (closed.map fun _ => inner.value))
    | none => .error (failure tokens position .expression)
termination_by (tokens.size - position, 0)
decreasing_by
  · exact Prod.Lex.left _ _ (step h name).left_lt
  · exact Prod.Lex.left _ _ opened.left_lt

def call {start : Nat} (function : Part tokens start String) :
    Except ParseError (Part tokens start Expr) := do
  let opened ← expect tokens .openParen function.next
  let args ← (
    if peek tokens opened.next = some (.symbol .closeParen) then
      pure (opened.map fun _ => [])
    else do
      let first ← expression opened.next
      arguments (opened.join (first.map fun e => [e])))
  let closed ← expect tokens .closeParen args.next
  return function.join (args.join (closed.map fun _ => .call function.value args.value))
termination_by (tokens.size - function.next, 0)
decreasing_by
  · exact Prod.Lex.left _ _ opened.left_lt
  · exact Prod.Lex.left _ _ (Nat.lt_trans first.left_lt opened.left_lt)

def arguments {start : Nat} (before : Part tokens start (List Expr)) :
    Except ParseError (Part tokens start (List Expr)) := do
  match eat? tokens .comma before.next with
  | some comma =>
    let next ← expression comma.next
    arguments (before.join (comma.join (next.map fun e => before.value ++ [e])))
  | none => return before
termination_by (tokens.size - before.next, 0)
decreasing_by
  · exact Prod.Lex.left _ _ comma.left_lt
  · exact Prod.Lex.left _ _ (Nat.lt_trans next.left_lt comma.left_lt)

end

/-- A semicolon behind a statement may be left out. -/
def terminated {start : Nat} (stmt : Part tokens start Stmt) : Part tokens start Stmt :=
  match eat? tokens .semicolon stmt.next with
  | some eaten => stmt.join (eaten.map fun _ => stmt.value)
  | none => stmt

mutual

def statement (position : Nat) : Except ParseError (Part tokens position Stmt) :=
  match h : peek tokens position with
  | some (.symbol .var) => do
    let name ← identifier tokens (position + 1)
    let eaten ← expect tokens .assign name.next
    let value ← expression tokens eaten.next
    return terminated tokens ((step h ()).join
      (name.join (eaten.join (value.map (.declare name.value)))))
  | some (.symbol .ret) => do
    let keyword := step h ()
    match peek tokens keyword.next with
    | some (.symbol .semicolon) | some (.symbol .closeBrace) | none =>
      return terminated tokens (keyword.map fun _ => .ret none)
    | some _ =>
      let value ← expression tokens keyword.next
      return terminated tokens (keyword.join (value.map fun e => .ret (some e)))
  | some (.symbol .cond) => branch position
  | some (.symbol .loop) => do
    let keyword := step h ()
    let condition ← expression tokens keyword.next
    let body ← block condition.next
    return keyword.join (condition.join (body.map (.loop condition.value)))
  | some (.symbol .leave) => return terminated tokens (step h .leave)
  | _ => do
    let value ← expression tokens position
    return terminated tokens (value.map .effect)
termination_by (tokens.size - position, 1)
decreasing_by
  · exact Prod.Lex.right _ (by decide)
  · exact Prod.Lex.left _ _ (Nat.lt_trans condition.left_lt keyword.left_lt)

def branch (position : Nat) : Except ParseError (Part tokens position Stmt) := do
  let keyword ← expect tokens .cond position
  let condition ← expression tokens keyword.next
  let onTrue ← block condition.next
  let before := keyword.join (condition.join onTrue)
  match eat? tokens .otherwise onTrue.next with
  | some eaten =>
    if peek tokens eaten.next = some (.symbol .cond) then
      let inner ← branch eaten.next
      return before.join (eaten.join (inner.map fun s =>
        .branch condition.value onTrue.value (some [s])))
    else
      let onFalse ← block eaten.next
      return before.join (eaten.join (onFalse.map fun ss =>
        .branch condition.value onTrue.value (some ss)))
  | none => return before.map fun ss => .branch condition.value ss none
termination_by (tokens.size - position, 0)
decreasing_by
  · exact Prod.Lex.left _ _ (keyword.join condition).left_lt
  · exact Prod.Lex.left _ _ (before.join eaten).left_lt
  · exact Prod.Lex.left _ _ (before.join eaten).left_lt

def block (position : Nat) : Except ParseError (Part tokens position (List Stmt)) := do
  let opened ← expect tokens .openBrace position
  let body ← statements (opened.map fun _ => [])
  let closed ← expect tokens .closeBrace body.next
  return body.join (closed.map fun _ => body.value)
termination_by (tokens.size - position, 0)
decreasing_by exact Prod.Lex.left _ _ opened.left_lt

def statements {start : Nat} (before : Part tokens start (List Stmt)) :
    Except ParseError (Part tokens start (List Stmt)) :=
  match peek tokens before.next with
  | some (.symbol .closeBrace) => return before
  | none => .error (failure tokens before.next (.symbol .closeBrace))
  | some _ => do
    let next ← statement before.next
    statements (before.join (next.map fun s => before.value ++ [s]))
termination_by (tokens.size - before.next, 2)
decreasing_by
  · exact Prod.Lex.right _ (by decide)
  · exact Prod.Lex.left _ _ next.left_lt

end

def parameters {start : Nat} (before : Part tokens start (List String)) :
    Except ParseError (Part tokens start (List String)) := do
  match eat? tokens .comma before.next with
  | some comma =>
    let next ← identifier tokens comma.next
    parameters (before.join (comma.join (next.map fun name => before.value ++ [name])))
  | none => return before
termination_by tokens.size - before.next
decreasing_by exact (comma.join next).left_lt

def function (position : Nat) : Except ParseError (Part tokens position Function) :=
  match eat? tokens .func position with
  | some keyword => do
    let name ← identifier tokens keyword.next
    let opened ← expect tokens .openParen name.next
    let params ← (
      if peek tokens opened.next = some (.symbol .closeParen) then
        pure (opened.map fun _ => [])
      else do
        let first ← identifier tokens opened.next
        parameters tokens (opened.join (first.map fun name => [name])))
    let closed ← expect tokens .closeParen params.next
    let body ← block tokens closed.next
    return keyword.join (name.join (params.join (closed.join (body.map
      (.mk name.value params.value)))))
  | none => .error (failure tokens position .declaration)

def functions (position : Nat) (before : List Function) : Except ParseError (List Function) :=
  match peek tokens position with
  | none => .ok before
  | some _ => do
    let next ← function tokens position
    functions next.next (before ++ [next.value])
termination_by tokens.size - position
decreasing_by exact next.left_lt

end

end Parser

/-- The program that the tokens write, by recursive descent. Products bind tighter than sums, sums
tighter than comparisons, and these tighter than `=`, the only operator that groups to the right. -/
def parse (tokens : List Located) : Except ParseError Program :=
  (Parser.functions tokens.toArray 0 []).map Program.mk

namespace ParseError

def detail (e : ParseError) : String :=
  "expected " ++ e.expected.describe ++ ", got " ++
    match e.found with
    | some token => token.describe
    | none => "EOF"

def message (e : ParseError) : String :=
  "Parse error at token " ++ toString e.position ++ ": " ++ e.detail

/-- The end of the text has a code of its own, whatever was expected there. -/
def code (e : ParseError) : String :=
  match e.found, e.expected with
  | none, _ => "VAR-P002"
  | some _, .symbol _ => "VAR-P001"
  | some _, .identifier => "VAR-P003"
  | some _, .declaration => "VAR-P004"
  | some _, .expression => "VAR-P005"

end ParseError

end BlueCode
