import BlueCode.Proofs.WrittenExpressions

namespace BlueCode

def inBraces (tokens : List Token) : List Token :=
  .symbol .openBrace :: tokens ++ [.symbol .closeBrace]

mutual

def Stmt.tokens : Stmt → List Token
  | .declare name value =>
    .symbol .var :: .ident name :: .symbol .assign :: value.tokens .assignment ++
      [.symbol .semicolon]
  | .ret none => [.symbol .ret, .symbol .semicolon]
  | .ret (some value) => .symbol .ret :: value.tokens .assignment ++ [.symbol .semicolon]
  | .branch condition onTrue none =>
    .symbol .cond :: condition.tokens .assignment ++ inBraces (Stmt.listTokens onTrue)
  | .branch condition onTrue (some onFalse) =>
    .symbol .cond :: condition.tokens .assignment ++ inBraces (Stmt.listTokens onTrue) ++
      .symbol .otherwise :: inBraces (Stmt.listTokens onFalse)
  | .loop condition body =>
    .symbol .loop :: condition.tokens .assignment ++ inBraces (Stmt.listTokens body)
  | .leave => [.symbol .leave, .symbol .semicolon]
  | .effect e => e.tokens .assignment ++ [.symbol .semicolon]

def Stmt.listTokens : List Stmt → List Token
  | [] => []
  | s :: rest => s.tokens ++ Stmt.listTokens rest

end

attribute [simp] Stmt.tokens Stmt.listTokens

def Function.tokens (f : Function) : List Token :=
  .symbol .func :: .ident f.name ::
    inParentheses ([.symbol .comma].intercalate (f.params.map fun param => [.ident param])) ++
    inBraces (Stmt.listTokens f.body)

def Program.tokens (p : Program) : List Token :=
  p.functions.flatMap Function.tokens

namespace Parser

/-- The state takes the first token of a statement, or the end of the block, as the scope does. An
`else` would belong to the statement before. -/
def State.Awaits (s : State) (scope : Scope) : Prop :=
  ∀ ⦃t⦄, t ≠ .symbol .otherwise → s.feed t = scope.statement t

def Scope.pushAll (scope : Scope) (stmts : List Stmt) : Scope :=
  { scope with body := scope.body ++ stmts }

theorem Scope.pushAll_nil (scope : Scope) : scope.pushAll [] = scope := by
  rw [pushAll, List.append_nil]

theorem Scope.pushAll_cons (scope : Scope) (stmt : Stmt) (rest : List Stmt) :
    scope.pushAll (stmt :: rest) = (scope.push stmt).pushAll rest := by
  rw [pushAll, pushAll, push, List.append_assoc]
  rfl

namespace State

variable {s next : State} {scope : Scope} {nest : Nest} {e : Expr} {t : Token}

theorem awaits_statement (scope : Scope) : (statement scope).Awaits scope :=
  fun _ _ => rfl

theorem awaits_afterOnTrue (scope : Scope) (condition : Expr) (onTrue : List Stmt) :
    (afterOnTrue scope [] condition onTrue).Awaits
      (scope.push (.branch condition onTrue none)) := by
  intro t ht
  rw [feed, if_neg ht]
  rfl

theorem Awaits.begins (h : s.Awaits scope) : s.Begins (scope.expression .effect) := by
  intro t next hnext
  have ht : t ≠ .symbol .otherwise := by
    rintro rfl
    cases hnext
  rw [h ht, ← hnext]
  unfold Scope.statement
  split <;> first | rfl | cases hnext

theorem begins_returned (scope : Scope) : (returned scope).Begins (scope.expression .ret) := by
  intro t next hnext
  have ht : ¬ (t = .symbol .semicolon ∨ t = .symbol .closeBrace) := by
    rintro (rfl | rfl) <;> cases hnext
  rw [feed, if_neg ht]
  exact hnext

/-- An expression of a statement ends where a token follows that is no operator. -/
theorem Begins.feedAll_tokens (h : s.Begins nest) (hp : nest.pending = .none)
    (ht : t ≠ .symbol .openParen) (hop : Operator.ofToken? t = none)
    (hnext : nest.finished e t = .ok next) (rest : List Token) :
    s.feedAll (e.tokens .assignment ++ t :: rest) = next.feedAll rest :=
  (readsAs_tokens e .assignment).feedAll_append h hp ht hop hnext rest

end State

def ReadsStatements (tokens : List Token) (stmts : List Stmt) : Prop :=
  ∀ ⦃s : State⦄ ⦃scope : Scope⦄, s.Awaits scope →
    ∃ next, s.feedAll tokens = .ok next ∧ next.Awaits (scope.pushAll stmts)

namespace ReadsStatements

variable {tokens firstTokens restTokens : List Token} {stmts body : List Stmt} {stmt : Stmt}
variable {scope : Scope}

theorem nil : ReadsStatements [] [] := by
  intro s scope h
  rw [Scope.pushAll_nil]
  exact ⟨s, rfl, h⟩

theorem cons (hfirst : ReadsStatements firstTokens [stmt])
    (hrest : ReadsStatements restTokens stmts) :
    ReadsStatements (firstTokens ++ restTokens) (stmt :: stmts) := by
  intro s scope h
  obtain ⟨middle, hmiddle, hm⟩ := hfirst h
  obtain ⟨next, hnext, hn⟩ := hrest hm
  refine ⟨next, ?_, ?_⟩
  · rw [State.feedAll_append_of_ok hmiddle, hnext]
  · rwa [Scope.pushAll_cons]

theorem feedAll_block (h : ReadsStatements tokens body) (scope : Scope) (opener : Opener)
    (rest : List Token) :
    (scope.enter opener).feedAll (tokens ++ .symbol .closeBrace :: rest) =
      (Scope.close { scope with
        body := body, openers := (opener, scope.body) :: scope.openers }).feedAll rest := by
  obtain ⟨next, hnext, hn⟩ := h (State.awaits_statement _)
  rw [Scope.enter, State.feedAll_append_of_ok hnext,
    State.feedAll_cons_of_ok ((hn (by decide)).trans rfl)]
  rfl

theorem declare (name : String) (value : Expr) :
    ReadsStatements (Stmt.declare name value).tokens [.declare name value] := by
  intro s scope h
  refine ⟨.statement (scope.push (.declare name value)), ?_, State.awaits_statement _⟩
  have hvar : s.feed (.symbol .var) = .ok (.variableName scope) := h (by decide)
  have hname : (State.variableName scope).feed (.ident name) = .ok (.variableValue scope name) := rfl
  have hassign : (State.variableValue scope name).feed (.symbol .assign) =
      .ok (.operand (scope.expression (.declare name))) := rfl
  rw [Stmt.tokens, List.cons_append, List.cons_append, List.cons_append,
    State.feedAll_cons_of_ok hvar, State.feedAll_cons_of_ok hname, State.feedAll_cons_of_ok hassign,
    (State.begins_operand _).feedAll_tokens rfl (by decide) rfl rfl]
  rfl

theorem ret (value : Option Expr) : ReadsStatements (Stmt.ret value).tokens [.ret value] := by
  intro s scope h
  refine ⟨.statement (scope.push (.ret value)), ?_, State.awaits_statement _⟩
  have hret : s.feed (.symbol .ret) = .ok (.returned scope) := h (by decide)
  cases value with
  | none =>
    rw [Stmt.tokens, State.feedAll_cons_of_ok hret]
    rfl
  | some value =>
    rw [Stmt.tokens, List.cons_append, State.feedAll_cons_of_ok hret,
      (State.begins_returned scope).feedAll_tokens rfl (by decide) rfl rfl]
    rfl

theorem leave : ReadsStatements Stmt.leave.tokens [.leave] := by
  intro s scope h
  refine ⟨.statement (scope.push .leave), ?_, State.awaits_statement _⟩
  have hleave : s.feed (.symbol .leave) = .ok (.terminated (scope.push .leave)) := h (by decide)
  rw [Stmt.tokens, State.feedAll_cons_of_ok hleave]
  rfl

theorem effect (e : Expr) : ReadsStatements (Stmt.effect e).tokens [.effect e] := by
  intro s scope h
  refine ⟨.statement (scope.push (.effect e)), ?_, State.awaits_statement _⟩
  rw [Stmt.tokens, h.begins.feedAll_tokens rfl (by decide) rfl rfl]
  rfl

theorem loop (condition : Expr) (h : ReadsStatements (Stmt.listTokens body) body) :
    ReadsStatements (Stmt.loop condition body).tokens [.loop condition body] := by
  intro s scope hs
  refine ⟨.statement (scope.push (.loop condition body)), ?_, State.awaits_statement _⟩
  have hloop : s.feed (.symbol .loop) = .ok (.operand (scope.expression .loop)) := hs (by decide)
  rw [Stmt.tokens, inBraces, List.cons_append, List.cons_append, State.feedAll_cons_of_ok hloop,
    (State.begins_operand _).feedAll_tokens rfl (by decide) rfl rfl,
    h.feedAll_block _ (.loop condition)]
  rfl

theorem feedAll_branch (condition : Expr) (h : ReadsStatements (Stmt.listTokens body) body)
    {s : State} (hs : s.Awaits scope) (rest : List Token) :
    s.feedAll (.symbol .cond :: condition.tokens .assignment ++ inBraces (Stmt.listTokens body) ++
        rest) =
      (State.afterOnTrue scope [] condition body).feedAll rest := by
  have hcond : s.feed (.symbol .cond) = .ok (.operand (scope.expression (.branch []))) :=
    hs (by decide)
  rw [inBraces, List.append_assoc, List.cons_append, List.cons_append, List.cons_append,
    List.append_assoc, List.singleton_append, State.feedAll_cons_of_ok hcond,
    (State.begins_operand _).feedAll_tokens rfl (by decide) rfl rfl,
    h.feedAll_block _ (.onTrue [] condition)]
  rfl

theorem branch (condition : Expr) {onTrue : List Stmt}
    (h : ReadsStatements (Stmt.listTokens onTrue) onTrue) :
    ReadsStatements (Stmt.branch condition onTrue none).tokens [.branch condition onTrue none] := by
  intro s scope hs
  refine ⟨.afterOnTrue scope [] condition onTrue, ?_, State.awaits_afterOnTrue _ _ _⟩
  rw [Stmt.tokens, ← List.append_nil (_ ++ _), h.feedAll_branch condition hs, State.feedAll_nil]

theorem branch_otherwise (condition : Expr) {onTrue onFalse : List Stmt}
    (hfirst : ReadsStatements (Stmt.listTokens onTrue) onTrue)
    (hsecond : ReadsStatements (Stmt.listTokens onFalse) onFalse) :
    ReadsStatements (Stmt.branch condition onTrue (some onFalse)).tokens
      [.branch condition onTrue (some onFalse)] := by
  intro s scope hs
  refine ⟨.statement (scope.push (.branch condition onTrue (some onFalse))), ?_,
    State.awaits_statement _⟩
  have helse : (State.afterOnTrue scope [] condition onTrue).feed (.symbol .otherwise) =
      .ok (.afterElse scope [] condition onTrue) := rfl
  have hopen : (State.afterElse scope [] condition onTrue).feed (.symbol .openBrace) =
      .ok (scope.enter (.onFalse [] condition onTrue)) := rfl
  rw [Stmt.tokens, hfirst.feedAll_branch condition hs, inBraces, List.cons_append,
    State.feedAll_cons_of_ok helse, State.feedAll_cons_of_ok hopen,
    hsecond.feedAll_block scope (.onFalse [] condition onTrue)]
  rfl

end ReadsStatements

mutual

theorem readsStatements_tokens : (stmt : Stmt) → ReadsStatements stmt.tokens [stmt]
  | .declare name value => .declare name value
  | .ret value => .ret value
  | .branch condition onTrue none => .branch condition (readsStatements_listTokens onTrue)
  | .branch condition onTrue (some onFalse) =>
    .branch_otherwise condition (readsStatements_listTokens onTrue)
      (readsStatements_listTokens onFalse)
  | .loop condition body => .loop condition (readsStatements_listTokens body)
  | .leave => .leave
  | .effect e => .effect e

theorem readsStatements_listTokens :
    (stmts : List Stmt) → ReadsStatements (Stmt.listTokens stmts) stmts
  | [] => .nil
  | stmt :: rest => (readsStatements_tokens stmt).cons (readsStatements_listTokens rest)

end

theorem feedAll_parameters (functions : List Function) (name : String) (params : List String)
    (tail : List Token) :
    (State.firstParameter functions name).feedAll
        ([.symbol .comma].intercalate (params.map fun param => [.ident param]) ++
          .symbol .closeParen :: tail) =
      (State.functionBody functions name params).feedAll tail := by
  cases params with
  | nil => rfl
  | cons first rest =>
    have hfirst (param : String) : (State.firstParameter functions name).feed (.ident param) =
        .ok (.afterParameter functions name ([] ++ [param])) := rfl
    refine feedAll_separated (fun before s => ∀ param, s.feed (.ident param) =
      .ok (.afterParameter functions name (before ++ [param]))) (.functionBody functions name) ?_
      hfirst tail
    intro param _ before s hs
    refine ⟨⟨.nextParameter functions name (before ++ [param]), fun _ => rfl, ?_⟩, ?_⟩
    · intro tail
      exact State.feedAll_cons_of_ok (hs param) _
    · intro tail
      exact State.feedAll_cons_of_ok (hs param) _

theorem feedAll_function (functions : List Function) (f : Function) (rest : List Token) :
    (State.program functions).feedAll (f.tokens ++ rest) =
      (State.program (functions ++ [f])).feedAll rest := by
  obtain ⟨last, hlast, hawaits⟩ :=
    readsStatements_listTokens f.body (State.awaits_statement ⟨functions, f.name, f.params, [], []⟩)
  have hclose : last.feed (.symbol .closeBrace) = .ok (.program (functions ++ [f])) :=
    hawaits (by decide)
  have hfunc : (State.program functions).feed (.symbol .func) = .ok (.functionName functions) := rfl
  have hname : (State.functionName functions).feed (.ident f.name) =
      .ok (.parameterList functions f.name) := rfl
  have hopen : (State.parameterList functions f.name).feed (.symbol .openParen) =
      .ok (.firstParameter functions f.name) := rfl
  rw [Function.tokens, inParentheses, inBraces]
  simp only [List.cons_append, List.append_assoc, List.nil_append]
  rw [State.feedAll_cons_of_ok hfunc, State.feedAll_cons_of_ok hname, State.feedAll_cons_of_ok hopen,
    feedAll_parameters, State.feedAll_cons_of_ok rfl, State.feedAll_append_of_ok hlast,
    State.feedAll_cons_of_ok hclose]

theorem feedAll_functions (before functions : List Function) :
    (State.program before).feedAll (functions.flatMap Function.tokens) =
      .ok (.program (before ++ functions)) := by
  induction functions generalizing before with
  | nil =>
    rw [List.append_nil]
    rfl
  | cons f rest ih =>
    rw [List.flatMap_cons, feedAll_function, ih, List.append_assoc, List.singleton_append]

end Parser

open BlueCode.Parser

/-- Every program can be written, and what is written is read as that program. -/
theorem parse_of_tokens {tokens : List Located} {p : Program}
    (h : tokens.map Located.token = p.tokens) : parse tokens = .ok p := by
  refine parse_eq_ok_iff.2 ⟨.program p.functions, ?_, rfl⟩
  rw [h]
  exact feedAll_functions [] p.functions

/-- The function `f` of two parameters whose body is
`while a { if a - (b - 1) == b { return; } else { a = b = (a + b) * g(a, 2); } }`. -/
def Program.nested : Program :=
  ⟨[⟨"f", ["a", "b"], [.loop (.ident "a")
    [.branch
      (.compare .eq
        (.arith .sub (.ident "a") (.arith .sub (.ident "b") (.literal (.int 1)))) (.ident "b"))
      [.ret none]
      (some [.effect (.assign (.ident "a") (.assign (.ident "b")
        (.arith .mul (.arith .add (.ident "a") (.ident "b"))
          (.call "g" [.ident "a", .literal (.int 2)]))))])]]⟩]⟩

theorem parse_of_tokens_nested :
    let tokens := Located.anywhere [.symbol .func, .ident "f", .symbol .openParen, .ident "a",
      .symbol .comma, .ident "b", .symbol .closeParen, .symbol .openBrace, .symbol .loop, .ident "a",
      .symbol .openBrace, .symbol .cond, .ident "a", .symbol .minus, .symbol .openParen, .ident "b",
      .symbol .minus, .int 1, .symbol .closeParen, .symbol .equal, .ident "b", .symbol .openBrace,
      .symbol .ret, .symbol .semicolon, .symbol .closeBrace, .symbol .otherwise, .symbol .openBrace,
      .ident "a", .symbol .assign, .ident "b", .symbol .assign, .symbol .openParen, .ident "a",
      .symbol .plus, .ident "b", .symbol .closeParen, .symbol .star, .ident "g", .symbol .openParen,
      .ident "a", .symbol .comma, .int 2, .symbol .closeParen, .symbol .semicolon,
      .symbol .closeBrace, .symbol .closeBrace, .symbol .closeBrace]
    tokens.map Located.token = Program.nested.tokens ∧ parse tokens = .ok Program.nested :=
  ⟨rfl, parse_of_tokens rfl⟩

end BlueCode
