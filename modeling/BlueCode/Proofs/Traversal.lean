import BlueCode.Proofs.Reading

namespace BlueCode

def Token.isPunctuation : Token → Bool
  | .symbol .openParen | .symbol .closeParen | .symbol .openBrace | .symbol .closeBrace
  | .symbol .semicolon | .symbol .comma => true
  | _ => false

/-- The tokens without those that only enclose and separate. -/
def significant (tokens : List Token) : List Token :=
  tokens.filter fun t => !t.isPunctuation

mutual

/-- What an expression is made of: operators between their sides, names before their arguments. -/
def Expr.traversal : Expr → List Token
  | .literal value => [value.token]
  | .ident name => [.ident name]
  | .assign target value => target.traversal ++ .symbol .assign :: value.traversal
  | .arith op left right => left.traversal ++ op.token :: right.traversal
  | .compare op left right => left.traversal ++ op.token :: right.traversal
  | .call function args => .ident function :: Expr.listTraversal args

def Expr.listTraversal : List Expr → List Token
  | [] => []
  | e :: rest => e.traversal ++ Expr.listTraversal rest

end

mutual

def Stmt.traversal : Stmt → List Token
  | .declare name value => .symbol .var :: .ident name :: .symbol .assign :: value.traversal
  | .ret none => [.symbol .ret]
  | .ret (some value) => .symbol .ret :: value.traversal
  | .branch condition onTrue none =>
    .symbol .cond :: condition.traversal ++ Stmt.listTraversal onTrue
  | .branch condition onTrue (some onFalse) =>
    .symbol .cond :: condition.traversal ++ Stmt.listTraversal onTrue ++
      .symbol .otherwise :: Stmt.listTraversal onFalse
  | .loop condition body => .symbol .loop :: condition.traversal ++ Stmt.listTraversal body
  | .leave => [.symbol .leave]
  | .effect e => e.traversal

def Stmt.listTraversal : List Stmt → List Token
  | [] => []
  | s :: rest => s.traversal ++ Stmt.listTraversal rest

end

def Function.traversal (f : Function) : List Token :=
  .symbol .func :: .ident f.name :: f.params.map .ident ++ Stmt.listTraversal f.body

def Program.traversal (p : Program) : List Token :=
  p.functions.flatMap Function.traversal

theorem Expr.listTraversal_append (first rest : List Expr) :
    Expr.listTraversal (first ++ rest) = Expr.listTraversal first ++ Expr.listTraversal rest := by
  induction first with
  | nil => rfl
  | cons e first ih =>
    rw [List.cons_append, Expr.listTraversal, Expr.listTraversal, ih, List.append_assoc]

theorem Stmt.listTraversal_append (first rest : List Stmt) :
    Stmt.listTraversal (first ++ rest) = Stmt.listTraversal first ++ Stmt.listTraversal rest := by
  induction first with
  | nil => rfl
  | cons s first ih =>
    rw [List.cons_append, Stmt.listTraversal, Stmt.listTraversal, ih, List.append_assoc]

namespace Parser

def Operator.token : Operator → Token
  | .assign => .symbol .assign
  | .compare op => op.token
  | .sum op => op.token
  | .product op => op.token

theorem Operator.ofToken?_eq_some {t : Token} {op : Operator} (h : ofToken? t = some op) :
    t = op.token := by
  unfold ofToken? at h
  split at h <;> cases h <;> rfl

theorem Operator.significant_token (op : Operator) : significant [op.token] = [op.token] := by
  cases op with
  | assign => rfl
  | compare op => cases op <;> rfl
  | sum op => cases op <;> rfl
  | product op => cases op <;> rfl

/-- What has been read of an expression before its last factor. -/
def Pending.read (p : Pending) : List Token :=
  p.targets.flatMap (fun target => target.traversal ++ [.symbol .assign]) ++
    p.compared.elim [] (fun (left, op) => left.traversal ++ [op.token]) ++
    p.summed.elim [] (fun (left, op) => left.traversal ++ [op.token]) ++
    p.scaled.elim [] (fun (left, op) => left.traversal ++ [op.token])

namespace Pending

variable (p : Pending) (last : Expr)

theorem traversal_product : (p.product last).traversal =
    p.scaled.elim [] (fun (left, op) => left.traversal ++ [op.token]) ++ last.traversal := by
  unfold product
  cases p.scaled <;> simp [Expr.traversal]

theorem traversal_sum : (p.sum last).traversal =
    p.summed.elim [] (fun (left, op) => left.traversal ++ [op.token]) ++
      (p.product last).traversal := by
  unfold sum
  cases p.summed <;> simp [Expr.traversal]

theorem traversal_comparison : (p.comparison last).traversal =
    p.compared.elim [] (fun (left, op) => left.traversal ++ [op.token]) ++
      (p.sum last).traversal := by
  unfold comparison
  cases p.compared <;> simp [Expr.traversal]

theorem traversal_targets (targets : List Expr) (value : Expr) :
    (targets.foldr Expr.assign value).traversal =
      targets.flatMap (fun target => target.traversal ++ [.symbol .assign]) ++ value.traversal := by
  induction targets with
  | nil => rfl
  | cons target rest ih => simp [Expr.traversal, ih]

theorem traversal_expression : (p.expression last).traversal = p.read ++ last.traversal := by
  simp only [expression, traversal_targets, traversal_comparison, traversal_sum, traversal_product,
    read, List.append_assoc]

theorem read_extend (op : Operator) :
    (p.extend last op).read = p.read ++ last.traversal ++ [op.token] := by
  cases op with
  | assign =>
    simp [extend, read, Operator.token, traversal_comparison, traversal_sum, traversal_product]
  | compare op =>
    simp [extend, read, Operator.token, traversal_comparison, traversal_sum, traversal_product]
  | sum op => simp [extend, read, Operator.token, traversal_sum, traversal_product]
  | product op => simp [extend, read, Operator.token, traversal_product]

end Pending

/-- What has been read of the `if`s in whose `else` another one stands. -/
def readChain (chain : List (Expr × List Stmt)) : List Token :=
  chain.flatMap fun (condition, onTrue) =>
    .symbol .cond :: condition.traversal ++ Stmt.listTraversal onTrue ++ [.symbol .otherwise]

theorem traversal_chained (chain : List (Expr × List Stmt)) (last : Stmt) :
    (chained chain last).traversal = readChain chain ++ last.traversal := by
  induction chain with
  | nil => rfl
  | cons first rest ih =>
    change (Stmt.branch _ _ (some [chained rest last])).traversal = _
    simp [Stmt.traversal, Stmt.listTraversal, ih, readChain]

def Bracket.read : Bracket → List Token
  | .group outside => outside.read
  | .argument function before outside =>
    outside.read ++ .ident function :: Expr.listTraversal before

def Purpose.read : Purpose → List Token
  | .declare name => [.symbol .var, .ident name, .symbol .assign]
  | .ret => [.symbol .ret]
  | .effect => []
  | .branch chain => readChain chain ++ [.symbol .cond]
  | .loop => [.symbol .loop]

def Opener.read : Opener → List Token
  | .onTrue chain condition => readChain chain ++ .symbol .cond :: condition.traversal
  | .onFalse chain condition body =>
    readChain chain ++ .symbol .cond :: condition.traversal ++ Stmt.listTraversal body ++
      [.symbol .otherwise]
  | .loop condition => .symbol .loop :: condition.traversal

def readHeader (functions : List Function) (name : String) (params : List String) : List Token :=
  functions.flatMap Function.traversal ++ .symbol .func :: .ident name :: params.map .ident

def Scope.read (s : Scope) : List Token :=
  readHeader s.functions s.name s.params ++
    s.openers.reverse.flatMap (fun (opener, before) => Stmt.listTraversal before ++ opener.read) ++
    Stmt.listTraversal s.body

/-- What has been read before the brackets are closed, but for the expression inside them. -/
def Nest.outside (nest : Nest) : List Token :=
  nest.scope.read ++ nest.purpose.read ++ nest.brackets.reverse.flatMap Bracket.read

def Nest.read (nest : Nest) : List Token :=
  nest.outside ++ nest.pending.read

/-- The significant tokens that lead to a state. -/
def State.read : State → List Token
  | .program functions => functions.flatMap Function.traversal
  | .functionName functions => functions.flatMap Function.traversal ++ [.symbol .func]
  | .parameterList functions name | .firstParameter functions name => readHeader functions name []
  | .nextParameter functions name params | .afterParameter functions name params
  | .functionBody functions name params => readHeader functions name params
  | .statement scope | .terminated scope => scope.read
  | .variableName scope => scope.read ++ [.symbol .var]
  | .variableValue scope name => scope.read ++ [.symbol .var, .ident name]
  | .returned scope => scope.read ++ [.symbol .ret]
  | .operand nest => nest.read
  | .firstArgument nest name | .named nest name => nest.read ++ [.ident name]
  | .complete nest last => nest.read ++ last.traversal
  | .afterOnTrue scope chain condition onTrue =>
    scope.read ++ readChain chain ++ .symbol .cond :: condition.traversal ++
      Stmt.listTraversal onTrue
  | .afterElse scope chain condition onTrue =>
    scope.read ++ readChain chain ++ .symbol .cond :: condition.traversal ++
      Stmt.listTraversal onTrue ++ [.symbol .otherwise]

namespace Scope

theorem read_push (scope : Scope) (s : Stmt) : (scope.push s).read = scope.read ++ s.traversal := by
  simp [read, push, Stmt.listTraversal_append, Stmt.listTraversal]

theorem read_enter (scope : Scope) (opener : Opener) :
    (scope.enter opener).read = scope.read ++ opener.read := by
  simp [State.read, enter, read, Stmt.listTraversal]

theorem read_close (scope : Scope) : scope.close.read = scope.read := by
  obtain ⟨functions, name, params, body, openers⟩ := scope
  cases openers with
  | nil => simp [close, State.read, read, readHeader, Function.traversal]
  | cons first rest =>
    obtain ⟨opener, before⟩ := first
    cases opener with
    | onTrue chain condition => simp [close, State.read, read, Opener.read]
    | onFalse chain condition onTrue =>
      simp [close, State.read, read, Opener.read, Stmt.listTraversal_append, Stmt.listTraversal,
        traversal_chained, Stmt.traversal]
    | loop condition =>
      simp [close, State.read, read, Opener.read, Stmt.listTraversal_append, Stmt.listTraversal,
        Stmt.traversal]

theorem outside_expression (scope : Scope) (purpose : Purpose) :
    (scope.expression purpose).outside = scope.read ++ purpose.read := by
  simp [expression, Nest.outside]

theorem read_expression (scope : Scope) (purpose : Purpose) :
    (scope.expression purpose).read = scope.read ++ purpose.read := by
  rw [Nest.read, outside_expression]
  simp [expression, Pending.none, Pending.read]

end Scope

variable {nest : Nest} {scope : Scope} {t : Token} {next : State}

theorem of_only {only : Token} {after : State} {expected : Expected}
    (h : (if t = only then .ok after else .error expected) = Except.ok next) :
    t = only ∧ next = after := by
  split at h <;> cases h
  next ht => exact ⟨ht, rfl⟩

theorem Nest.read_operand (h : nest.operand t = .ok next) :
    next.read = nest.read ++ significant [t] := by
  unfold Nest.operand at h
  split at h <;> cases h
  · rfl
  · rfl
  · rfl
  · rfl
  · simp [State.read, Nest.read, Nest.outside, Bracket.read, Pending.none, Pending.read, significant,
      Token.isPunctuation]

theorem Scope.read_statement (h : scope.statement t = .ok next) :
    next.read = scope.read ++ significant [t] := by
  unfold Scope.statement at h
  split at h
  · cases h; rfl
  · cases h; rfl
  · cases h
    rw [State.read, read_expression]
    rfl
  · cases h
    rw [State.read, read_expression]
    rfl
  · cases h
    rw [State.read, read_push]
    rfl
  · cases h
    rw [read_close]
    simp [significant, Token.isPunctuation]
  · rw [Nest.read_operand h, read_expression]
    simp [Purpose.read]

theorem Scope.read_terminated (h : scope.terminated t = .ok next) :
    next.read = scope.read ++ significant [t] := by
  unfold Scope.terminated at h
  split at h
  · cases h
    simp [State.read, significant, Token.isPunctuation]
  · exact read_statement h

theorem Nest.read_finished {value : Expr} (h : nest.finished value t = .ok next) :
    next.read = nest.outside ++ value.traversal ++ significant [t] := by
  obtain ⟨scope, purpose, brackets, pending⟩ := nest
  unfold Nest.finished at h
  cases brackets with
  | cons bracket rest =>
    cases bracket with
    | group before =>
      obtain ⟨rfl, rfl⟩ := of_only h
      simp [State.read, Nest.read, Nest.outside, Bracket.read, significant, Token.isPunctuation]
    | argument function args before =>
      simp only at h
      split at h
      · next ht =>
        cases h
        subst ht
        simp [State.read, Nest.read, Nest.outside, Bracket.read, significant, Token.isPunctuation,
          Expr.listTraversal_append, Expr.listTraversal, Pending.none, Pending.read]
      · obtain ⟨rfl, rfl⟩ := of_only h
        simp [State.read, Nest.read, Nest.outside, Bracket.read, significant, Token.isPunctuation,
          Expr.listTraversal_append, Expr.listTraversal, Expr.traversal]
  | nil =>
    cases purpose with
    | declare name =>
      simp [Scope.read_terminated h, Scope.read_push, Nest.outside, Purpose.read, Stmt.traversal]
    | ret => simp [Scope.read_terminated h, Scope.read_push, Nest.outside, Purpose.read, Stmt.traversal]
    | effect =>
      simp [Scope.read_terminated h, Scope.read_push, Nest.outside, Purpose.read, Stmt.traversal]
    | branch chain =>
      obtain ⟨rfl, rfl⟩ := of_only h
      simp [Scope.read_enter, Nest.outside, Purpose.read, Opener.read, significant,
        Token.isPunctuation]
    | loop =>
      obtain ⟨rfl, rfl⟩ := of_only h
      simp [Scope.read_enter, Nest.outside, Purpose.read, Opener.read, significant,
        Token.isPunctuation]

theorem Nest.read_complete {last : Expr} (h : nest.complete last t = .ok next) :
    next.read = nest.read ++ last.traversal ++ significant [t] := by
  unfold Nest.complete at h
  split at h
  · next op hop =>
    cases h
    rw [Operator.ofToken?_eq_some hop, Operator.significant_token]
    simp [State.read, Nest.read, Nest.outside, Pending.read_extend]
  · rw [read_finished h, Pending.traversal_expression, Nest.read]
    simp

/-- A token that is read is found behind all that has been read before, unless it only encloses or
separates. -/
theorem State.read_feed {s : State} (h : s.feed t = .ok next) :
    next.read = s.read ++ significant [t] := by
  -- Every open construct holds what has been read of it.
  cases s with
  | program functions =>
    obtain ⟨rfl, rfl⟩ := of_only h
    rfl
  | functionName functions =>
    simp only [State.feed] at h
    split at h <;> cases h
    simp [State.read, readHeader, significant, Token.isPunctuation]
  | parameterList functions name =>
    obtain ⟨rfl, rfl⟩ := of_only h
    simp [State.read, significant, Token.isPunctuation]
  | firstParameter functions name =>
    simp only [State.feed] at h
    split at h <;> cases h <;> simp [State.read, readHeader, significant, Token.isPunctuation]
  | nextParameter functions name params =>
    simp only [State.feed] at h
    split at h <;> cases h
    simp [State.read, readHeader, significant, Token.isPunctuation]
  | afterParameter functions name params =>
    simp only [State.feed] at h
    split at h <;> cases h <;> simp [State.read, significant, Token.isPunctuation]
  | functionBody functions name params =>
    obtain ⟨rfl, rfl⟩ := of_only h
    simp [State.read, Scope.read, Stmt.listTraversal, significant, Token.isPunctuation]
  | statement scope => exact Scope.read_statement h
  | terminated scope => exact Scope.read_terminated h
  | variableName scope =>
    simp only [State.feed] at h
    split at h <;> cases h
    simp [State.read, significant, Token.isPunctuation]
  | variableValue scope name =>
    obtain ⟨rfl, rfl⟩ := of_only h
    simp [State.read, Scope.read_expression, Purpose.read, significant, Token.isPunctuation]
  | returned scope =>
    simp only [State.feed] at h
    split at h
    · rw [Scope.read_terminated h, Scope.read_push]
      rfl
    · rw [Nest.read_operand h, Scope.read_expression]
      rfl
  | operand nest => exact Nest.read_operand h
  | firstArgument nest function =>
    simp only [State.feed] at h
    split at h
    · next ht =>
      cases h
      subst ht
      simp [State.read, Expr.traversal, Expr.listTraversal, significant, Token.isPunctuation]
    · rw [Nest.read_operand h]
      simp [State.read, Nest.read, Nest.outside, Bracket.read, Pending.none, Pending.read,
        Expr.listTraversal]
  | named nest name =>
    simp only [State.feed] at h
    split at h
    · next ht =>
      cases h
      subst ht
      simp [State.read, significant, Token.isPunctuation]
    · rw [Nest.read_complete h]
      rfl
  | complete nest last => exact Nest.read_complete h
  | afterOnTrue scope chain condition onTrue =>
    simp only [State.feed] at h
    split at h
    · next ht =>
      cases h
      subst ht
      rfl
    · rw [Scope.read_statement h, Scope.read_push, traversal_chained]
      simp [State.read, Stmt.traversal]
  | afterElse scope chain condition onTrue =>
    simp only [State.feed] at h
    split at h <;> cases h
    · simp [State.read, Scope.read_expression, Purpose.read, readChain, significant,
        Token.isPunctuation]
    · rw [Scope.read_enter]
      simp [State.read, Opener.read, significant, Token.isPunctuation]

theorem State.read_feedAll {s last : State} {tokens : List Token} (h : s.feedAll tokens = .ok last) :
    last.read = s.read ++ significant tokens := by
  induction tokens generalizing s with
  | nil =>
    cases h
    exact (List.append_nil _).symm
  | cons t rest ih =>
    cases ht : s.feed t with
    | error expected =>
      rw [feedAll_cons, ht] at h
      cases h
    | ok next =>
      rw [feedAll_cons_of_ok ht] at h
      rw [ih h, read_feed ht, List.append_assoc, significant, significant, significant,
        ← List.filter_append]
      rfl

end Parser

open BlueCode.Parser

/-- Nothing is lost, added or moved between the tokens of a program and its tree. -/
theorem traversal_of_parse {tokens : List Located} {p : Program} (h : parse tokens = .ok p) :
    significant (tokens.map Located.token) = p.traversal := by
  obtain ⟨last, hlast, hfinish⟩ := parse_eq_ok_iff.1 h
  have hread := State.read_feedAll hlast
  cases last with
  | program functions =>
    cases hfinish
    exact hread.symm
  | _ => cases hfinish

/-- The function `f` of one parameter whose body is `if n { n = g(n, 2) - (n - 1) }`. -/
def Program.guarded : Program :=
  ⟨[⟨"f", ["n"], [.branch (.ident "n")
    [.effect (.assign (.ident "n") (.arith .sub (.call "g" [.ident "n", .literal (.int 2)])
      (.arith .sub (.ident "n") (.literal (.int 1)))))] none]⟩]⟩

theorem traversal_of_parse_guarded :
    let tokens := Located.anywhere [.symbol .func, .ident "f", .symbol .openParen, .ident "n",
      .symbol .closeParen, .symbol .openBrace, .symbol .cond, .symbol .openParen, .ident "n",
      .symbol .closeParen, .symbol .openBrace, .ident "n", .symbol .assign, .ident "g",
      .symbol .openParen, .ident "n", .symbol .comma, .int 2, .symbol .closeParen, .symbol .minus,
      .symbol .openParen, .ident "n", .symbol .minus, .int 1, .symbol .closeParen,
      .symbol .semicolon, .symbol .closeBrace, .symbol .closeBrace]
    parse tokens = .ok Program.guarded ∧
      significant (tokens.map Located.token) = Program.guarded.traversal :=
  have hparse := parse_eq_run _
  ⟨hparse, traversal_of_parse hparse⟩

end BlueCode
