import BlueCode.Proofs.ParsedExpressions

namespace BlueCode

namespace Parser

variable {tokens : Array Located} {scope : Scope} {q start : Nat} {value : Expr}

/-- An expression at the end of a statement is followed like the statement. -/
theorem runFrom_terminated {purpose : Purpose} (stmt : Stmt) (h : NoOperator (peek tokens q))
    (hfinished : ∀ t, (scope.expression purpose).finished value t = (scope.push stmt).terminated t)
    (hmissing : (scope.expression purpose).missing = .symbol .closeBrace) :
    runFrom tokens (.complete (scope.expression purpose) value) q =
      runFrom tokens (.terminated (scope.push stmt)) q := by
  refine runFrom_congr (fun t ht => ?_) fun _ => congrArg Except.error hmissing
  change Nest.complete _ value t = _
  rw [Nest.complete, h t ht]
  exact hfinished t

theorem terminated_agrees (part : Part tokens start Stmt) :
    Agrees (.terminated (scope.push part.value)) part.next (fun s => .statement (scope.push s))
      (fun _ _ => True) (.ok (terminated tokens part)) := by
  unfold terminated
  split
  · next eaten heaten =>
    obtain ⟨hpeek, hnext⟩ := of_eat? heaten
    refine ⟨?_, trivial⟩
    rw [runFrom_of_feed (.statement (scope.push part.value)) hpeek rfl, ← hnext]
    rfl
  · next hnone =>
    refine ⟨runFrom_congr (fun t ht => ?_) fun _ => rfl, trivial⟩
    change Scope.terminated _ t = Scope.statement _ t
    unfold Scope.terminated
    split
    · exact absurd ht (of_not_eat? hnone)
    · rfl

theorem expression_terminated_agrees {purpose : Purpose} (make : Expr → Stmt)
    {finish : Part tokens q Expr → Part tokens start Stmt}
    (hfinished : ∀ value t, (scope.expression purpose).finished value t =
      (scope.push (make value)).terminated t)
    (hmissing : (scope.expression purpose).missing = .symbol .closeBrace)
    (hvalue : ∀ e, (finish e).value = make e.value) (hnext : ∀ e, (finish e).next = e.next) :
    Agrees (.operand (scope.expression purpose)) q (fun s => .statement (scope.push s))
      (fun _ _ => True)
      (do
        let value ← expression tokens q
        return terminated tokens (finish value)) := by
  refine (expression_agrees q _ (Pending.clear_none _)).bind fun e he => ?_
  refine .of_eq (runFrom_terminated (make e.value) he (hfinished e.value) hmissing) ?_
  rw [← hvalue, ← hnext]
  exact terminated_agrees _

variable (tokens) in
/-- A statement with `if` is read in the states as it is by `branch`, also behind some `else`s. -/
def BranchAgrees (q : Nat) : Prop :=
  ∀ (s : State) (scope : Scope) (chain : List (Expr × List Stmt)),
    peek tokens q = some (.symbol .cond) →
    s.feed (.symbol .cond) = .ok (.operand (scope.expression (.branch chain))) →
    Agrees s q (fun stmt => .statement (scope.push (chained chain stmt))) (fun _ _ => True)
      (branch tokens q)

def Scope.inside (scope : Scope) (opener : Opener) : Scope :=
  { scope with body := [], openers := (opener, scope.body) :: scope.openers }

/-- Nothing but a block may follow. -/
structure OpensBlock (tokens : Array Located) (q : Nat) (s : State) (scope : Scope) : Prop where
  body : scope.body = []
  feed : s.feed (.symbol .openBrace) = .ok (.statement scope)
  refused : ∀ t, peek tokens q = some t → t ≠ .symbol .openBrace →
    s.feed t = .error (.symbol .openBrace)
  finish : peek tokens q = none → s.finish = .error (.symbol .openBrace)

variable (tokens) in
def BlockAgrees (q : Nat) : Prop :=
  ∀ (s : State) (scope : Scope), OpensBlock tokens q s scope →
    Agrees s q (fun body => ({ scope with body := body } : Scope).close) (fun _ _ => True)
      (block tokens q)

variable (tokens) in
def StatementAgrees (q : Nat) : Prop :=
  ∀ (scope : Scope) (t : Token), peek tokens q = some t → t ≠ .symbol .closeBrace →
    Agrees (.statement scope) q (fun stmt => .statement (scope.push stmt)) (fun _ _ => True)
      (statement tokens q)

theorem opensBlock_of_condition {purpose : Purpose} {opener : Opener}
    (h : NoOperator (peek tokens q))
    (hfinished : ∀ t, (scope.expression purpose).finished value t =
      if t = .symbol .openBrace then .ok (scope.enter opener) else .error (.symbol .openBrace))
    (hmissing : (scope.expression purpose).missing = .symbol .openBrace) :
    OpensBlock tokens q (.complete (scope.expression purpose) value) (scope.inside opener) where
  body := rfl
  feed := by
    change (scope.expression purpose).complete value (.symbol .openBrace) = _
    rw [Nest.complete]
    exact (hfinished _).trans (if_pos rfl)
  refused t ht hne := by
    change Nest.complete _ value t = _
    rw [Nest.complete, h t ht]
    exact (hfinished t).trans (if_neg hne)
  finish _ := congrArg Except.error hmissing

theorem branch_agrees
    (ih : ∀ p, tokens.size - p < tokens.size - q → BranchAgrees tokens p ∧ BlockAgrees tokens p) :
    BranchAgrees tokens q := by
  intro s scope chain hcond hfeed
  rw [branch]
  have hkeyword : Agrees s q (fun _ => .operand (scope.expression (.branch chain))) (fun _ _ => True)
      (expect tokens .cond q) :=
    .expect_of_peek hcond hfeed
  refine hkeyword.bind fun keyword _ => ?_
  refine (expression_agrees _ _ (Pending.clear_none _)).bind fun condition hcondition => ?_
  have hopens : OpensBlock tokens condition.next
      (.complete (scope.expression (.branch chain)) condition.value)
      (scope.inside (.onTrue chain condition.value)) :=
    opensBlock_of_condition hcondition (fun _ => rfl) rfl
  refine ((ih _ (keyword.join condition).left_lt).2 _ _ hopens).bind fun onTrue _ => ?_
  have hlt := Nat.lt_trans onTrue.left_lt (keyword.join condition).left_lt
  change Agrees (.afterOnTrue scope chain condition.value onTrue.value) _ _ _ _
  dsimp only
  split
  · next eaten heaten =>
    obtain ⟨hpeek, hnext⟩ := of_eat? heaten
    refine .of_eq (runFrom_of_feed _ hpeek rfl) ?_
    rw [← hnext]
    have hlt := Nat.lt_trans eaten.left_lt hlt
    split
    -- The inner `if` is one more member of the chain, whose blocks are closed around the last one.
    · next hinner =>
      have hchain (stmt : Stmt) : chained (chain ++ [(condition.value, onTrue.value)]) stmt =
          chained chain (.branch condition.value onTrue.value (some [stmt])) :=
        List.foldr_append
      refine ((ih _ hlt).1 _ scope _ hinner rfl).bind fun inner _ => ⟨?_, trivial⟩
      rw [hchain]
      rfl
    · next hblock =>
      have hopens : OpensBlock tokens eaten.next
          (.afterElse scope chain condition.value onTrue.value)
          (scope.inside (.onFalse chain condition.value onTrue.value)) := by
        refine ⟨rfl, rfl, fun t ht hne => ?_, fun _ => rfl⟩
        cases t with
        | symbol sym => cases sym <;> first | rfl | exact absurd rfl hne | exact absurd ht hblock
        | _ => rfl
      exact ((ih _ hlt).2 _ _ hopens).bind fun onFalse _ => ⟨rfl, trivial⟩
  · next hnone =>
    refine ⟨runFrom_congr (fun t ht => ?_) fun _ => rfl, trivial⟩
    exact if_neg fun h => of_not_eat? hnone (ht.trans (congrArg some h))

theorem statement_agrees
    (ih : ∀ p, tokens.size - p < tokens.size - q → BranchAgrees tokens p ∧ BlockAgrees tokens p) :
    StatementAgrees tokens q := by
  intro scope t ht hclose
  rw [statement]
  split
  · next h =>
    refine .of_eq (runFrom_of_feed (.variableName scope) h rfl) ?_
    have hname : Agrees (.variableName scope) (q + 1) (.variableValue scope) (fun _ _ => True)
        (identifier tokens (q + 1)) := by
      refine .identifier (fun _ => rfl) (fun t _ hne => ?_) rfl
      cases t <;> first | rfl | exact absurd rfl (hne _)
    refine hname.bind fun name _ => ?_
    have hassign : Agrees (.variableValue scope name.value) name.next
        (fun _ => .operand (scope.expression (.declare name.value))) (fun _ _ => True)
        (expect tokens .assign name.next) :=
      .expect rfl (fun t _ hne => if_neg hne) fun _ => rfl
    refine hassign.bind fun eaten _ => ?_
    exact expression_terminated_agrees (.declare name.value) (fun _ _ => rfl) rfl
      (fun _ => rfl) fun _ => rfl
  · next h =>
    refine .of_eq (runFrom_of_feed (.returned scope) h rfl) ?_
    have bare (hfeed : ∀ t, peek tokens (q + 1) = some t →
          t = .symbol .semicolon ∨ t = .symbol .closeBrace) :
        Agrees (.returned scope) (q + 1) (fun stmt => .statement (scope.push stmt)) (fun _ _ => True)
          (.ok (terminated tokens ((step h ()).map fun _ => Stmt.ret none))) := by
      have hterminated : runFrom tokens (.returned scope) (q + 1) =
          runFrom tokens (.terminated (scope.push (.ret none))) (q + 1) :=
        runFrom_congr (fun t ht => if_pos (hfeed t ht)) fun _ => rfl
      exact .of_eq hterminated (terminated_agrees ((step h ()).map fun _ => Stmt.ret none))
    dsimp only
    split
    · next hend => exact bare fun t ht => .inl (Option.some.inj (ht.symm.trans hend))
    · next hend => exact bare fun t ht => .inr (Option.some.inj (ht.symm.trans hend))
    · next hend => exact bare fun t ht => absurd (ht.symm.trans hend) (Option.some_ne_none t)
    · next t' hsemicolon hbrace hend =>
      have hoperand : runFrom tokens (.returned scope) (q + 1) =
          runFrom tokens (.operand (scope.expression .ret)) (q + 1) := by
        refine runFrom_congr (fun t ht => if_neg ?_) fun hnone => ?_
        · obtain rfl := Option.some.inj (ht.symm.trans hend)
          exact not_or.2 ⟨hsemicolon, hbrace⟩
        · exact absurd (hend.symm.trans hnone) (Option.some_ne_none t')
      refine .of_eq hoperand ?_
      exact expression_terminated_agrees (fun e => .ret (some e)) (fun _ _ => rfl) rfl
        (fun _ => rfl) fun _ => rfl
  · next h => exact branch_agrees ih _ scope [] h rfl
  · next h =>
    refine .of_eq (runFrom_of_feed (.operand (scope.expression .loop)) h rfl) ?_
    refine (expression_agrees _ _ (Pending.clear_none _)).bind fun condition hcondition => ?_
    have hopens : OpensBlock tokens condition.next
        (.complete (scope.expression .loop) condition.value)
        (scope.inside (.loop condition.value)) :=
      opensBlock_of_condition hcondition (fun _ => rfl) rfl
    have hlt := Nat.lt_trans condition.left_lt (step h ()).left_lt
    exact ((ih _ hlt).2 _ _ hopens).bind fun body _ => ⟨rfl, trivial⟩
  · next h =>
    refine .of_eq (runFrom_of_feed _ h rfl) ?_
    exact terminated_agrees (step h .leave)
  · next hvar hret hcond hloop hleave =>
    have hoperand : runFrom tokens (.statement scope) q =
        runFrom tokens (.operand (scope.expression .effect)) q := by
      refine runFrom_congr (fun t' ht' => ?_)
        fun hnone => absurd (ht.symm.trans hnone) (Option.some_ne_none t)
      obtain rfl := Option.some.inj (ht'.symm.trans ht)
      cases t' with
      | symbol sym =>
        cases sym with
        | var => exact (hvar ht).elim
        | ret => exact (hret ht).elim
        | cond => exact (hcond ht).elim
        | loop => exact (hloop ht).elim
        | leave => exact (hleave ht).elim
        | closeBrace => exact absurd rfl hclose
        | _ => rfl
      | _ => rfl
    refine .of_eq hoperand ?_
    exact expression_terminated_agrees .effect (fun _ _ => rfl) rfl (fun _ => rfl)
      fun _ => rfl

theorem statements_agrees (before : Part tokens start (List Stmt))
    (h : ∀ p, tokens.size - p ≤ tokens.size - before.next → StatementAgrees tokens p) :
    Agrees (.statement { scope with body := before.value }) before.next
      (fun body => .statement { scope with body := body })
      (fun _ next => next = some (.symbol .closeBrace)) (statements tokens before) := by
  rw [statements]
  split
  · next hclose => exact ⟨rfl, hclose⟩
  · next hnone => exact runFrom_of_none hnone
  · next t hclose ht =>
    refine (h _ (Nat.le_refl _) _ t ht hclose).bind fun next _ => ?_
    have hlt := next.left_lt
    refine statements_agrees (before.join (next.map fun stmt => before.value ++ [stmt]))
      fun p hp => ?_
    exact h p (Nat.le_of_lt (Nat.lt_of_le_of_lt hp hlt))
termination_by tokens.size - before.next
decreasing_by exact hlt

theorem block_agrees
    (ih : ∀ p, tokens.size - p < tokens.size - q → BranchAgrees tokens p ∧ BlockAgrees tokens p) :
    BlockAgrees tokens q := by
  intro s scope hopens
  rw [block]
  have hopen : Agrees s q (fun _ => .statement scope) (fun _ _ => True)
      (expect tokens .openBrace q) :=
    .expect hopens.feed hopens.refused hopens.finish
  refine hopen.bind fun opened _ => ?_
  have hbody : scope = { scope with body := (opened.map fun _ => ([] : List Stmt)).value } := by
    obtain ⟨functions, name, params, body, openers⟩ := scope
    cases hopens.body
    rfl
  rw [hbody]
  refine (statements_agrees _ fun p hp => ?_).bind fun body hclose => ?_
  · have hlt := Nat.lt_of_le_of_lt hp opened.left_lt
    exact statement_agrees fun p' hp' => ih p' (Nat.lt_trans hp' hlt)
  · have hexpect : Agrees (.statement { scope with body := body.value }) body.next
        (fun _ => ({ scope with body := body.value } : Scope).close) (fun _ _ => True)
        (expect tokens .closeBrace body.next) :=
      .expect_of_peek hclose rfl
    exact hexpect.bind fun closed _ => ⟨rfl, trivial⟩

/-- Statements with `if` and blocks are read in the states as they are by recursive descent. -/
theorem branch_and_block_agree (q : Nat) : BranchAgrees tokens q ∧ BlockAgrees tokens q := by
  have smaller (p : Nat) (_ : tokens.size - p < tokens.size - q) :
      BranchAgrees tokens p ∧ BlockAgrees tokens p :=
    branch_and_block_agree p
  exact ⟨branch_agrees smaller, block_agrees smaller⟩
termination_by tokens.size - q

variable {functions : List Function} {name : String}

def behindParameters (functions : List Function) (name : String) : List String → State
  | [] => .firstParameter functions name
  | params => .afterParameter functions name params

theorem behindParameters_of_ne {params : List String} (h : params ≠ []) :
    behindParameters functions name params = .afterParameter functions name params := by
  cases params with
  | nil => exact absurd rfl h
  | cons param rest => rfl

theorem parameters_agrees (before : Part tokens start (List String))
    (hbefore : before.value ≠ []) :
    Agrees (behindParameters functions name before.value) before.next
      (behindParameters functions name)
      (fun params next => params ≠ [] ∧ next ≠ some (.symbol .comma))
      (parameters tokens before) := by
  rw [parameters]
  split
  · next comma hcomma =>
    obtain ⟨hpeek, hnext⟩ := of_eat? hcomma
    rw [behindParameters_of_ne hbefore]
    refine .of_eq (runFrom_of_feed _ hpeek rfl) ?_
    rw [← hnext]
    have hname : Agrees (.nextParameter functions name before.value) comma.next
        (fun param => .afterParameter functions name (before.value ++ [param])) (fun _ _ => True)
        (identifier tokens comma.next) := by
      refine .identifier (fun _ => rfl) (fun t _ hne => ?_) rfl
      cases t <;> first | rfl | exact absurd rfl (hne _)
    refine hname.bind fun next _ => ?_
    have hlt := (comma.join next).left_lt
    have hparams : before.value ++ [next.value] ≠ [] := List.concat_ne_nil _ _
    rw [← behindParameters_of_ne hparams]
    exact parameters_agrees (before.join (comma.join (next.map fun name => before.value ++ [name])))
      hparams
  · next hcomma => exact ⟨rfl, hbefore, of_not_eat? hcomma⟩
termination_by tokens.size - before.next
decreasing_by exact hlt

theorem function_agrees (functions : List Function) {t : Token} (ht : peek tokens q = some t) :
    Agrees (.program functions) q (fun f => .program (functions ++ [f])) (fun _ _ => True)
      (function tokens q) := by
  unfold function
  split
  · next keyword hkeyword =>
    obtain ⟨hpeek, hnext⟩ := of_eat? hkeyword
    refine .of_eq (runFrom_of_feed (.functionName functions) hpeek rfl) ?_
    rw [← hnext]
    have hname : Agrees (.functionName functions) keyword.next (.parameterList functions)
        (fun _ _ => True) (identifier tokens keyword.next) := by
      refine .identifier (fun _ => rfl) (fun t _ hne => ?_) rfl
      cases t <;> first | rfl | exact absurd rfl (hne _)
    refine hname.bind fun name _ => ?_
    have hopen : Agrees (.parameterList functions name.value) name.next
        (fun _ => .firstParameter functions name.value) (fun _ _ => True)
        (expect tokens .openParen name.next) :=
      .expect rfl (fun t _ hne => if_neg hne) fun _ => rfl
    refine hopen.bind fun opened _ => ?_
    have hparams : Agrees (.firstParameter functions name.value) opened.next
        (behindParameters functions name.value)
        (fun params next => next = some (.symbol .closeParen) ∧ params = [] ∨
          params ≠ [] ∧ next ≠ some (.symbol .comma))
        (if peek tokens opened.next = some (.symbol .closeParen) then
            pure (opened.map fun _ => [])
          else do
            let first ← identifier tokens opened.next
            parameters tokens (opened.join (first.map fun name => [name]))) := by
      split
      · next hclose => exact ⟨rfl, .inl ⟨hclose, rfl⟩⟩
      · next hclose =>
        have hfirst : Agrees (.firstParameter functions name.value) opened.next
            (fun param => .afterParameter functions name.value [param]) (fun _ _ => True)
            (identifier tokens opened.next) := by
          refine .identifier (fun _ => rfl) (fun t ht hne => ?_) rfl
          cases t with
          | ident name => exact absurd rfl (hne name)
          | symbol sym => cases sym <;> first | rfl | exact absurd ht hclose
          | _ => rfl
        refine hfirst.bind fun first _ => ?_
        exact (parameters_agrees (opened.join (first.map fun name => [name]))
          (List.cons_ne_nil _ _)).imp fun _ _ h => .inr h
    refine hparams.bind fun params hparams => ?_
    have hclose : Agrees (behindParameters functions name.value params.value) params.next
        (fun _ => .functionBody functions name.value params.value) (fun _ _ => True)
        (expect tokens .closeParen params.next) := by
      rcases hparams with ⟨hnext, hnil⟩ | ⟨hne, hcomma⟩
      · rw [hnil]
        exact .expect_of_peek hnext rfl
      · rw [behindParameters_of_ne hne]
        refine .expect rfl (fun t ht hother => ?_) fun _ => rfl
        cases t with
        | symbol sym =>
          cases sym <;> first | rfl | exact absurd ht hcomma | exact absurd rfl hother
        | _ => rfl
    refine hclose.bind fun closed _ => ?_
    have hopens : OpensBlock tokens closed.next (.functionBody functions name.value params.value)
        ⟨functions, name.value, params.value, [], []⟩ :=
      ⟨rfl, rfl, fun t _ hother => if_neg hother, fun _ => rfl⟩
    exact ((branch_and_block_agree _).2 _ _ hopens).bind fun body _ => ⟨rfl, trivial⟩
  · next hkeyword =>
    refine runFrom_of_refused ht (if_neg fun h => of_not_eat? hkeyword ?_)
    rw [ht, h]

theorem runFrom_functions (tokens : Array Located) (q : Nat) (before : List Function) :
    runFrom tokens (.program before) q = (Parser.functions tokens q before).map Program.mk := by
  rw [Parser.functions]
  split
  · next hnone => exact runFrom_of_none hnone
  · next t ht =>
    have hfunction := function_agrees before ht
    cases hresult : function tokens q with
    | error e =>
      rw [hresult] at hfunction
      exact hfunction
    | ok next =>
      rw [hresult] at hfunction
      have hlt := next.left_lt
      rw [hfunction.1, runFrom_functions tokens next.next]
      rfl
termination_by tokens.size - q
decreasing_by exact hlt

end Parser

/-- Reading by recursive descent agrees with reading one token at a time: they accept the same
tokens as the same program, and fail with the same error. -/
theorem parse_eq_run (tokens : List Located) :
    parse tokens = Parser.run (.program []) 0 0 tokens := by
  have hrun := Parser.runFrom_functions tokens.toArray 0 []
  rw [parse, ← hrun, Parser.runFrom, List.drop_zero]
  cases tokens with
  | nil => rfl
  | cons t rest => rfl

end BlueCode
