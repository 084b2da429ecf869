import BlueCode.Proofs.Reading

namespace BlueCode

namespace Parser

/-- Some tokens lead from the state to one in which a program may end. -/
def State.Completable (s : State) : Prop :=
  ∃ tokens last p, s.feedAll tokens = .ok last ∧ last.finish = .ok p

theorem State.Completable.of_feed {s next : State} {t : Token} (h : s.feed t = .ok next)
    (hn : next.Completable) : s.Completable := by
  obtain ⟨tokens, last, p, hlast, hfinish⟩ := hn
  exact ⟨t :: tokens, last, p, (feedAll_cons_of_ok h tokens).trans hlast, hfinish⟩

theorem Scope.close_completable (scope : Scope) : scope.close.Completable := by
  obtain ⟨functions, name, params, body, openers⟩ := scope
  induction openers generalizing body with
  | nil => exact ⟨[], _, _, rfl, rfl⟩
  | cons first rest ih =>
    obtain ⟨opener, before⟩ := first
    cases opener with
    | onTrue chain condition => exact .of_feed (t := .symbol .closeBrace) rfl (ih _)
    | onFalse chain condition onTrue => exact .of_feed (t := .symbol .closeBrace) rfl (ih _)
    | loop condition => exact .of_feed (t := .symbol .closeBrace) rfl (ih _)

theorem Scope.statement_completable (scope : Scope) : (State.statement scope).Completable :=
  .of_feed (t := .symbol .closeBrace) rfl scope.close_completable

/-- Closing parentheses lead out of all brackets, and then the statement can end or its block can
start. -/
theorem Nest.complete_completable (nest : Nest) (last : Expr) :
    (State.complete nest last).Completable := by
  obtain ⟨scope, purpose, brackets, pending⟩ := nest
  induction brackets generalizing pending last with
  | nil =>
    cases purpose with
    | declare name => exact .of_feed (t := .symbol .semicolon) rfl (Scope.statement_completable _)
    | ret => exact .of_feed (t := .symbol .semicolon) rfl (Scope.statement_completable _)
    | effect => exact .of_feed (t := .symbol .semicolon) rfl (Scope.statement_completable _)
    | branch chain => exact .of_feed (t := .symbol .openBrace) rfl (Scope.statement_completable _)
    | loop => exact .of_feed (t := .symbol .openBrace) rfl (Scope.statement_completable _)
  | cons bracket rest ih =>
    cases bracket with
    | group outside => exact .of_feed (t := .symbol .closeParen) rfl (ih _ _)
    | argument function before outside => exact .of_feed (t := .symbol .closeParen) rfl (ih _ _)

theorem Nest.operand_completable (nest : Nest) : (State.operand nest).Completable :=
  .of_feed (t := .int 0) rfl (nest.complete_completable _)

theorem Scope.returned_completable (scope : Scope) : (State.returned scope).Completable :=
  .of_feed (t := .symbol .semicolon) rfl (Scope.statement_completable _)

/-- Whatever has been read can be completed to a program. -/
theorem State.completable (s : State) : s.Completable := by
  have hbody (functions : List Function) (name : String) (params : List String) :
      (State.functionBody functions name params).Completable :=
    .of_feed (t := .symbol .openBrace) rfl (Scope.statement_completable _)
  have hfirst (functions : List Function) (name : String) :
      (State.firstParameter functions name).Completable :=
    .of_feed (t := .symbol .closeParen) rfl (hbody _ _ _)
  have hparams (functions : List Function) (name : String) (params : List String) :
      (State.afterParameter functions name params).Completable :=
    .of_feed (t := .symbol .closeParen) rfl (hbody _ _ _)
  have hlist (functions : List Function) (name : String) :
      (State.parameterList functions name).Completable :=
    .of_feed (t := .symbol .openParen) rfl (hfirst _ _)
  cases s with
  | program functions => exact ⟨[], _, _, rfl, rfl⟩
  | functionName functions => exact .of_feed (t := .ident "f") rfl (hlist _ _)
  | parameterList functions name => exact hlist _ _
  | firstParameter functions name => exact hfirst _ _
  | nextParameter functions name params => exact .of_feed (t := .ident "x") rfl (hparams _ _ _)
  | afterParameter functions name params => exact hparams _ _ _
  | functionBody functions name params => exact hbody _ _ _
  | statement scope => exact scope.statement_completable
  | terminated scope => exact .of_feed (t := .symbol .closeBrace) rfl scope.close_completable
  | variableName scope =>
    refine .of_feed (t := .ident "x") rfl ?_
    exact .of_feed (t := .symbol .assign) rfl (Nest.operand_completable _)
  | variableValue scope name =>
    exact .of_feed (t := .symbol .assign) rfl (Nest.operand_completable _)
  | returned scope => exact scope.returned_completable
  | operand nest => exact nest.operand_completable
  | firstArgument nest function =>
    exact .of_feed (t := .symbol .closeParen) rfl (Nest.complete_completable _ _)
  | named nest name =>
    refine .of_feed (t := .symbol .openParen) rfl ?_
    exact .of_feed (t := .symbol .closeParen) rfl (Nest.complete_completable _ _)
  | complete nest last => exact nest.complete_completable last
  | afterOnTrue scope chain condition onTrue =>
    exact .of_feed (t := .symbol .closeBrace) rfl (Scope.close_completable _)
  | afterElse scope chain condition onTrue =>
    exact .of_feed (t := .symbol .openBrace) rfl (Scope.statement_completable _)

end Parser

open BlueCode.Parser

variable {tokens : List Located} {e : ParseError} {last : Parser.State}

theorem exists_accepted
    (h : State.feedAll (.program []) (tokens.map Located.token) = .ok last) :
    ∃ rest, Accepted (tokens ++ rest) := by
  obtain ⟨more, final, p, hfinal, hfinish⟩ := last.completable
  refine ⟨Located.anywhere more, p, parse_eq_ok_iff.2 ⟨final, ?_, hfinish⟩⟩
  rw [List.map_append, Located.map_token_anywhere, State.feedAll_append_of_ok h, hfinal]

/-- Tokens that cannot be read are not the start of any program, wherever they stand in the text. -/
theorem not_accepted {expected : Expected}
    (h : State.feedAll (.program []) (tokens.map Located.token) = .error expected)
    {whole : List Located} (hw : tokens.map Located.token <+: whole.map Located.token) :
    ¬ Accepted whole := by
  rintro ⟨p, hp⟩
  obtain ⟨final, hfinal, -⟩ := parse_eq_ok_iff.1 hp
  obtain ⟨more, hmore⟩ := hw
  rw [← hmore, State.feedAll_append_of_error h] at hfinal
  cases hfinal

/-- The error stands where the tokens stop being the start of a program. -/
structure ParseError.MarksFirst (e : ParseError) (tokens : List Located) : Prop where
  position_le : e.position ≤ tokens.length
  /-- What stands before the error can be completed. -/
  before : ∃ rest, Accepted (tokens.take e.position ++ rest)
  /-- No program begins with the token at the error as well. -/
  span_eq {t : Located} : tokens[e.position]? = some t → e.span = t.span
  impossible : e.position < tokens.length → ∀ whole : List Located,
    (tokens.take (e.position + 1)).map Located.token <+: whole.map Located.token → ¬ Accepted whole
  code_eq_iff : e.code = "VAR-P002" ↔ e.position = tokens.length
  span_end : e.code = "VAR-P002" → e.span = ⟨lastStop 0 tokens, lastStop 0 tokens⟩

theorem ParseError.code_of_found {e : ParseError} {t : Token} (h : e.found = some t) :
    e.code ≠ "VAR-P002" := by
  obtain ⟨position, span, expected, found⟩ := e
  cases h
  cases expected <;> simp [ParseError.code]

theorem ParseError.marksFirst (h : parse tokens = .error e) : e.MarksFirst tokens := by
  rcases parse_eq_error h with ⟨last, expected, hlast, -, rfl⟩ |
    ⟨before, t, after, last, expected, rfl, hlast, hrefused, rfl⟩
  · refine ⟨Nat.le_refl _, ?_, fun ht => ?_, fun hlt => absurd hlt (Nat.lt_irrefl _), ?_, fun _ => rfl⟩
    · rw [List.take_length]
      exact exists_accepted hlast
    · rw [List.getElem?_eq_none (Nat.le_refl _)] at ht
      cases ht
    · exact ⟨fun _ => rfl, fun _ => rfl⟩
  · have hlt : before.length < (before ++ t :: after).length := by
      rw [List.length_append, List.length_cons]
      omega
    have htake : (before ++ t :: after).take (before.length + 1) = before ++ [t] := by
      rw [List.take_length_add_append]
      rfl
    have hcode := ParseError.code_of_found
      (e := ⟨before.length, t.span, expected, some t.token⟩) rfl
    refine ⟨Nat.le_of_lt hlt, ?_, fun ht => ?_, fun _ whole hw => ?_, ?_, fun hc => absurd hc hcode⟩
    · rw [List.take_left]
      exact exists_accepted hlast
    · rw [List.getElem?_append_right (Nat.le_refl _), Nat.sub_self] at ht
      cases ht
      rfl
    · rw [htake] at hw
      have hfailed : State.feedAll (.program []) ((before ++ [t]).map Located.token) =
          .error expected := by
        rw [List.map_append, State.feedAll_append_of_ok hlast, List.map_singleton,
          State.feedAll_cons, hrefused]
        rfl
      exact not_accepted hfailed hw
    · exact ⟨fun hc => absurd hc hcode, fun hp => absurd hp (Nat.ne_of_lt hlt)⟩

/-- An error stands at the first token that cannot be part of a program. It is the error for the end
of the text exactly if only the end of the program is missing. -/
theorem parse_viablePrefix (tokens : List Located) :
    (∀ e, parse tokens = .error e → e.MarksFirst tokens) ∧
      ((∃ e, parse tokens = .error e ∧ e.code = "VAR-P002") ↔
        ¬ Accepted tokens ∧ ∃ rest, Accepted (tokens ++ rest)) := by
  refine ⟨fun e h => ParseError.marksFirst h, ?_, ?_⟩
  · rintro ⟨e, h, hcode⟩
    have hmarks := ParseError.marksFirst h
    have hbefore := hmarks.before
    rw [hmarks.code_eq_iff.1 hcode, List.take_length] at hbefore
    refine ⟨?_, hbefore⟩
    rintro ⟨p, hp⟩
    rw [h] at hp
    cases hp
  · rintro ⟨hnot, rest, hrest⟩
    cases h : parse tokens with
    | ok p => exact absurd ⟨p, h⟩ hnot
    | error e =>
      have hmarks := ParseError.marksFirst h
      refine ⟨e, rfl, hmarks.code_eq_iff.2 (Nat.le_antisymm hmarks.position_le ?_)⟩
      apply Nat.not_lt.1
      -- At a token that no program goes on with, the tokens could not be completed.
      intro hlt
      refine hmarks.impossible hlt (tokens ++ rest) ?_ hrest
      exact ((List.take_prefix _ _).trans (List.prefix_append _ _)).map _

theorem parse_viablePrefix_unfinished :
    let tokens := Located.anywhere [.symbol .func, .ident "f"]
    ∃ e, parse tokens = .error e ∧ e.MarksFirst tokens ∧ e.code = "VAR-P002" ∧
      ¬ Accepted tokens ∧ ∃ rest, Accepted (tokens ++ rest) :=
  have hparse := parse_eq_run (Located.anywhere [.symbol .func, .ident "f"])
  ⟨_, hparse, (parse_viablePrefix _).1 _ hparse, rfl, (parse_viablePrefix _).2.1 ⟨_, hparse, rfl⟩⟩

end BlueCode
