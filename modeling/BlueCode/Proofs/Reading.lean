import BlueCode.Proofs.ParsedPrograms

namespace BlueCode

def Literal.token : Literal → Token
  | .int n => .int n
  | .float x => .float x
  | .str s => .str s

def ArithOp.token : ArithOp → Token
  | .add => .symbol .plus
  | .sub => .symbol .minus
  | .mul => .symbol .star
  | .div => .symbol .slash

def CompareOp.token : CompareOp → Token
  | .eq => .symbol .equal
  | .ne => .symbol .notEqual
  | .lt => .symbol .less
  | .gt => .symbol .greater
  | .le => .symbol .lessEqual
  | .ge => .symbol .greaterEqual

def Located.anywhere (tokens : List Token) : List Located :=
  tokens.map fun t => ⟨t, ⟨0, 0⟩⟩

@[simp] theorem Located.map_token_anywhere (tokens : List Token) :
    (anywhere tokens).map token = tokens := by
  rw [anywhere, List.map_map]
  exact List.map_id tokens

namespace Parser

def State.feedAll (s : State) (tokens : List Token) : Except Expected State :=
  tokens.foldlM State.feed s

namespace State

variable {s next last : State} {t : Token} {tokens rest : List Token}

@[simp] theorem feedAll_nil (s : State) : s.feedAll [] = .ok s := rfl

theorem feedAll_cons (s : State) (t : Token) (rest : List Token) :
    s.feedAll (t :: rest) = s.feed t >>= fun next => next.feedAll rest :=
  List.foldlM_cons

theorem feedAll_cons_of_ok (h : s.feed t = .ok next) (rest : List Token) :
    s.feedAll (t :: rest) = next.feedAll rest := by
  rw [feedAll_cons, h]
  rfl

theorem feedAll_append_of_ok (h : s.feedAll tokens = .ok next) (rest : List Token) :
    s.feedAll (tokens ++ rest) = next.feedAll rest := by
  rw [feedAll, List.foldlM_append]
  change s.feedAll tokens >>= _ = _
  rw [h]
  rfl

/-- Tokens that cannot be read cannot be read with others behind them. -/
theorem feedAll_append_of_error {expected : Expected} (h : s.feedAll tokens = .error expected)
    (rest : List Token) : s.feedAll (tokens ++ rest) = .error expected := by
  rw [feedAll, List.foldlM_append]
  change s.feedAll tokens >>= _ = _
  rw [h]
  rfl

end State

/-- Where the last of some tokens ends, if others before them end at `stop`. -/
def lastStop (stop : Nat) (tokens : List Located) : Nat :=
  tokens.getLast?.elim stop fun t => t.span.stop

theorem lastStop_cons (stop : Nat) (t : Located) (rest : List Located) :
    lastStop stop (t :: rest) = lastStop t.span.stop rest := by
  rw [lastStop, lastStop, List.getLast?_cons]
  cases rest.getLast? <;> rfl

variable {s : State} {position stop : Nat} {tokens : List Located} {p : Program} {e : ParseError}

theorem run_eq_ok_iff : run s position stop tokens = .ok p ↔
    ∃ last, s.feedAll (tokens.map Located.token) = .ok last ∧ last.finish = .ok p := by
  induction tokens generalizing s position stop with
  | nil =>
    rw [run]
    constructor
    · intro h
      refine ⟨s, rfl, ?_⟩
      cases hf : s.finish with
      | error expected => rw [hf] at h; cases h
      | ok program => rw [hf] at h; cases h; rfl
    · rintro ⟨last, hlast, hf⟩
      cases hlast
      rw [hf]
  | cons t rest ih =>
    rw [run, List.map_cons, State.feedAll_cons]
    cases s.feed t.token with
    | error expected =>
      constructor
      · intro h
        cases h
      · rintro ⟨last, hlast, -⟩
        cases hlast
    | ok next => exact ih

/-- An error lies behind all tokens, or at the first one that its state does not take. -/
theorem run_eq_error (h : run s position stop tokens = .error e) :
    (∃ last expected, s.feedAll (tokens.map Located.token) = .ok last ∧
      last.finish = .error expected ∧
      e = ⟨position + tokens.length, ⟨lastStop stop tokens, lastStop stop tokens⟩, expected, none⟩) ∨
    ∃ before t after last expected, tokens = before ++ t :: after ∧
      s.feedAll (before.map Located.token) = .ok last ∧ last.feed t.token = .error expected ∧
      e = ⟨position + before.length, t.span, expected, some t.token⟩ := by
  induction tokens generalizing s position stop with
  | nil =>
    rw [run] at h
    cases hf : s.finish with
    | ok program => rw [hf] at h; cases h
    | error expected =>
      rw [hf] at h
      cases h
      exact .inl ⟨s, expected, rfl, hf, rfl⟩
  | cons t rest ih =>
    rw [run] at h
    cases hf : s.feed t.token with
    | error expected =>
      rw [hf] at h
      cases h
      exact .inr ⟨[], t, rest, s, expected, rfl, rfl, hf, rfl⟩
    | ok next =>
      rw [hf] at h
      have hposition (n : Nat) : position + 1 + n = position + (n + 1) := by omega
      rcases ih h with ⟨last, expected, hlast, hfinish, rfl⟩ |
        ⟨before, t', after, last, expected, rfl, hlast, hrefused, rfl⟩
      · refine .inl ⟨last, expected, ?_, hfinish, ?_⟩
        · rw [List.map_cons, State.feedAll_cons_of_ok hf, hlast]
        · rw [lastStop_cons, List.length_cons, hposition]
      · refine .inr ⟨t :: before, t', after, last, expected, rfl, ?_, hrefused, ?_⟩
        · rw [List.map_cons, State.feedAll_cons_of_ok hf, hlast]
        · rw [List.length_cons, hposition]

end Parser

open BlueCode.Parser

/-- Some program is written by the tokens. -/
def Accepted (tokens : List Located) : Prop :=
  ∃ p, parse tokens = .ok p

variable {tokens : List Located} {p : Program} {e : ParseError}

theorem parse_eq_ok_iff : parse tokens = .ok p ↔
    ∃ last, State.feedAll (.program []) (tokens.map Located.token) = .ok last ∧
      last.finish = .ok p := by
  rw [parse_eq_run]
  exact run_eq_ok_iff

theorem parse_eq_error (h : parse tokens = .error e) :
    (∃ last expected, State.feedAll (.program []) (tokens.map Located.token) = .ok last ∧
      last.finish = .error expected ∧
      e = ⟨tokens.length, ⟨lastStop 0 tokens, lastStop 0 tokens⟩, expected, none⟩) ∨
    ∃ before t after last expected, tokens = before ++ t :: after ∧
      State.feedAll (.program []) (before.map Located.token) = .ok last ∧
      last.feed t.token = .error expected ∧
      e = ⟨before.length, t.span, expected, some t.token⟩ := by
  rw [parse_eq_run] at h
  have herror := run_eq_error h
  simp only [Nat.zero_add] at herror
  exact herror

end BlueCode
