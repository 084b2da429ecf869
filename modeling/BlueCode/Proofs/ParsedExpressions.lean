import BlueCode.Proofs.ParserStates

namespace BlueCode

namespace Parser

/-- Reads on from a state at a position. -/
def runFrom (tokens : Array Located) (s : State) (position : Nat) : Except ParseError Program :=
  run s position (stop tokens) (tokens.toList.drop position)

section

variable {tokens : Array Located} {s s' : State} {p start : Nat} {t : Token} {α β : Type}

theorem getElem?_of_peek (h : peek tokens p = some t) :
    ∃ located, tokens[p]? = some located ∧ located.token = t :=
  Option.map_eq_some_iff.1 h

theorem runFrom_of_peek (h : peek tokens p = some t) : runFrom tokens s p =
    match s.feed t with
    | .ok next => runFrom tokens next (p + 1)
    | .error expected => .error (failure tokens p expected) := by
  obtain ⟨located, hlocated, rfl⟩ := getElem?_of_peek h
  have hlist : tokens.toList[p]? = some located := by rw [Array.getElem?_toList, hlocated]
  have hdrop : tokens.toList.drop p = located :: tokens.toList.drop (p + 1) :=
    List.drop_eq_getElem?_toList_append.trans (by rw [hlist]; rfl)
  rw [runFrom, hdrop, run]
  cases s.feed located.token with
  | error expected =>
    dsimp only
    rw [failure, spanAt, h, hlocated]
    rfl
  | ok next =>
    change run next (p + 1) located.span.stop _ = run next (p + 1) (stop tokens) _
    cases hrest : tokens.toList.drop (p + 1) with
    | cons t rest => rfl
    | nil =>
      have hsize : tokens.size = p + 1 := by
        rw [List.drop_eq_nil_iff, Array.length_toList] at hrest
        exact Nat.le_antisymm hrest (Array.getElem?_eq_some_iff.1 hlocated).1
      have hlast : tokens.back? = some located := by
        rw [Array.back?_eq_getElem?, hsize, Nat.add_sub_cancel, hlocated]
      rw [stop, hlast]
      rfl

theorem runFrom_of_none (h : peek tokens p = none) : runFrom tokens s p =
    match s.finish with
    | .ok program => .ok program
    | .error expected => .error (failure tokens p expected) := by
  have hnone : tokens[p]? = none := Option.map_eq_none_iff.1 h
  have hdrop : tokens.toList.drop p = [] := by
    rw [List.drop_eq_nil_iff, Array.length_toList]
    exact Array.getElem?_eq_none_iff.1 hnone
  rw [runFrom, hdrop, run]
  cases s.finish with
  | ok program => rfl
  | error expected =>
    dsimp only
    rw [failure, spanAt, h, hnone]
    rfl

theorem runFrom_of_feed (next : State) (h : peek tokens p = some t) (hs : s.feed t = .ok next) :
    runFrom tokens s p = runFrom tokens next (p + 1) := by
  rw [runFrom_of_peek h, hs]

theorem runFrom_of_refused {expected : Expected} (h : peek tokens p = some t)
    (hs : s.feed t = .error expected) :
    runFrom tokens s p = .error (failure tokens p expected) := by
  rw [runFrom_of_peek h, hs]

theorem runFrom_congr (hfeed : ∀ t, peek tokens p = some t → s.feed t = s'.feed t)
    (hfinish : peek tokens p = none → s.finish = s'.finish) :
    runFrom tokens s p = runFrom tokens s' p := by
  cases h : peek tokens p with
  | none => rw [runFrom_of_none h, runFrom_of_none h, hfinish h]
  | some t => rw [runFrom_of_peek h, runFrom_of_peek h, hfeed t h]

theorem of_eat? {sym : Symbol} {eaten : Part tokens p Unit} (h : eat? tokens sym p = some eaten) :
    peek tokens p = some (.symbol sym) ∧ eaten.next = p + 1 := by
  unfold eat? at h
  split at h
  · next hpeek =>
    cases h
    exact ⟨hpeek, rfl⟩
  · cases h

theorem of_not_eat? {sym : Symbol} (h : eat? tokens sym p = none) :
    peek tokens p ≠ some (.symbol sym) := by
  unfold eat? at h
  split at h
  · cases h
  · next hpeek => exact hpeek

/-- From a state at a position on, the tokens are read in states as they were read with the given
result: with the same error, or up to the end of what was read. There the state is `after` what was
read, and `followed` holds of it and the next token. -/
def Agrees (s : State) (p : Nat) (after : α → State) (followed : α → Option Token → Prop) :
    Except ParseError (Part tokens start α) → Prop
  | .error e => runFrom tokens s p = .error e
  | .ok part =>
    runFrom tokens s p = runFrom tokens (after part.value) part.next ∧
      followed part.value (peek tokens part.next)

namespace Agrees

variable {start' : Nat} {after : α → State} {after' : β → State}
  {followed followed' : α → Option Token → Prop} {onward : β → Option Token → Prop}
  {r : Except ParseError (Part tokens start α)}
  {f : Part tokens start α → Except ParseError (Part tokens start' β)}

theorem of_eq {q : Nat} (hs : runFrom tokens s p = runFrom tokens s' q)
    (h : Agrees s' q after followed r) : Agrees s p after followed r := by
  cases r with
  | error e => exact hs.trans h
  | ok part => exact ⟨hs.trans h.1, h.2⟩

theorem bind (h : Agrees s p after followed r)
    (hf : ∀ part : Part tokens start α, followed part.value (peek tokens part.next) →
      Agrees (after part.value) part.next after' onward (f part)) :
    Agrees s p after' onward (r >>= f) := by
  cases r with
  | error e => exact h
  | ok part => exact of_eq h.1 (hf part h.2)

theorem imp (h : Agrees s p after followed r) (hf : ∀ a next, followed a next → followed' a next) :
    Agrees s p after followed' r := by
  cases r with
  | error e => exact h
  | ok part => exact ⟨h.1, hf _ _ h.2⟩

theorem expect {next : State} {sym : Symbol} (hok : s.feed (.symbol sym) = .ok next)
    (hno : ∀ t, peek tokens p = some t → t ≠ .symbol sym → s.feed t = .error (.symbol sym))
    (hend : peek tokens p = none → s.finish = .error (.symbol sym)) :
    Agrees s p (fun _ => next) (fun _ _ => True) (expect tokens sym p) := by
  unfold Parser.expect
  split
  · next eaten h =>
    obtain ⟨hpeek, hnext⟩ := of_eat? h
    refine ⟨?_, trivial⟩
    rw [hnext]
    exact runFrom_of_feed _ hpeek hok
  · next h =>
    cases hpeek : peek tokens p with
    | none =>
      change runFrom tokens s p = _
      rw [runFrom_of_none hpeek, hend hpeek]
    | some t =>
      exact runFrom_of_refused hpeek (hno t hpeek fun ht => of_not_eat? h (hpeek.trans (ht ▸ rfl)))

theorem expect_of_peek {next : State} {sym : Symbol} (hpeek : peek tokens p = some (.symbol sym))
    (hok : s.feed (.symbol sym) = .ok next) :
    Agrees s p (fun _ => next) (fun _ _ => True) (Parser.expect tokens sym p) := by
  refine .expect hok (fun t ht hne => ?_) (fun hnone => ?_)
  · exact absurd (Option.some.inj (ht.symm.trans hpeek)) hne
  · exact absurd (hpeek.symm.trans hnone) (Option.some_ne_none _)

theorem identifier {next : String → State} (hok : ∀ name, s.feed (.ident name) = .ok (next name))
    (hno : ∀ t, peek tokens p = some t → (∀ name, t ≠ .ident name) → s.feed t = .error .identifier)
    (hend : s.finish = .error .identifier) :
    Agrees s p next (fun _ _ => True) (identifier tokens p) := by
  unfold Parser.identifier
  split
  · next name h => exact ⟨runFrom_of_feed _ h (hok name), trivial⟩
  · next h =>
    cases hpeek : peek tokens p with
    | none =>
      change runFrom tokens s p = _
      rw [runFrom_of_none hpeek, hend]
    | some t =>
      exact runFrom_of_refused hpeek (hno t hpeek fun name ht => h name (hpeek.trans (ht ▸ rfl)))

end Agrees

end

/-- The level at which an operator binds; `=` is at none. -/
def Operator.level? : Operator → Option Level
  | .assign => none
  | .compare _ => some .comparison
  | .sum _ => some .sum
  | .product _ => some .product

def Operator.operation : Operator → Expr → Expr → Expr
  | .assign => .assign
  | .compare op => .compare op
  | .sum op => .arith op
  | .product op => .arith op

theorem Level.operation?_eq (level : Level) (t : Token) :
    level.operation? t = (Operator.ofToken? t).bind fun o =>
      if o.level? = some level then some o.operation else none := by
  cases t with
  | symbol s => cases level <;> cases s <;> rfl
  | _ => cases level <;> rfl

theorem Level.rank_le (level : Level) : level.rank < Level.comparison.rank + 1 := by
  cases level <;> decide

theorem eq_assign_of_ofToken? {t : Token} {o : Operator} (ho : Operator.ofToken? t = some o)
    (hlevel : o.level? = none) : t = .symbol .assign := by
  cases o with
  | assign =>
    cases t with
    | symbol s => cases s <;> first | rfl | cases ho
    | _ => cases ho
  | _ => cases hlevel

/-- What waits for its right operand behind looser operators than those of a level. -/
def Pending.above (p : Pending) : Level → Pending
  | .product => ⟨p.targets, p.compared, p.summed, .none⟩
  | .sum => ⟨p.targets, p.compared, .none, .none⟩
  | .comparison => ⟨p.targets, .none, .none, .none⟩

def Pending.value (p : Pending) (last : Expr) : Level → Expr
  | .product => p.product last
  | .sum => p.sum last
  | .comparison => p.comparison last

/-- Nothing waits for its right operand behind the operators of the levels below `rank`. -/
def Pending.Clear (p : Pending) (rank : Nat) : Prop :=
  ∀ level : Level, level.rank < rank → p.above level = p

/-- The token is no operator of the levels below `rank`. -/
def Settled (rank : Nat) (next : Option Token) : Prop :=
  ∀ t, next = some t → ∀ level : Level, level.rank < rank → level.operation? t = none

namespace Pending

variable {p : Pending} {level : Level} {o : Operator} {last value : Expr}

theorem clear_none (rank : Nat) : Clear .none rank := by
  intro level _
  cases level <;> rfl

theorem value_of_clear (h : p.Clear (level.rank + 1)) : p.value last level = last := by
  rw [← h level (Nat.lt_succ_self _)]
  cases level <;> rfl

theorem above_extend (h : o.level? = some level) :
    (p.extend last o).above level = p.above level := by
  cases o <;> cases h <;> rfl

theorem value_extend (h : o.level? = some level) :
    (p.extend last o).value value level = o.operation (p.value last level) value := by
  cases o <;> cases h <;> rfl

theorem clear_assign (rank : Nat) : (p.extend last .assign).Clear rank := by
  intro level _
  cases level <;> rfl

theorem expression_assign (h : p.Clear (Level.comparison.rank + 1)) :
    (p.extend last .assign).expression value = p.expression (.assign last value) := by
  rw [← h .comparison (Nat.lt_succ_self _)]
  exact List.foldr_append

theorem clear_extend (h : o.level? = some level) : (p.extend last o).Clear level.rank := by
  intro level' hlt
  cases o <;> cases h <;> cases level' <;> first | rfl | exact absurd hlt (by decide)

/-- An operator that does not bind tighter takes what is complete at a level as its left side. -/
theorem extend_above (h : ∀ level' : Level, level'.rank < level.rank → o.level? ≠ some level') :
    (p.above level).extend (p.value last level) o = p.extend last o := by
  cases level <;> cases o <;>
    first | rfl | exact absurd rfl (h .product (by decide)) | exact absurd rfl (h .sum (by decide))

theorem expression_above : (p.above level).expression (p.value last level) = p.expression last := by
  cases level <;> rfl

end Pending

section

variable {tokens : Array Located} {nest : Nest} {level : Level} {o : Operator} {last value : Expr}
  {q : Nat} {t : Token}

theorem level?_of_settled {rank : Nat} (h : Settled rank (some t))
    (ho : Operator.ofToken? t = some o) (hlt : level.rank < rank) : o.level? ≠ some level := by
  intro hlevel
  have hnone := h t rfl level hlt
  rw [Level.operation?_eq, ho, Option.bind_some, if_pos hlevel] at hnone
  cases hnone

/-- If the next operator does not bind tighter than those of a level, what is complete at the level
may be taken for the last operand. -/
theorem runFrom_above (h : Settled level.rank (peek tokens q)) :
    runFrom tokens (.complete nest last) q =
      runFrom tokens (.complete { nest with pending := nest.pending.above level }
        (nest.pending.value last level)) q := by
  refine runFrom_congr (fun t ht => ?_) fun _ => rfl
  change nest.complete last t = Nest.complete _ _ t
  unfold Nest.complete
  cases ho : Operator.ofToken? t with
  | none =>
    dsimp only
    rw [Pending.expression_above]
    rfl
  | some o =>
    rw [ht] at h
    dsimp only
    rw [Pending.extend_above fun level' => level?_of_settled h ho]

def NoOperator (next : Option Token) : Prop :=
  ∀ t, next = some t → Operator.ofToken? t = none

variable (tokens) in
/-- An expression that stands by itself is read in the states as it is by `expression`. -/
def ExpressionAgrees (q : Nat) : Prop :=
  ∀ nest : Nest, nest.pending.Clear (Level.comparison.rank + 1) →
    Agrees (.operand nest) q (.complete nest) (fun _ => NoOperator) (expression tokens q)

variable (tokens) in
def OperandAgrees (level : Level) (q : Nat) : Prop :=
  ∀ nest : Nest, nest.pending.Clear level.rank →
    Agrees (.operand nest) q (.complete nest) (fun _ => Settled level.rank) (operand tokens level q)

variable (tokens) in
def ChainAgrees (level : Level) (q : Nat) : Prop :=
  ∀ nest : Nest, nest.pending.Clear (level.rank + 1) →
    Agrees (.operand nest) q (.complete nest) (fun _ => Settled (level.rank + 1))
      (chain tokens level q)

theorem of_operation? {operation : Part tokens q (Expr → Expr → Expr)}
    (h : operation? tokens level q = some operation) : ∃ t o, peek tokens q = some t ∧
      Operator.ofToken? t = some o ∧ o.level? = some level ∧ operation.value = o.operation ∧
        operation.next = q + 1 := by
  unfold operation? at h
  split at h
  · next t ht =>
    obtain ⟨f, hf, rfl⟩ := Option.map_eq_some_iff.1 h
    rw [Level.operation?_eq] at hf
    obtain ⟨o, ho, hif⟩ := Option.bind_eq_some_iff.1 hf
    split at hif
    · next hlevel =>
      cases hif
      exact ⟨t, o, ht, ho, hlevel, rfl, rfl⟩
    · cases hif
  · cases h

theorem of_not_operation? (h : operation? tokens level q = none) (ht : peek tokens q = some t) :
    level.operation? t = none := by
  unfold operation? at h
  split at h
  · next t' ht' =>
    rw [ht'] at ht
    cases ht
    exact Option.map_eq_none_iff.1 h
  · next hnone =>
    rw [hnone] at ht
    cases ht

theorem links_agrees {start : Nat} {left : Part tokens start Expr}
    (h : ∀ q, tokens.size - q < tokens.size - left.next → OperandAgrees tokens level q)
    (hclear : nest.pending.Clear (level.rank + 1))
    (hsettled : Settled level.rank (peek tokens left.next)) :
    Agrees (.complete nest left.value) left.next (.complete nest)
      (fun _ => Settled (level.rank + 1)) (links tokens level left) := by
  rw [links]
  split
  -- The right operand is read where looser operators wait, and then belongs to the left side.
  · next operation hoperation =>
    obtain ⟨t, o, ht, ho, hlevel, hvalue, hnext⟩ := of_operation? hoperation
    have hfeed : (State.complete nest left.value).feed t =
        .ok (.operand { nest with pending := nest.pending.extend left.value o }) := by
      change nest.complete left.value t = _
      rw [Nest.complete, ho]
    refine .of_eq (runFrom_of_feed _ ht hfeed) ?_
    rw [← hnext]
    refine (h _ operation.left_lt _ (Pending.clear_extend hlevel)).bind fun right hright => ?_
    have hlt := Nat.lt_trans right.left_lt operation.left_lt
    refine .of_eq ?_ (links_agrees (fun q hq => h q (Nat.lt_trans hq hlt)) hclear hright)
    rw [runFrom_above hright]
    dsimp only
    rw [Pending.above_extend hlevel, hclear level (Nat.lt_succ_self _), Pending.value_extend hlevel,
      Pending.value_of_clear hclear, ← hvalue]
    rfl
  · next hnone =>
    refine ⟨rfl, fun t ht level' hlt => ?_⟩
    rcases Nat.lt_succ_iff_lt_or_eq.1 hlt with hlt | heq
    · exact hsettled t ht level' hlt
    · have hsame : level' = level := by
        cases level <;> cases level' <;> first | rfl | cases heq
      subst hsame
      exact of_not_operation? hnone ht
termination_by tokens.size - left.next
decreasing_by exact hlt

theorem chain_agrees {n : Nat} (h : ∀ q, tokens.size - q ≤ n → OperandAgrees tokens level q)
    (q : Nat) (hq : tokens.size - q ≤ n) : ChainAgrees tokens level q := by
  intro nest hclear
  rw [chain]
  have hoperand := h q hq nest fun level' hlt => hclear level' (Nat.lt_succ_of_lt hlt)
  refine hoperand.bind fun first hfirst => ?_
  refine links_agrees (fun p hp => h p ?_) hclear hfirst
  exact Nat.le_of_lt (Nat.lt_of_lt_of_le hp (Nat.le_trans (Nat.le_of_lt first.left_lt) hq))

variable (tokens) in
def FactorAgrees (q : Nat) : Prop :=
  ∀ nest : Nest, Agrees (.operand nest) q (.complete nest) (fun _ _ => True) (factor tokens q)

/-- The levels build on each other, and the tightest of them on factors. -/
theorem operand_agrees {n : Nat} (h : ∀ q, tokens.size - q ≤ n → FactorAgrees tokens q)
    (level : Level) : ∀ q, tokens.size - q ≤ n → OperandAgrees tokens level q := by
  have product (q : Nat) (hq : tokens.size - q ≤ n) : OperandAgrees tokens .product q := by
    intro nest _
    rw [operand]
    exact (h q hq nest).imp fun _ _ _ _ _ _ hlt => absurd hlt (Nat.not_lt_zero _)
  have sum (q : Nat) (hq : tokens.size - q ≤ n) : OperandAgrees tokens .sum q := by
    intro nest hclear
    rw [operand]
    exact chain_agrees product q hq nest hclear
  have comparison (q : Nat) (hq : tokens.size - q ≤ n) : OperandAgrees tokens .comparison q := by
    intro nest hclear
    rw [operand]
    exact chain_agrees sum q hq nest hclear
  cases level <;> assumption

theorem runFrom_assign (hclear : nest.pending.Clear (Level.comparison.rank + 1))
    (h : NoOperator (peek tokens q)) :
    runFrom tokens (.complete { nest with pending := nest.pending.extend last .assign } value) q =
      runFrom tokens (.complete nest (.assign last value)) q := by
  refine runFrom_congr (fun t ht => ?_) fun _ => rfl
  change Nest.complete _ value t = nest.complete _ t
  unfold Nest.complete
  rw [h t ht]
  dsimp only
  rw [Pending.expression_assign hclear]
  rfl

theorem expression_agrees_of_factor {n : Nat}
    (hf : ∀ q, tokens.size - q ≤ n → FactorAgrees tokens q)
    (he : ∀ q, tokens.size - q < n → ExpressionAgrees tokens q) (hq : tokens.size - q = n) :
    ExpressionAgrees tokens q := by
  intro nest hclear
  rw [expression]
  have hchain := chain_agrees (operand_agrees hf .comparison) q (Nat.le_of_eq hq) nest hclear
  refine hchain.bind fun left hleft => ?_
  split
  · next eaten heaten =>
    obtain ⟨hpeek, hnext⟩ := of_eat? heaten
    refine .of_eq (runFrom_of_feed _ hpeek rfl) ?_
    rw [← hnext]
    have hlt : tokens.size - eaten.next < n :=
      hq ▸ Nat.lt_trans eaten.left_lt left.left_lt
    refine (he eaten.next hlt _ (Pending.clear_assign _)).bind fun right hright => ?_
    exact ⟨runFrom_assign hclear hright, hright⟩
  · next hnone =>
    refine ⟨rfl, fun t ht => ?_⟩
    cases ho : Operator.ofToken? t with
    | none => rfl
    | some o =>
      rw [ht] at hleft
      cases hlevel : o.level? with
      | none =>
        have hassign := eq_assign_of_ofToken? ho hlevel
        exact absurd (hassign ▸ ht) (of_not_eat? hnone)
      | some level => exact absurd hlevel (level?_of_settled hleft ho (level.rank_le))

/-- What is read inside the brackets of a call, behind some arguments. -/
def Nest.inCall (nest : Nest) (function : String) (args : List Expr) : Nest :=
  { nest with brackets := .argument function args nest.pending :: nest.brackets, pending := .none }

/-- Behind the arguments of a call, the last of them included. -/
def Nest.called (nest : Nest) (function : String) (args : List Expr) : State :=
  match args.getLast? with
  | none => .firstArgument nest function
  | some last => .complete (nest.inCall function args.dropLast) last

variable {function : String} {args : List Expr} {start : Nat}

theorem called_concat :
    nest.called function (args ++ [last]) = .complete (nest.inCall function args) last := by
  rw [Nest.called, List.getLast?_concat, List.dropLast_concat]

theorem feed_called : (nest.called function args).feed (.symbol .closeParen) =
    .ok (.complete nest (.call function args)) := by
  rcases List.eq_nil_or_concat args with rfl | ⟨before, last, rfl⟩
  · rfl
  · rw [List.concat_eq_append, called_concat]
    rfl

theorem feed_called_of_ne {t : Token} (hargs : args ≠ []) (ho : Operator.ofToken? t = none)
    (hcomma : t ≠ .symbol .comma) (hclose : t ≠ .symbol .closeParen) :
    (nest.called function args).feed t = .error (.symbol .closeParen) := by
  obtain ⟨before, last, rfl⟩ := List.eq_nil_or_concat args |>.resolve_left hargs
  rw [List.concat_eq_append, called_concat]
  change Nest.complete _ last t = _
  rw [Nest.complete, ho]
  change Nest.finished (nest.inCall function before) last t = _
  rw [Nest.finished, Nest.inCall]
  dsimp only
  rw [if_neg hcomma, if_neg hclose]

theorem finish_called (hargs : args ≠ []) :
    (nest.called function args).finish = .error (.symbol .closeParen) := by
  obtain ⟨before, last, rfl⟩ := List.eq_nil_or_concat args |>.resolve_left hargs
  rw [List.concat_eq_append, called_concat]
  rfl

theorem arguments_agrees (before : Part tokens start (List Expr))
    (he : ∀ q, tokens.size - q < tokens.size - before.next → ExpressionAgrees tokens q)
    (hargs : before.value ≠ []) (hnext : NoOperator (peek tokens before.next)) :
    Agrees (nest.called function before.value) before.next (nest.called function)
      (fun args next => args ≠ [] ∧ NoOperator next ∧ next ≠ some (.symbol .comma))
      (arguments tokens before) := by
  rw [arguments]
  split
  · next comma hcomma =>
    obtain ⟨hpeek, hplace⟩ := of_eat? hcomma
    obtain ⟨earlier, last, hlast⟩ := List.eq_nil_or_concat before.value |>.resolve_left hargs
    rw [List.concat_eq_append] at hlast
    have hfeed : (nest.called function before.value).feed (.symbol .comma) =
        .ok (.operand (nest.inCall function before.value)) := by
      rw [hlast, called_concat]
      rfl
    refine .of_eq (runFrom_of_feed _ hpeek hfeed) ?_
    rw [← hplace]
    refine (he _ comma.left_lt _ (Pending.clear_none _)).bind fun next hno => ?_
    have hlt := Nat.lt_trans next.left_lt comma.left_lt
    rw [← called_concat]
    exact arguments_agrees (before.join (comma.join (next.map fun e => before.value ++ [e])))
      (fun q hq => he q (Nat.lt_trans hq hlt)) (List.concat_ne_nil _ _) hno
  · next hcomma => exact ⟨rfl, hargs, hnext, of_not_eat? hcomma⟩
termination_by tokens.size - before.next
decreasing_by exact hlt

theorem call_agrees (name : Part tokens start String)
    (he : ∀ q, tokens.size - q < tokens.size - name.next → ExpressionAgrees tokens q)
    (hopen : peek tokens name.next = some (.symbol .openParen)) :
    Agrees (.named nest name.value) name.next (.complete nest) (fun _ _ => True)
      (call tokens name) := by
  rw [call]
  have hexpect : Agrees (.named nest name.value) name.next (fun _ => .firstArgument nest name.value)
      (fun _ _ => True) (expect tokens .openParen name.next) :=
    .expect_of_peek hopen rfl
  refine hexpect.bind fun opened _ => ?_
  have hargs : Agrees (.firstArgument nest name.value) opened.next (nest.called name.value)
      (fun args next => next = some (.symbol .closeParen) ∨
        args ≠ [] ∧ NoOperator next ∧ next ≠ some (.symbol .comma))
      (if peek tokens opened.next = some (.symbol .closeParen) then
          pure (opened.map fun _ => [])
        else do
          let first ← expression tokens opened.next
          arguments tokens (opened.join (first.map fun e => [e]))) := by
    split
    · next hclose => exact ⟨rfl, .inl hclose⟩
    · next hclose =>
      have hoperand : runFrom tokens (.firstArgument nest name.value) opened.next =
          runFrom tokens (.operand (nest.inCall name.value [])) opened.next :=
        runFrom_congr (fun t ht => if_neg fun h => hclose (ht.trans (congrArg some h)))
          fun _ => rfl
      refine .of_eq hoperand ?_
      refine (he _ opened.left_lt _ (Pending.clear_none _)).bind fun first hfirst => ?_
      have hlt := Nat.lt_trans first.left_lt opened.left_lt
      refine (arguments_agrees (opened.join (first.map fun e => [e]))
        (fun q hq => he q (Nat.lt_trans hq hlt)) (List.cons_ne_nil _ _) hfirst).imp ?_
      exact fun _ _ h => .inr h
  refine hargs.bind fun args hargs => ?_
  have hexpect : Agrees (nest.called name.value args.value) args.next
      (fun _ => .complete nest (.call name.value args.value)) (fun _ _ => True)
      (expect tokens .closeParen args.next) := by
    rcases hargs with hclose | ⟨hargs, hno, hcomma⟩
    · exact .expect_of_peek hclose feed_called
    · refine .expect feed_called (fun t ht hne => ?_) fun _ => finish_called hargs
      exact feed_called_of_ne hargs (hno t ht) (fun h => hcomma (h ▸ ht)) hne
  exact hexpect.bind fun closed _ => ⟨rfl, trivial⟩

theorem factor_agrees
    (he : ∀ p, tokens.size - p < tokens.size - q → ExpressionAgrees tokens p) :
    FactorAgrees tokens q := by
  intro nest
  rw [factor]
  split
  · next n h => exact ⟨runFrom_of_feed _ h rfl, trivial⟩
  · next x h => exact ⟨runFrom_of_feed _ h rfl, trivial⟩
  · next str h => exact ⟨runFrom_of_feed _ h rfl, trivial⟩
  · next name h =>
    refine .of_eq (runFrom_of_feed (.named nest name) h rfl) ?_
    split
    · next hopen =>
      have hlt := (step h name).left_lt
      exact call_agrees (step h name) (fun p hp => he p (Nat.lt_trans hp hlt)) hopen
    · next hopen =>
      refine ⟨runFrom_congr (fun t ht => ?_) fun _ => rfl, trivial⟩
      exact if_neg fun h => hopen (ht.trans (congrArg some h))
  · next hint hfloat hstr hident =>
    split
    · next opened hopened =>
      obtain ⟨hpeek, hnext⟩ := of_eat? hopened
      refine .of_eq (runFrom_of_feed _ hpeek rfl) ?_
      rw [← hnext]
      refine (he opened.next opened.left_lt _ (Pending.clear_none _)).bind fun inner hinner => ?_
      have hexpect : Agrees (.complete
          { nest with brackets := .group nest.pending :: nest.brackets, pending := .none }
          inner.value) inner.next (fun _ => .complete nest inner.value) (fun _ _ => True)
          (expect tokens .closeParen inner.next) := by
        refine .expect rfl (fun t ht hne => ?_) fun _ => rfl
        change Nest.complete _ inner.value t = _
        rw [Nest.complete, hinner t ht]
        exact if_neg hne
      exact hexpect.bind fun closed _ => ⟨rfl, trivial⟩
    · next hopen =>
      cases h : peek tokens q with
      | none => exact runFrom_of_none h
      | some t =>
        refine runFrom_of_refused h ?_
        cases t with
        | int n => exact (hint n h).elim
        | float x => exact (hfloat x h).elim
        | str s => exact (hstr s h).elim
        | ident name => exact (hident name h).elim
        | symbol sym => cases sym <;> first | rfl | exact (of_not_eat? hopen h).elim

/-- Expressions are read in the states as they are by recursive descent. -/
theorem expression_agrees (q : Nat) : ExpressionAgrees tokens q := by
  have smaller (p : Nat) (hp : tokens.size - p < tokens.size - q) : ExpressionAgrees tokens p :=
    expression_agrees p
  refine expression_agrees_of_factor (fun p hp => factor_agrees fun p' hp' => ?_) smaller rfl
  exact smaller p' (Nat.lt_of_lt_of_le hp' hp)
termination_by tokens.size - q

end

end Parser

end BlueCode
