import BlueCode.Proofs.Reading

namespace BlueCode

/-- How tightly an expression holds together, the loosest first. -/
inductive Precedence where
  | assignment
  | comparison
  | sum
  | product
  | factor
  deriving DecidableEq, Repr

namespace Precedence

def rank : Precedence → Nat
  | assignment => 0
  | comparison => 1
  | sum => 2
  | product => 3
  | factor => 4

def tighter : Precedence → Precedence
  | assignment => comparison
  | comparison => sum
  | sum => product
  | product | factor => factor

theorem rank_le_factor (n : Precedence) : n.rank ≤ factor.rank := by
  cases n <;> decide

theorem eq_or_tighter {least own : Precedence} (h : least.rank ≤ own.rank) :
    least = own ∨ least.rank < least.tighter.rank ∧ least.tighter.rank ≤ own.rank := by
  cases least <;> cases own <;> revert h <;> decide

end Precedence

def inParentheses (tokens : List Token) : List Token :=
  .symbol .openParen :: tokens ++ [.symbol .closeParen]

/-- An expression in a place that asks for a precedence. -/
def Precedence.enclose (own least : Precedence) (tokens : List Token) : List Token :=
  if own.rank < least.rank then inParentheses tokens else tokens

def ArithOp.precedence : ArithOp → Precedence
  | .add | .sub => .sum
  | .mul | .div => .product

mutual

/-- The operators group to the left, and so ask for a tighter expression on the right; an assignment
does the reverse. -/
def Expr.tokens (least : Precedence) : Expr → List Token
  | .literal value => [value.token]
  | .ident name => [.ident name]
  | .assign target value =>
    Precedence.assignment.enclose least
      (target.tokens .comparison ++ .symbol .assign :: value.tokens .assignment)
  | .arith op left right =>
    op.precedence.enclose least
      (left.tokens op.precedence ++ op.token :: right.tokens op.precedence.tighter)
  | .compare op left right =>
    Precedence.comparison.enclose least (left.tokens .comparison ++ op.token :: right.tokens .sum)
  | .call function args =>
    .ident function :: inParentheses ([.symbol .comma].intercalate (Expr.listTokens args))

def Expr.listTokens : List Expr → List (List Token)
  | [] => []
  | e :: rest => e.tokens .assignment :: Expr.listTokens rest

end

namespace Parser

/-- Nothing waits that would take a part of an expression of the precedence as its right side. -/
def Pending.Ready (p : Pending) : Precedence → Prop
  | .assignment | .comparison => p.compared = .none ∧ p.summed = .none ∧ p.scaled = .none
  | .sum => p.summed = .none ∧ p.scaled = .none
  | .product => p.scaled = .none
  | .factor => True

/-- An expression of the precedence has been read behind what waits in `p`; `q` waits now, and `last`
is the last factor. -/
def Pending.Reads (p q : Pending) (last e : Expr) : Precedence → Prop
  | .assignment => ∃ targets, q.targets = p.targets ++ targets ∧
      targets.foldr .assign (q.comparison last) = e
  | .comparison => q.targets = p.targets ∧ q.comparison last = e
  | .sum => q.targets = p.targets ∧ q.compared = p.compared ∧ q.sum last = e
  | .product => q.targets = p.targets ∧ q.compared = p.compared ∧ q.summed = p.summed ∧
      q.product last = e
  | .factor => q = p ∧ last = e

namespace Pending

variable {p q : Pending} {last e : Expr} {n own : Precedence}

theorem Ready.tighter (h : p.Ready n) : p.Ready n.tighter := by
  cases n with
  | assignment => exact h
  | comparison => exact h.2
  | sum => exact h.2
  | product | factor => trivial

theorem Ready.of_le {least : Precedence} (h : p.Ready least) (hle : least.rank ≤ own.rank) :
    p.Ready own := by
  obtain rfl | ⟨hlt, hle⟩ := Precedence.eq_or_tighter hle
  · exact h
  · exact Ready.of_le h.tighter hle
termination_by own.rank - least.rank

theorem Reads.of_tighter (h : p.Reads q last e n.tighter) (hready : p.Ready n) :
    p.Reads q last e n := by
  cases n with
  | assignment => exact ⟨[], by rw [List.append_nil]; exact h.1, h.2⟩
  | comparison =>
    obtain ⟨htargets, hcompared, he⟩ := h
    refine ⟨htargets, ?_⟩
    rw [comparison, hcompared, hready.1, he]
  | sum =>
    obtain ⟨htargets, hcompared, hsummed, he⟩ := h
    refine ⟨htargets, hcompared, ?_⟩
    rw [sum, hsummed, hready.1, he]
  | product =>
    obtain ⟨rfl, he⟩ := h
    refine ⟨rfl, rfl, rfl, ?_⟩
    rw [product, show q.scaled = .none from hready, he]
  | factor => exact h

theorem Reads.loosen {least : Precedence} (h : p.Reads q last e own) (hready : p.Ready least)
    (hle : least.rank ≤ own.rank) : p.Reads q last e least := by
  obtain rfl | ⟨hlt, hle⟩ := Precedence.eq_or_tighter hle
  · exact h
  · exact (Reads.loosen h hready.tighter hle).of_tighter hready
termination_by own.rank - least.rank

/-- What has been read where nothing waited is the whole expression. -/
theorem Reads.expression_eq (h : none.Reads q last e .assignment) : q.expression last = e := by
  obtain ⟨targets, htargets, he⟩ := h
  rw [expression, htargets]
  exact he

end Pending

/-- Behind an expression of the precedence `m` on its left and one of `k` on its right, an operator
makes one of the precedence `n` out of both. -/
def Operator.Combines (op : Operator) (left right whole : Expr) (m k n : Precedence) : Prop :=
  ∀ ⦃p q : Pending⦄ ⦃last : Expr⦄, p.Ready n → p.Reads q last left m →
    (q.extend last op).Ready k ∧
      ∀ ⦃q' last'⦄, (q.extend last op).Reads q' last' right k → p.Reads q' last' whole n

namespace Operator

variable (left right : Expr)

theorem combines_assign :
    assign.Combines left right (.assign left right) .comparison .assignment .assignment := by
  rintro p q last - ⟨htargets, hleft⟩
  refine ⟨⟨rfl, rfl, rfl⟩, ?_⟩
  rintro q' last' ⟨targets, htargets', hright⟩
  refine ⟨left :: targets, ?_, ?_⟩
  · rw [htargets', Pending.extend, htargets, hleft, List.append_assoc]
    rfl
  · rw [List.foldr_cons, hright]

theorem combines_compare (op : CompareOp) :
    (compare op).Combines left right (.compare op left right) .comparison .sum .comparison := by
  rintro p q last - ⟨htargets, hleft⟩
  refine ⟨⟨rfl, rfl⟩, ?_⟩
  rintro q' last' ⟨htargets', hcompared, hright⟩
  refine ⟨htargets'.trans htargets, ?_⟩
  rw [Pending.comparison, hcompared, hright, Pending.extend, hleft]

theorem combines_sum (op : ArithOp) :
    (sum op).Combines left right (.arith op left right) .sum .product .sum := by
  rintro p q last - ⟨htargets, hcompared, hleft⟩
  refine ⟨rfl, ?_⟩
  rintro q' last' ⟨htargets', hcompared', hsummed, hright⟩
  refine ⟨htargets'.trans htargets, hcompared'.trans hcompared, ?_⟩
  rw [Pending.sum, hsummed, hright, Pending.extend, hleft]

theorem combines_product (op : ArithOp) :
    (product op).Combines left right (.arith op left right) .product .factor .product := by
  rintro p q last - ⟨htargets, hcompared, hsummed, hleft⟩
  refine ⟨trivial, ?_⟩
  rintro q' last' ⟨rfl, rfl⟩
  refine ⟨htargets, hcompared, hsummed, ?_⟩
  rw [Pending.extend, hleft]
  rfl

end Operator

/-- The state takes the first token of a factor as the nest does. -/
def State.Begins (s : State) (nest : Nest) : Prop :=
  ∀ ⦃t next⦄, nest.operand t = .ok next → s.feed t = .ok next

/-- The state takes what follows the factor `last` as the nest does. A parenthesis would turn a name
into a call. -/
def State.Completes (s : State) (nest : Nest) (last : Expr) : Prop :=
  ∀ ⦃t⦄, t ≠ .symbol .openParen → s.feed t = nest.complete last t

def ReadsAs (tokens : List Token) (e : Expr) (n : Precedence) : Prop :=
  ∀ ⦃s : State⦄ ⦃nest : Nest⦄, s.Begins nest → nest.pending.Ready n →
    ∃ next q last, s.feedAll tokens = .ok next ∧ next.Completes { nest with pending := q } last ∧
      nest.pending.Reads q last e n

theorem State.begins_operand (nest : Nest) : (State.operand nest).Begins nest :=
  fun _ _ h => h

def Nest.argument (nest : Nest) (function : String) (before : List Expr) : Nest :=
  { nest with brackets := .argument function before nest.pending :: nest.brackets, pending := .none }

theorem State.begins_firstArgument (nest : Nest) (function : String) :
    (State.firstArgument nest function).Begins (nest.argument function []) := by
  intro t next h
  have ht : t ≠ .symbol .closeParen := by
    rintro rfl
    cases h
  rw [feed, if_neg ht]
  exact h

namespace ReadsAs

variable {tokens leftTokens rightTokens : List Token} {e left right whole : Expr}
variable {m k n own : Precedence} {s next : State} {nest : Nest} {t : Token}

theorem loosen (h : ReadsAs tokens e own) (hle : n.rank ≤ own.rank) : ReadsAs tokens e n := by
  intro s nest hs hp
  obtain ⟨next, q, last, hnext, hcompletes, hreads⟩ := h hs (hp.of_le hle)
  exact ⟨next, q, last, hnext, hcompletes, hreads.loosen hp hle⟩

theorem feedAll_append (h : ReadsAs tokens e .assignment) (hs : s.Begins nest)
    (hp : nest.pending = .none) (ht : t ≠ .symbol .openParen)
    (hop : Operator.ofToken? t = none) (hnext : nest.finished e t = .ok next) (rest : List Token) :
    s.feedAll (tokens ++ t :: rest) = next.feedAll rest := by
  obtain ⟨s', q, last, hs', hcompletes, hreads⟩ := h hs (by rw [hp]; exact ⟨rfl, rfl, rfl⟩)
  rw [hp] at hreads
  have hlast : s'.feed t = .ok next := by
    rw [hcompletes ht, Nest.complete, hop, hreads.expression_eq]
    exact hnext
  rw [State.feedAll_append_of_ok hs', State.feedAll_cons_of_ok hlast]

theorem literal (value : Literal) : ReadsAs [value.token] (.literal value) .factor := by
  intro s nest hs _
  have hvalue : nest.operand value.token = .ok (.complete nest (.literal value)) := by
    cases value <;> rfl
  refine ⟨.complete nest (.literal value), nest.pending, .literal value, ?_, fun _ _ => rfl, rfl, rfl⟩
  rw [State.feedAll_cons_of_ok (hs hvalue), State.feedAll_nil]

theorem ident (name : String) : ReadsAs [.ident name] (.ident name) .factor := by
  intro s nest hs _
  refine ⟨.named nest name, nest.pending, .ident name, ?_, fun t ht => ?_, rfl, rfl⟩
  · rw [State.feedAll_cons_of_ok (hs rfl), State.feedAll_nil]
  · rw [State.feed, if_neg ht]

theorem parenthesized (h : ReadsAs tokens e .assignment) :
    ReadsAs (inParentheses tokens) e .factor := by
  intro s nest hs _
  refine ⟨.complete nest e, nest.pending, e, ?_, fun _ _ => rfl, rfl, rfl⟩
  rw [inParentheses, List.cons_append, State.feedAll_cons_of_ok (hs rfl),
    h.feedAll_append (State.begins_operand _) rfl (by decide) rfl rfl, State.feedAll_nil]

theorem enclose (h : ReadsAs tokens e own) (least : Precedence) :
    ReadsAs (own.enclose least tokens) e least := by
  rw [Precedence.enclose]
  split
  · exact (h.loosen (Nat.zero_le _)).parenthesized.loosen (Precedence.rank_le_factor least)
  · next hle => exact h.loosen (Nat.not_lt.1 hle)

theorem operator {op : Operator} (hleft : ReadsAs leftTokens left m)
    (hright : ReadsAs rightTokens right k) (hop : Operator.ofToken? t = some op)
    (hcombines : op.Combines left right whole m k n) (hle : n.rank ≤ m.rank) :
    ReadsAs (leftTokens ++ t :: rightTokens) whole n := by
  intro s nest hs hp
  obtain ⟨middle, q, last, hmiddle, hcompletes, hreads⟩ := hleft hs (hp.of_le hle)
  obtain ⟨hready, hwhole⟩ := hcombines hp hreads
  have ht : t ≠ .symbol .openParen := by
    rintro rfl
    cases hop
  have hfeed : middle.feed t = .ok (.operand { nest with pending := q.extend last op }) := by
    rw [hcompletes ht, Nest.complete, hop]
  obtain ⟨next, q', last', hnext, hcompletes', hreads'⟩ :=
    hright (State.begins_operand { nest with pending := q.extend last op }) hready
  refine ⟨next, q', last', ?_, hcompletes', hwhole hreads'⟩
  rw [State.feedAll_append_of_ok hmiddle, State.feedAll_cons_of_ok hfeed, hnext]

end ReadsAs

/-- Items with commas between them are read, if each of them leads from the place behind some items to
the place behind one more of them. -/
theorem feedAll_separated {α : Type} {write : α → List Token} {first : α} {rest before : List α}
    {s : State} (front : List α → State → Prop) (behind : List α → State)
    (hitem : ∀ x ∈ first :: rest, ∀ before s, front before s →
      (∃ next, front (before ++ [x]) next ∧
        ∀ tail, s.feedAll (write x ++ .symbol .comma :: tail) = next.feedAll tail) ∧
      ∀ tail, s.feedAll (write x ++ .symbol .closeParen :: tail) =
        (behind (before ++ [x])).feedAll tail)
    (hs : front before s) (tail : List Token) :
    s.feedAll ([.symbol .comma].intercalate ((first :: rest).map write) ++
        .symbol .closeParen :: tail) =
      (behind (before ++ first :: rest)).feedAll tail := by
  induction rest generalizing first before s with
  | nil =>
    rw [List.map_singleton, List.intercalate_singleton]
    exact (hitem first List.mem_cons_self before s hs).2 tail
  | cons second rest ih =>
    obtain ⟨⟨next, hnext, hcomma⟩, -⟩ := hitem first List.mem_cons_self before s hs
    have hothers := ih (fun x hx => hitem x (List.mem_cons_of_mem first hx)) hnext
    rw [List.map_cons] at hothers
    rw [List.map_cons, List.map_cons, List.intercalate_cons_cons, List.append_assoc,
      List.append_assoc, List.singleton_append, hcomma, hothers, List.append_assoc,
      List.singleton_append]

theorem Expr.listTokens_eq_map (args : List Expr) :
    Expr.listTokens args = args.map (Expr.tokens .assignment) := by
  induction args with
  | nil => rfl
  | cons e rest ih => rw [Expr.listTokens, List.map_cons, ih]

theorem ReadsAs.call (function : String) {args : List Expr}
    (h : ∀ e ∈ args, ReadsAs (e.tokens .assignment) e .assignment) :
    ReadsAs ((Expr.call function args).tokens .factor) (.call function args) .factor := by
  intro s nest hs _
  refine ⟨.complete nest (.call function args), nest.pending, .call function args, ?_,
    fun _ _ => rfl, rfl, rfl⟩
  have hopen : (State.named nest function).feed (.symbol .openParen) =
      .ok (.firstArgument nest function) := rfl
  rw [Expr.tokens, inParentheses, List.cons_append, State.feedAll_cons_of_ok (hs rfl),
    State.feedAll_cons_of_ok hopen, Expr.listTokens_eq_map]
  cases args with
  | nil => rfl
  | cons first rest =>
    refine feedAll_separated (fun before s => s.Begins (nest.argument function before))
      (fun args => .complete nest (.call function args)) ?_
      (State.begins_firstArgument nest function) []
    intro e he before s hs
    refine ⟨⟨.operand (nest.argument function (before ++ [e])), State.begins_operand _, ?_⟩, ?_⟩
    · exact (h e he).feedAll_append hs rfl (by decide) rfl rfl
    · exact (h e he).feedAll_append hs rfl (by decide) rfl rfl

mutual

theorem readsAs_tokens : (e : Expr) → (least : Precedence) → ReadsAs (e.tokens least) e least
  | .literal value, least => (ReadsAs.literal value).loosen (Precedence.rank_le_factor least)
  | .ident name, least => (ReadsAs.ident name).loosen (Precedence.rank_le_factor least)
  | .assign target value, least => by
    rw [Expr.tokens]
    exact ((readsAs_tokens target .comparison).operator (readsAs_tokens value .assignment) rfl
      (Operator.combines_assign target value) (by decide)).enclose least
  | .compare op left right, least => by
    rw [Expr.tokens]
    have hop : Operator.ofToken? op.token = some (.compare op) := by cases op <;> rfl
    exact ((readsAs_tokens left .comparison).operator (readsAs_tokens right .sum) hop
      (Operator.combines_compare left right op) (by decide)).enclose least
  | .arith op left right, least => by
    rw [Expr.tokens]
    have hleft := readsAs_tokens left op.precedence
    have hright := readsAs_tokens right op.precedence.tighter
    refine ReadsAs.enclose ?_ least
    cases op with
    | add => exact hleft.operator hright rfl (Operator.combines_sum left right .add) (by decide)
    | sub => exact hleft.operator hright rfl (Operator.combines_sum left right .sub) (by decide)
    | mul => exact hleft.operator hright rfl (Operator.combines_product left right .mul) (by decide)
    | div => exact hleft.operator hright rfl (Operator.combines_product left right .div) (by decide)
  | .call function args, least =>
    (ReadsAs.call function (readsAs_listTokens args)).loosen (Precedence.rank_le_factor least)

theorem readsAs_listTokens :
    (args : List Expr) → ∀ e ∈ args, ReadsAs (e.tokens .assignment) e .assignment
  | [] => nofun
  | e :: rest =>
    List.forall_mem_cons.2 ⟨readsAs_tokens e .assignment, readsAs_listTokens rest⟩

end

end Parser

end BlueCode
