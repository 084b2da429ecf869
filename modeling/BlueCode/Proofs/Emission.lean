import BlueCode.Program.Compile
import BlueCode.Proofs.Routines

namespace BlueCode

mutual

def Expr.callees : Expr → List String
  | .literal _ => []
  | .ident _ => []
  | .assign target value => target.callees ++ value.callees
  | .arith _ left right => left.callees ++ right.callees
  | .compare _ left right => left.callees ++ right.callees
  | .call function args => Expr.listCallees args ++ [function]

def Expr.listCallees : List Expr → List String
  | [] => []
  | e :: rest => e.callees ++ Expr.listCallees rest

end

mutual

def Stmt.callees : Stmt → List String
  | .declare _ value => value.callees
  | .ret none => []
  | .ret (some value) => value.callees
  | .branch condition onTrue none => condition.callees ++ Stmt.listCallees onTrue
  | .branch condition onTrue (some onFalse) =>
    condition.callees ++ Stmt.listCallees onTrue ++ Stmt.listCallees onFalse
  | .loop condition body => condition.callees ++ Stmt.listCallees body
  | .leave => []
  | .effect e => e.callees

def Stmt.listCallees : List Stmt → List String
  | [] => []
  | s :: rest => s.callees ++ Stmt.listCallees rest

end

namespace Compile

theorem bind_eq_ok {ε α β : Type} {x : Except ε α} {f : α → Except ε β} {b : β} :
    x >>= f = .ok b ↔ ∃ a, x = .ok a ∧ f a = .ok b := by
  cases x with
  | error e => exact ⟨fun h => (nomatch h), fun ⟨_, h, _⟩ => (nomatch h)⟩
  | ok a => exact ⟨fun h => ⟨a, rfl, h⟩, fun ⟨_, h, hf⟩ => Except.ok.inj h ▸ hf⟩

def labelName (stem : String) (number : Nat) : String :=
  stem ++ "_" ++ toString number

/-- The literals that fit into a line of machine code. -/
inductive Constant : Operand → Prop where
  | int (n : Int64) : Constant (.int n)
  | float (x : Float) : Constant (.float x)
  | str {s : String} : '"' ∉ s.toList → '\n' ∉ s.toList → Constant (.str s)

/-- The code of an expression that may call some names and has so many variables declared. -/
inductive ExprCode (callable : String → Prop) (declared : Nat) : List Instruction → Prop where
  | constant {o : Operand} : Constant o → ExprCode callable declared [.mov o acc]
  | load {k : Nat} : k < declared → ExprCode callable declared [.mov (.heap (.ofNat k)) acc]
  | store {code : List Instruction} {k : Nat} : ExprCode callable declared code → k < declared →
      ExprCode callable declared (code ++ [.mov acc (.heap (.ofNat k))])
  | operation {op : Opcode} {left right : List Instruction} :
      op.isArithmetic ∨ op.isComparison →
      ExprCode callable declared left → ExprCode callable declared right →
      ExprCode callable declared
        (left ++ .push acc :: right ++ [.pop (.reg .rb), ⟨op, some (.reg .rb), some acc⟩])
  | call {args : List (List Instruction)} {name : String} :
      (∀ code ∈ args, ExprCode callable declared code) → callable name →
      ExprCode callable declared (args.flatten ++ [.call name])

/-- The code of statements inside a loop with the given label behind it, if any. The two numbers
before the code and after it count the declared variables and the labels given out. -/
inductive StmtCode (callable : String → Prop) :
    Option String → Nat → Nat → List Instruction → Nat → Nat → Prop where
  | nil {exit : Option String} {d n : Nat} : StmtCode callable exit d n [] d n
  | append {exit : Option String} {d n d' n' d'' n'' : Nat} {first rest : List Instruction} :
      StmtCode callable exit d n first d' n' → StmtCode callable exit d' n' rest d'' n'' →
      StmtCode callable exit d n (first ++ rest) d'' n''
  | expr {exit : Option String} {d n : Nat} {code : List Instruction} :
      ExprCode callable d code → StmtCode callable exit d n code d n
  | declare {exit : Option String} {d n : Nat} :
      StmtCode callable exit d n [.mov acc (.heap (.ofNat d))] (d + 1) n
  | ret {exit : Option String} {d n : Nat} : StmtCode callable exit d n [.ret] d n
  | branch {exit : Option String} {d n d' n' : Nat} {test first : List Instruction} :
      ExprCode callable d test → StmtCode callable exit d (n + 1) first d' n' →
      StmtCode callable exit d n
        (test ++ .jumpIfNot acc (labelName "PT" n) :: first ++ [.label (labelName "PT" n)]) d' n'
  | branchElse {exit : Option String} {d n d' n' d'' n'' : Nat}
      {test first second : List Instruction} :
      ExprCode callable d test → StmtCode callable exit d (n + 1) first d' n' →
      StmtCode callable exit d' (n' + 1) second d'' n'' →
      StmtCode callable exit d n
        (test ++ .jumpIfNot acc (labelName "PT" n) :: first ++ .jump (labelName "PT" n') ::
          .label (labelName "PT" n) :: second ++ [.label (labelName "PT" n')]) d'' n''
  | loop {exit : Option String} {d n d' n' : Nat} {test body : List Instruction} :
      ExprCode callable d test →
      StmtCode callable (some (labelName "LOOP_END" (n + 1))) d (n + 2) body d' n' →
      StmtCode callable exit d n
        (.label (labelName "LOOP_START" n) :: test ++
          .jumpIfNot acc (labelName "LOOP_END" (n + 1)) :: body ++
          [.jump (labelName "LOOP_START" n), .label (labelName "LOOP_END" (n + 1))]) d' n'
  | leave {label : String} {d n : Nat} :
      StmtCode callable (some label) d n [.jump label] d n

variable {callable : String → Prop}

theorem cell_eq_ok {cx : Context} {name : String} {o : Operand} (h : cx.cell name = .ok o) :
    ∃ k, cx.declared.idxOf? name = some k ∧ o = .heap (.ofNat k) := by
  unfold Context.cell at h
  split at h
  · next k hk => exact ⟨k, hk, (Except.ok.inj h).symm⟩
  · cases h

theorem idxOf?_lt {names : List String} {name : String} {k : Nat}
    (h : names.idxOf? name = some k) : k < names.length :=
  (List.idxOf?_eq_some_iff.1 h).1

theorem idxOf?_concat {names : List String} {name : String} (h : name ∉ names) :
    (names ++ [name]).idxOf? name = some names.length := by
  rw [List.idxOf?_eq_some_iff]
  refine ⟨by simp, by simp, ?_⟩
  intro k hk
  rw [List.getElem_append_left hk]
  exact fun he => h (he ▸ List.getElem_mem hk)

theorem constant_of_literal {cx : Context} {value : Literal} {o : Operand}
    (h : cx.literal value = .ok o) : Constant o := by
  cases value with
  | int n => cases h; exact .int n
  | float x => cases h; exact .float x
  | str s =>
    rw [Context.literal] at h
    split at h
    · cases h
    · next hs =>
      cases h
      simp only [List.any_eq_true, Bool.or_eq_true, beq_iff_eq, not_exists, not_and] at hs
      exact .str (fun hq => hs _ hq (.inl (.inl rfl))) (fun hn => hs _ hn (.inl (.inr rfl)))

mutual

theorem expr_code (callable : String → Prop) {cx : Context} : ∀ (e : Expr) {code : List Instruction},
    (∀ name ∈ e.callees, callable name) → expr cx e = .ok code →
    ExprCode callable cx.declared.length code
  | .literal value, code, _, h => by
    rw [expr] at h
    obtain ⟨o, ho, hc⟩ := bind_eq_ok.1 h
    cases hc
    exact .constant (constant_of_literal ho)
  | .ident name, code, _, h => by
    rw [expr] at h
    obtain ⟨o, ho, hc⟩ := bind_eq_ok.1 h
    cases hc
    obtain ⟨k, hk, rfl⟩ := cell_eq_ok ho
    exact .load (idxOf?_lt hk)
  | .assign (.ident name) value, code, hn, h => by
    rw [expr] at h
    obtain ⟨o, ho, h⟩ := bind_eq_ok.1 h
    obtain ⟨stored, hv, hc⟩ := bind_eq_ok.1 h
    cases hc
    obtain ⟨k, hk, rfl⟩ := cell_eq_ok ho
    exact .store (expr_code callable value (fun n hm => hn n (List.mem_append_right _ hm)) hv) (idxOf?_lt hk)
  | .arith op left right, code, hn, h => by
    rw [expr] at h
    obtain ⟨l, hl, h⟩ := bind_eq_ok.1 h
    obtain ⟨r, hr, hc⟩ := bind_eq_ok.1 h
    cases hc
    exact .operation (.inl rfl)
      (expr_code callable left (fun n hm => hn n (List.mem_append_left _ hm)) hl)
      (expr_code callable right (fun n hm => hn n (List.mem_append_right _ hm)) hr)
  | .compare op left right, code, hn, h => by
    rw [expr] at h
    obtain ⟨l, hl, h⟩ := bind_eq_ok.1 h
    obtain ⟨r, hr, hc⟩ := bind_eq_ok.1 h
    cases hc
    exact .operation (.inr rfl)
      (expr_code callable left (fun n hm => hn n (List.mem_append_left _ hm)) hl)
      (expr_code callable right (fun n hm => hn n (List.mem_append_right _ hm)) hr)
  | .call function args, code, hn, h => by
    rw [expr] at h
    obtain ⟨_, _, h⟩ := bind_eq_ok.1 h
    obtain ⟨codes, ha, hc⟩ := bind_eq_ok.1 h
    cases hc
    obtain ⟨list, rfl, hlist⟩ := exprs_code callable args (fun n hm => hn n (List.mem_append_left _ hm)) ha
    exact .call hlist (hn function (by simp [Expr.callees]))

theorem exprs_code (callable : String → Prop) {cx : Context} : ∀ (es : List Expr) {code : List Instruction},
    (∀ name ∈ Expr.listCallees es, callable name) → exprs cx es = .ok code →
    ∃ codes : List (List Instruction), code = codes.flatten ∧
      ∀ c ∈ codes, ExprCode callable cx.declared.length c
  | [], code, _, h => by
    rw [exprs] at h
    cases h
    exact ⟨[], rfl, fun _ hc => nomatch hc⟩
  | e :: rest, code, hn, h => by
    rw [exprs] at h
    obtain ⟨first, hf, h⟩ := bind_eq_ok.1 h
    obtain ⟨others, ho, hc⟩ := bind_eq_ok.1 h
    cases hc
    have hfirst := expr_code callable e (fun n hm => hn n (List.mem_append_left _ hm)) hf
    obtain ⟨codes, rfl, hcodes⟩ := exprs_code callable rest (fun n hm => hn n (List.mem_append_right _ hm)) ho
    exact ⟨first :: codes, rfl, List.forall_mem_cons.2 ⟨hfirst, hcodes⟩⟩

end

section

variable {sigs : Signatures} {function : String} {exit : Option String} {p p' : Progress}
  {code : List Instruction}

theorem stmt_declare_eq_ok {name : String} {value : Expr}
    (h : stmt sigs function exit p (.declare name value) = .ok (code, p')) :
    ∃ stored k, expr ⟨sigs, function, p.declared⟩ value = .ok stored ∧
      (p.declare name).declared.idxOf? name = some k ∧ p' = p.declare name ∧
      code = stored ++ [.mov acc (.heap (.ofNat k))] := by
  rw [stmt] at h
  obtain ⟨stored, hv, h⟩ := bind_eq_ok.1 h
  obtain ⟨o, ho, hc⟩ := bind_eq_ok.1 h
  cases hc
  obtain ⟨k, hk, rfl⟩ := cell_eq_ok ho
  exact ⟨stored, k, hv, hk, rfl, rfl⟩

theorem stmt_ret_eq_ok {value : Expr}
    (h : stmt sigs function exit p (.ret (some value)) = .ok (code, p')) :
    ∃ stored, expr ⟨sigs, function, p.declared⟩ value = .ok stored ∧ p' = p ∧
      code = stored ++ [.ret] := by
  rw [stmt] at h
  obtain ⟨stored, hv, hc⟩ := bind_eq_ok.1 h
  cases hc
  exact ⟨stored, hv, rfl, rfl⟩

theorem stmt_branch_eq_ok {condition : Expr} {onTrue : List Stmt}
    (h : stmt sigs function exit p (.branch condition onTrue none) = .ok (code, p')) :
    ∃ test first, expr ⟨sigs, function, p.declared⟩ condition = .ok test ∧
      stmts sigs function exit (p.label "PT").2 onTrue = .ok (first, p') ∧
      code = test ++ .jumpIfNot acc (p.label "PT").1 :: first ++ [.label (p.label "PT").1] := by
  rw [stmt] at h
  obtain ⟨test, ht, h⟩ := bind_eq_ok.1 h
  obtain ⟨⟨first, p₁⟩, hf, hc⟩ := bind_eq_ok.1 h
  cases hc
  exact ⟨test, first, ht, hf, rfl⟩

theorem stmt_branchElse_eq_ok {condition : Expr} {onTrue onFalse : List Stmt}
    (h : stmt sigs function exit p (.branch condition onTrue (some onFalse)) = .ok (code, p')) :
    ∃ test first p₁ second, expr ⟨sigs, function, p.declared⟩ condition = .ok test ∧
      stmts sigs function exit (p.label "PT").2 onTrue = .ok (first, p₁) ∧
      stmts sigs function exit (p₁.label "PT").2 onFalse = .ok (second, p') ∧
      code = test ++ .jumpIfNot acc (p.label "PT").1 :: first ++ .jump (p₁.label "PT").1 ::
        .label (p.label "PT").1 :: second ++ [.label (p₁.label "PT").1] := by
  rw [stmt] at h
  obtain ⟨test, ht, h⟩ := bind_eq_ok.1 h
  obtain ⟨⟨first, p₁⟩, hf, h⟩ := bind_eq_ok.1 h
  obtain ⟨⟨second, p₂⟩, hs, hc⟩ := bind_eq_ok.1 h
  cases hc
  exact ⟨test, first, p₁, second, ht, hf, hs, rfl⟩

theorem stmt_loop_eq_ok {condition : Expr} {body : List Stmt}
    (h : stmt sigs function exit p (.loop condition body) = .ok (code, p')) :
    ∃ test inner, expr ⟨sigs, function, p.declared⟩ condition = .ok test ∧
      stmts sigs function (some ((p.label "LOOP_START").2.label "LOOP_END").1)
        ((p.label "LOOP_START").2.label "LOOP_END").2 body = .ok (inner, p') ∧
      code = .label (p.label "LOOP_START").1 :: test ++
        .jumpIfNot acc ((p.label "LOOP_START").2.label "LOOP_END").1 :: inner ++
        [.jump (p.label "LOOP_START").1,
          .label ((p.label "LOOP_START").2.label "LOOP_END").1] := by
  rw [stmt] at h
  obtain ⟨test, ht, h⟩ := bind_eq_ok.1 h
  obtain ⟨⟨inner, p₁⟩, hb, hc⟩ := bind_eq_ok.1 h
  cases hc
  exact ⟨test, inner, ht, hb, rfl⟩

theorem stmt_leave_eq_ok (h : stmt sigs function exit p .leave = .ok (code, p')) :
    ∃ label, exit = some label ∧ p' = p ∧ code = [.jump label] := by
  cases exit with
  | none => cases h
  | some label =>
    cases h
    exact ⟨label, rfl, rfl, rfl⟩

theorem stmt_effect_eq_ok {e : Expr} (h : stmt sigs function exit p (.effect e) = .ok (code, p')) :
    expr ⟨sigs, function, p.declared⟩ e = .ok code ∧ p' = p := by
  rw [stmt] at h
  obtain ⟨stored, he, hc⟩ := bind_eq_ok.1 h
  cases hc
  exact ⟨he, rfl⟩

theorem stmts_cons_eq_ok {s : Stmt} {rest : List Stmt}
    (h : stmts sigs function exit p (s :: rest) = .ok (code, p')) :
    ∃ first p₁ others, stmt sigs function exit p s = .ok (first, p₁) ∧
      stmts sigs function exit p₁ rest = .ok (others, p') ∧ code = first ++ others := by
  rw [stmts] at h
  obtain ⟨⟨first, p₁⟩, hf, h⟩ := bind_eq_ok.1 h
  obtain ⟨⟨others, p₂⟩, ho, hc⟩ := bind_eq_ok.1 h
  cases hc
  exact ⟨first, p₁, others, hf, ho, rfl⟩

end

mutual

theorem stmt_code (callable : String → Prop) {sigs : Signatures} {function : String} : ∀ (s : Stmt) {exit : Option String}
    {p p' : Progress} {code : List Instruction}, (∀ name ∈ s.callees, callable name) →
    stmt sigs function exit p s = .ok (code, p') →
    StmtCode callable exit p.declared.length p.labels code p'.declared.length p'.labels
  | .declare name value, exit, p, p', code, hn, h => by
    obtain ⟨stored, k, hv, hk, rfl, rfl⟩ := stmt_declare_eq_ok h
    have hvalue := expr_code callable value hn hv
    unfold Progress.declare at hk ⊢
    split
    · next hd =>
      rw [if_pos hd] at hk
      exact .expr (.store hvalue (idxOf?_lt hk))
    · next hd =>
      rw [if_neg hd] at hk
      cases (idxOf?_concat hd).symm.trans hk
      rw [List.length_append]
      exact .append (.expr hvalue) .declare
  | .ret none, exit, p, p', code, _, h => by
    cases h
    exact .ret
  | .ret (some value), exit, p, p', code, hn, h => by
    obtain ⟨stored, hv, rfl, rfl⟩ := stmt_ret_eq_ok h
    exact .append (.expr (expr_code callable value hn hv)) .ret
  | .branch condition onTrue none, exit, p, p', code, hn, h => by
    obtain ⟨test, first, ht, hf, rfl⟩ := stmt_branch_eq_ok h
    exact .branch (expr_code callable condition (fun n hm => hn n (List.mem_append_left _ hm)) ht)
      (stmts_code callable onTrue (fun n hm => hn n (List.mem_append_right _ hm)) hf)
  | .branch condition onTrue (some onFalse), exit, p, p', code, hn, h => by
    obtain ⟨test, first, p₁, second, ht, hf, hs, rfl⟩ := stmt_branchElse_eq_ok h
    have hn' : ∀ name ∈ condition.callees ++ Stmt.listCallees onTrue, callable name :=
      fun n hm => hn n (List.mem_append_left _ hm)
    exact .branchElse (expr_code callable condition (fun n hm => hn' n (List.mem_append_left _ hm)) ht)
      (stmts_code callable onTrue (fun n hm => hn' n (List.mem_append_right _ hm)) hf)
      (stmts_code callable onFalse (fun n hm => hn n (List.mem_append_right _ hm)) hs)
  | .loop condition body, exit, p, p', code, hn, h => by
    obtain ⟨test, inner, ht, hb, rfl⟩ := stmt_loop_eq_ok h
    exact .loop (expr_code callable condition (fun n hm => hn n (List.mem_append_left _ hm)) ht)
      (stmts_code callable body (fun n hm => hn n (List.mem_append_right _ hm)) hb)
  | .leave, exit, p, p', code, _, h => by
    obtain ⟨label, rfl, rfl, rfl⟩ := stmt_leave_eq_ok h
    exact .leave
  | .effect e, exit, p, p', code, hn, h => by
    obtain ⟨he, rfl⟩ := stmt_effect_eq_ok h
    exact .expr (expr_code callable e hn he)

theorem stmts_code (callable : String → Prop) {sigs : Signatures} {function : String} : ∀ (ss : List Stmt)
    {exit : Option String} {p p' : Progress} {code : List Instruction},
    (∀ name ∈ Stmt.listCallees ss, callable name) →
    stmts sigs function exit p ss = .ok (code, p') →
    StmtCode callable exit p.declared.length p.labels code p'.declared.length p'.labels
  | [], exit, p, p', code, _, h => by
    cases h
    exact .nil
  | s :: rest, exit, p, p', code, hn, h => by
    obtain ⟨first, p₁, others, hf, ho, rfl⟩ := stmts_cons_eq_ok h
    exact .append (stmt_code callable s (fun n hm => hn n (List.mem_append_left _ hm)) hf)
      (stmts_code callable rest (fun n hm => hn n (List.mem_append_right _ hm)) ho)

end

theorem function_eq_ok {sigs : Signatures} {f : Function} {code : List Instruction}
    (hp : f.params.length ≤ 1) (h : function sigs f = .ok code) :
    ∃ body p, stmts sigs f.name none ⟨f.params, 0⟩ f.body = .ok (body, p) ∧
      code = .define f.name :: (f.params.map (fun _ => .mov acc (.heap (.ofNat 0))) ++ body) := by
  rw [function, List.take_of_length_le hp] at h
  obtain ⟨⟨body, p⟩, hb, hc⟩ := bind_eq_ok.1 h
  cases hc
  exact ⟨body, p, hb, rfl⟩

theorem function_code (callable : String → Prop) {sigs : Signatures} {f : Function}
    {body : List Instruction} {p : Progress} (hn : ∀ name ∈ Stmt.listCallees f.body, callable name)
    (hp : f.params.length ≤ 1)
    (h : stmts sigs f.name none ⟨f.params, 0⟩ f.body = .ok (body, p)) :
    StmtCode callable none 0 0 (f.params.map (fun _ => .mov acc (.heap (.ofNat 0))) ++ body)
      p.declared.length p.labels := by
  have hbody := stmts_code callable f.body hn h
  generalize f.params = params at hp hbody
  match params, hp with
  | [], _ => exact hbody
  | [_], _ => exact .append .declare hbody

theorem signatures_eq_ok {fs : List Function} {before sigs : Signatures}
    (h : signatures before fs = .ok sigs) (hb : (before.map Prod.fst).Nodup) :
    sigs = before ++ fs.map (fun f => (f.name, f.params.length)) ∧ (sigs.map Prod.fst).Nodup ∧
      ∀ f ∈ fs, f.params.length ≤ 1 := by
  induction fs generalizing before with
  | nil =>
    cases h
    exact ⟨by simp, hb, by simp⟩
  | cons f rest ih =>
    rw [signatures] at h
    split at h
    · cases h
    · next hp =>
      split at h
      · cases h
      · next hnew =>
        have hnot : f.name ∉ before.map Prod.fst := by
          intro hm
          obtain ⟨⟨name, count⟩, hmem, rfl⟩ := List.mem_map.1 hm
          exact hnew (List.lookup_isSome_iff.2 ⟨_, hmem, beq_self_eq_true _⟩)
        have hb' : ((before ++ [(f.name, f.params.length)]).map Prod.fst).Nodup := by
          rw [List.map_append, List.map_singleton, ← List.concat_eq_append]
          exact hb.concat hnot
        obtain ⟨rfl, hd, hle⟩ := ih h hb'
        refine ⟨by simp, hd, ?_⟩
        exact List.forall_mem_cons.2 ⟨Nat.not_lt.1 hp, hle⟩

theorem mapM_eq_ok {ε α β : Type} {f : α → Except ε β} {as : List α} {bs : List β}
    (h : as.mapM f = .ok bs) : List.Forall₂ (fun a b => f a = .ok b) as bs := by
  induction as generalizing bs with
  | nil =>
    cases h
    exact .nil
  | cons a as ih =>
    rw [List.mapM_cons] at h
    obtain ⟨b, hb, h⟩ := bind_eq_ok.1 h
    obtain ⟨bs', hbs, hc⟩ := bind_eq_ok.1 h
    cases hc
    exact .cons hb (ih hbs)

def Blocks (sigs : Signatures) : List Function → List Block → Prop :=
  List.Forall₂ fun f b => b.name = f.name ∧ function sigs f = .ok b.code

theorem Blocks.names {sigs : Signatures} {fs : List Function} {blocks : List Block}
    (h : Blocks sigs fs blocks) : blocks.map Block.name = fs.map Function.name := by
  induction h with
  | nil => rfl
  | cons hb _ ih => rw [List.map_cons, List.map_cons, hb.1, ih]

theorem Blocks.of_codes {sigs : Signatures} {fs : List Function}
    {codes : List (List Instruction)}
    (h : List.Forall₂ (fun f code => function sigs f = .ok code) fs codes) :
    ∃ blocks, Blocks sigs fs blocks ∧ codes = blocks.map Block.code := by
  induction h with
  | nil => exact ⟨[], .nil, rfl⟩
  | @cons f code fs codes hf _ ih =>
    obtain ⟨blocks, hb, rfl⟩ := ih
    have hf' := hf
    rw [function] at hf'
    obtain ⟨⟨body, p⟩, _, hc⟩ := bind_eq_ok.1 hf'
    cases hc
    exact ⟨⟨f.name, _⟩ :: blocks, .cons ⟨rfl, hf⟩ hb, rfl⟩

/-- A compiled program is a block for each function; their names differ, and each function has at
most one parameter. -/
theorem compile_eq_ok {p : Program} {code : List Instruction} (h : p.compile = .ok code) :
    ∃ sigs blocks, signatures [] p.functions = .ok sigs ∧ Blocks sigs p.functions blocks ∧
      code = blocks.flatMap Block.code ∧ (blocks.map Block.name).Nodup ∧
      ∀ f ∈ p.functions, f.params.length ≤ 1 := by
  rw [Program.compile] at h
  obtain ⟨sigs, hs, h⟩ := bind_eq_ok.1 h
  obtain ⟨codes, hm, hc⟩ := bind_eq_ok.1 h
  cases hc
  obtain ⟨rfl, hd, hp⟩ := signatures_eq_ok hs List.nodup_nil
  obtain ⟨blocks, hb, rfl⟩ := Blocks.of_codes (mapM_eq_ok hm)
  refine ⟨_, blocks, hs, hb, rfl, ?_, hp⟩
  rw [hb.names]
  simpa [Function.comp_def] using hd

end Compile

end BlueCode
