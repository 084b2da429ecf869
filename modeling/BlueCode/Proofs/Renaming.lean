import BlueCode.Proofs.LocalVariables

namespace BlueCode

open Compile

mutual

/-- Renames variables; functions keep their names. -/
def Expr.rename (ρ : String → String) : Expr → Expr
  | .literal value => .literal value
  | .ident name => .ident (ρ name)
  | .assign target value => .assign (target.rename ρ) (value.rename ρ)
  | .arith op left right => .arith op (left.rename ρ) (right.rename ρ)
  | .compare op left right => .compare op (left.rename ρ) (right.rename ρ)
  | .call function args => .call function (Expr.listRename ρ args)

def Expr.listRename (ρ : String → String) : List Expr → List Expr
  | [] => []
  | e :: rest => e.rename ρ :: Expr.listRename ρ rest

end

mutual

def Stmt.rename (ρ : String → String) : Stmt → Stmt
  | .declare name value => .declare (ρ name) (value.rename ρ)
  | .ret none => .ret none
  | .ret (some value) => .ret (some (value.rename ρ))
  | .branch condition onTrue none => .branch (condition.rename ρ) (Stmt.listRename ρ onTrue) none
  | .branch condition onTrue (some onFalse) =>
    .branch (condition.rename ρ) (Stmt.listRename ρ onTrue) (some (Stmt.listRename ρ onFalse))
  | .loop condition body => .loop (condition.rename ρ) (Stmt.listRename ρ body)
  | .leave => .leave
  | .effect e => .effect (e.rename ρ)

def Stmt.listRename (ρ : String → String) : List Stmt → List Stmt
  | [] => []
  | s :: rest => s.rename ρ :: Stmt.listRename ρ rest

end

def Function.rename (ρ : String → String) (f : Function) : Function :=
  ⟨f.name, f.params.map ρ, Stmt.listRename ρ f.body⟩

mutual

@[simp] theorem Expr.rename_id : ∀ e : Expr, e.rename id = e
  | .literal _ => rfl
  | .ident _ => rfl
  | .assign target value => by rw [Expr.rename, target.rename_id, value.rename_id]
  | .arith _ left right => by rw [Expr.rename, left.rename_id, right.rename_id]
  | .compare _ left right => by rw [Expr.rename, left.rename_id, right.rename_id]
  | .call _ args => by rw [Expr.rename, Expr.listRename_id args]

@[simp] theorem Expr.listRename_id : ∀ es : List Expr, Expr.listRename id es = es
  | [] => rfl
  | e :: rest => by rw [Expr.listRename, e.rename_id, Expr.listRename_id rest]

end

mutual

@[simp] theorem Stmt.rename_id : ∀ s : Stmt, s.rename id = s
  | .declare _ value => by rw [Stmt.rename, value.rename_id, id]
  | .ret none => rfl
  | .ret (some value) => by rw [Stmt.rename, value.rename_id]
  | .branch condition onTrue none => by
    rw [Stmt.rename, condition.rename_id, Stmt.listRename_id onTrue]
  | .branch condition onTrue (some onFalse) => by
    rw [Stmt.rename, condition.rename_id, Stmt.listRename_id onTrue, Stmt.listRename_id onFalse]
  | .loop condition body => by rw [Stmt.rename, condition.rename_id, Stmt.listRename_id body]
  | .leave => rfl
  | .effect e => by rw [Stmt.rename, e.rename_id]

@[simp] theorem Stmt.listRename_id : ∀ ss : List Stmt, Stmt.listRename id ss = ss
  | [] => rfl
  | s :: rest => by rw [Stmt.listRename, s.rename_id, Stmt.listRename_id rest]

end

@[simp] theorem Function.rename_id (f : Function) : f.rename id = f := by
  rw [Function.rename, List.map_id, Stmt.listRename_id]

/-- The second function is the first one with other names for its variables, no two of which get the
same one. -/
def Function.Renamed (f g : Function) : Prop :=
  ∃ ρ : String → String, Set.InjOn ρ {name | name ∈ f.accesses} ∧ g = f.rename ρ

def Program.Renamed (p q : Program) : Prop :=
  List.Forall₂ Function.Renamed p.functions q.functions

namespace CompileError

def unnamed : CompileError → CompileError
  | undefinedVariable _ function => undefinedVariable "" function
  | e => e

@[simp] theorem unnamed_code (e : CompileError) : e.unnamed.code = e.code := by
  cases e <;> rfl

@[simp] theorem unnamed_function? (e : CompileError) : e.unnamed.function? = e.function? := by
  cases e <;> rfl

end CompileError

namespace Compile

/-- Both fail with the same error, up to the name of a variable, or both have related results. -/
inductive Alike {α : Type} (R : α → α → Prop) :
    Except CompileError α → Except CompileError α → Prop where
  | ok {a b : α} : R a b → Alike R (.ok a) (.ok b)
  | error {e e' : CompileError} : e.unnamed = e'.unnamed → Alike R (.error e) (.error e')

theorem Alike.refl {α : Type} (x : Except CompileError α) : Alike (· = ·) x x := by
  cases x with
  | error e => exact .error rfl
  | ok a => exact .ok rfl

theorem Alike.bind {α β : Type} {R : α → α → Prop} {S : β → β → Prop}
    {x y : Except CompileError α} {f g : α → Except CompileError β} (h : Alike R x y)
    (hf : ∀ a b, R a b → Alike S (f a) (g b)) : Alike S (x >>= f) (y >>= g) := by
  cases h with
  | ok hr => exact hf _ _ hr
  | error he => exact .error he

/-- A renaming that gives different variables different names, between programs in which the same
functions are found. -/
structure Renaming (names : Set String) (ρ : String → String) (sigs sigs' : Signatures) : Prop where
  injective : Set.InjOn ρ names
  signatures : ∀ name, sigs'.lookup name = sigs.lookup name

variable {names : Set String} {ρ : String → String} {sigs sigs' : Signatures} {function : String}
  {before : List String}

namespace Renaming

theorem idxOf?_map (h : Renaming names ρ sigs sigs') {name : String}
    (hb : ∀ other ∈ before, other ∈ names) (hn : name ∈ names) :
    (before.map ρ).idxOf? (ρ name) = before.idxOf? name := by
  induction before with
  | nil => rfl
  | cons first rest ih =>
    have hfirst : (ρ first == ρ name) = (first == name) := by
      rw [Bool.eq_iff_iff, beq_iff_eq, beq_iff_eq]
      exact h.injective.eq_iff (hb first List.mem_cons_self) hn
    rw [List.map_cons, List.idxOf?_cons, List.idxOf?_cons, hfirst,
      ih fun other ho => hb other (List.mem_cons_of_mem _ ho)]

theorem cell (h : Renaming names ρ sigs sigs') (hb : ∀ other ∈ before, other ∈ names)
    {name : String} (hn : name ∈ names) :
    Alike (· = ·) (Context.cell ⟨sigs, function, before⟩ name)
      (Context.cell ⟨sigs', function, before.map ρ⟩ (ρ name)) := by
  rw [Context.cell, Context.cell, h.idxOf?_map hb hn]
  cases before.idxOf? name with
  | some k => exact .ok rfl
  | none => exact .error rfl

theorem checkArity (h : Renaming names ρ sigs sigs') (name : String) (found : Nat) :
    Context.checkArity ⟨sigs', function, before.map ρ⟩ name found =
      Context.checkArity ⟨sigs, function, before⟩ name found := by
  rw [Context.checkArity, Context.checkArity, h.signatures]

end Renaming

theorem literal_map (value : Literal) :
    Context.literal ⟨sigs', function, before.map ρ⟩ value =
      Context.literal ⟨sigs, function, before⟩ value := by
  cases value <;> rfl

theorem length_listRename (ρ : String → String) (args : List Expr) :
    (Expr.listRename ρ args).length = args.length := by
  induction args with
  | nil => rfl
  | cons e rest ih => rw [Expr.listRename, List.length_cons, List.length_cons, ih]

mutual

theorem expr_alike (h : Renaming names ρ sigs sigs') (hb : ∀ name ∈ before, name ∈ names) :
    ∀ e : Expr, (∀ name ∈ e.accesses, name ∈ names) →
      Alike (· = ·) (expr ⟨sigs, function, before⟩ e)
        (expr ⟨sigs', function, before.map ρ⟩ (e.rename ρ))
  | .literal value, _ => by
    rw [Expr.rename, expr, expr, literal_map]
    exact .refl _
  | .ident name, hn => by
    rw [Expr.rename, expr, expr]
    apply (h.cell hb (hn name (List.mem_singleton_self name))).bind
    rintro o _ rfl
    exact .refl _
  | .assign (.ident name) value, hn => by
    rw [Expr.rename, Expr.rename, expr, expr]
    apply (h.cell hb (hn name (by simp [Expr.accesses]))).bind
    rintro o _ rfl
    apply (expr_alike h hb value fun n hm => hn n (List.mem_append_left _ hm)).bind
    rintro code _ rfl
    exact .refl _
  | .assign (.literal _) value, _ => .error rfl
  | .assign (.assign ..) value, _ => .error rfl
  | .assign (.arith ..) value, _ => .error rfl
  | .assign (.compare ..) value, _ => .error rfl
  | .assign (.call ..) value, _ => .error rfl
  | .arith op left right, hn => by
    rw [Expr.rename, expr, expr]
    apply (expr_alike h hb left fun n hm => hn n (List.mem_append_left _ hm)).bind
    rintro first _ rfl
    apply (expr_alike h hb right fun n hm => hn n (List.mem_append_right _ hm)).bind
    rintro second _ rfl
    exact .refl _
  | .compare op left right, hn => by
    rw [Expr.rename, expr, expr]
    apply (expr_alike h hb left fun n hm => hn n (List.mem_append_left _ hm)).bind
    rintro first _ rfl
    apply (expr_alike h hb right fun n hm => hn n (List.mem_append_right _ hm)).bind
    rintro second _ rfl
    exact .refl _
  | .call callee args, hn => by
    rw [Expr.rename, expr, expr, h.checkArity, length_listRename]
    apply (Alike.refl (Context.checkArity ⟨sigs, function, before⟩ callee args.length)).bind
    intro _ _ _
    apply (exprs_alike h hb args hn).bind
    rintro code _ rfl
    exact .refl _

theorem exprs_alike (h : Renaming names ρ sigs sigs') (hb : ∀ name ∈ before, name ∈ names) :
    ∀ es : List Expr, (∀ name ∈ Expr.listAccesses es, name ∈ names) →
      Alike (· = ·) (exprs ⟨sigs, function, before⟩ es)
        (exprs ⟨sigs', function, before.map ρ⟩ (Expr.listRename ρ es))
  | [], _ => .ok rfl
  | e :: rest, hn => by
    rw [Expr.listRename, exprs, exprs]
    apply (expr_alike h hb e fun n hm => hn n (List.mem_append_left _ hm)).bind
    rintro first _ rfl
    apply (exprs_alike h hb rest fun n hm => hn n (List.mem_append_right _ hm)).bind
    rintro others _ rfl
    exact .refl _

end

def Progress.rename (ρ : String → String) (p : Progress) : Progress :=
  ⟨p.declared.map ρ, p.labels⟩

/-- Statements have been compiled to the same code, and what is known after them is the same. -/
def Continues (names : Set String) (ρ : String → String) (r r' : List Instruction × Progress) :
    Prop :=
  r' = (r.1, r.2.rename ρ) ∧ ∀ name ∈ r.2.declared, name ∈ names

theorem Renaming.declare (h : Renaming names ρ sigs sigs') {p : Progress} {name : String}
    (hb : ∀ other ∈ p.declared, other ∈ names) (hn : name ∈ names) :
    (p.rename ρ).declare (ρ name) = (p.declare name).rename ρ ∧
      ∀ other ∈ (p.declare name).declared, other ∈ names := by
  have hmem : ρ name ∈ p.declared.map ρ ↔ name ∈ p.declared := by
    constructor
    · intro hm
      obtain ⟨other, ho, he⟩ := List.mem_map.1 hm
      exact h.injective (hb other ho) hn he ▸ ho
    · exact List.mem_map_of_mem
  rw [Progress.declare, Progress.declare, Progress.rename]
  by_cases hd : name ∈ p.declared
  · rw [if_pos hd, if_pos (hmem.2 hd)]
    exact ⟨rfl, hb⟩
  · rw [if_neg hd, if_neg (mt hmem.1 hd)]
    constructor
    · simp [Progress.rename]
    · exact List.forall_mem_append.2 ⟨hb, List.forall_mem_singleton.2 hn⟩

mutual

theorem stmt_alike (h : Renaming names ρ sigs sigs') : ∀ (s : Stmt) {exit : Option String}
    {p : Progress}, (∀ name ∈ s.accesses, name ∈ names) → (∀ name ∈ p.declared, name ∈ names) →
    Alike (Continues names ρ) (stmt sigs function exit p s)
      (stmt sigs' function exit (p.rename ρ) (s.rename ρ))
  | .declare name value, exit, p, hn, hb => by
    rw [Stmt.rename, stmt, stmt]
    apply (expr_alike h hb value fun n hm => hn n (List.mem_append_left _ hm)).bind
    rintro code _ rfl
    have hname : name ∈ names := hn name (by simp [Stmt.accesses])
    obtain ⟨hdeclare, hb'⟩ := h.declare hb hname
    rw [hdeclare]
    apply (h.cell hb' hname).bind
    rintro o _ rfl
    exact .ok ⟨rfl, hb'⟩
  | .ret none, exit, p, _, hb => .ok ⟨rfl, hb⟩
  | .ret (some value), exit, p, hn, hb => by
    rw [Stmt.rename, stmt, stmt]
    apply (expr_alike h hb value hn).bind
    rintro code _ rfl
    exact .ok ⟨rfl, hb⟩
  | .branch condition onTrue none, exit, p, hn, hb => by
    rw [Stmt.rename, stmt, stmt]
    apply (expr_alike h hb condition fun n hm => hn n (List.mem_append_left _ hm)).bind
    rintro test _ rfl
    apply (stmts_alike h onTrue (p := (p.label "PT").2)
      (fun n hm => hn n (List.mem_append_right _ hm)) hb).bind
    rintro ⟨first, p₁⟩ _ ⟨rfl, hb₁⟩
    exact .ok ⟨rfl, hb₁⟩
  | .branch condition onTrue (some onFalse), exit, p, hn, hb => by
    have hn' : ∀ name ∈ condition.accesses ++ Stmt.listAccesses onTrue, name ∈ names :=
      fun n hm => hn n (List.mem_append_left _ hm)
    rw [Stmt.rename, stmt, stmt]
    apply (expr_alike h hb condition fun n hm => hn' n (List.mem_append_left _ hm)).bind
    rintro test _ rfl
    apply (stmts_alike h onTrue (p := (p.label "PT").2)
      (fun n hm => hn' n (List.mem_append_right _ hm)) hb).bind
    rintro ⟨first, p₁⟩ _ ⟨rfl, hb₁⟩
    apply (stmts_alike h onFalse (p := (p₁.label "PT").2)
      (fun n hm => hn n (List.mem_append_right _ hm)) hb₁).bind
    rintro ⟨second, p₂⟩ _ ⟨rfl, hb₂⟩
    exact .ok ⟨rfl, hb₂⟩
  | .loop condition body, exit, p, hn, hb => by
    rw [Stmt.rename, stmt, stmt]
    apply (expr_alike h hb condition fun n hm => hn n (List.mem_append_left _ hm)).bind
    rintro test _ rfl
    apply (stmts_alike h body (p := ((p.label "LOOP_START").2.label "LOOP_END").2)
      (fun n hm => hn n (List.mem_append_right _ hm)) hb).bind
    rintro ⟨code, p₁⟩ _ ⟨rfl, hb₁⟩
    exact .ok ⟨rfl, hb₁⟩
  | .leave, exit, p, _, hb => by
    cases exit with
    | none => exact .error rfl
    | some done => exact .ok ⟨rfl, hb⟩
  | .effect e, exit, p, hn, hb => by
    rw [Stmt.rename, stmt, stmt]
    apply (expr_alike h hb e hn).bind
    rintro code _ rfl
    exact .ok ⟨rfl, hb⟩

theorem stmts_alike (h : Renaming names ρ sigs sigs') : ∀ (ss : List Stmt) {exit : Option String}
    {p : Progress}, (∀ name ∈ Stmt.listAccesses ss, name ∈ names) →
    (∀ name ∈ p.declared, name ∈ names) →
    Alike (Continues names ρ) (stmts sigs function exit p ss)
      (stmts sigs' function exit (p.rename ρ) (Stmt.listRename ρ ss))
  | [], exit, p, _, hb => .ok ⟨rfl, hb⟩
  | s :: rest, exit, p, hn, hb => by
    rw [Stmt.listRename, stmts, stmts]
    apply (stmt_alike h s (fun n hm => hn n (List.mem_append_left _ hm)) hb).bind
    rintro ⟨first, p₁⟩ _ ⟨rfl, hb₁⟩
    apply (stmts_alike h rest (fun n hm => hn n (List.mem_append_right _ hm)) hb₁).bind
    rintro ⟨others, p₂⟩ _ ⟨rfl, hb₂⟩
    exact .ok ⟨rfl, hb₂⟩

end

theorem function_alike (h : Renaming names ρ sigs sigs') (f : Function)
    (hn : ∀ name ∈ f.accesses, name ∈ names) :
    Alike (· = ·) (Compile.function sigs f) (Compile.function sigs' (f.rename ρ)) := by
  have hparams : ∀ name ∈ f.params.take 1, name ∈ names :=
    fun name hm => hn name (List.mem_append_left _ (List.mem_of_mem_take hm))
  have hbody : ∀ name ∈ Stmt.listAccesses f.body, name ∈ names :=
    fun name hm => hn name (List.mem_append_right _ hm)
  rw [Compile.function, Compile.function, Function.rename, ← List.map_take]
  apply (stmts_alike h f.body (p := ⟨f.params.take 1, 0⟩) hbody hparams).bind
  rintro ⟨body, p⟩ _ ⟨rfl, -⟩
  rw [List.map_map]
  exact .ok rfl

/-- Of the other functions, a function's code depends only on how many parameters each name has. -/
theorem function_eq_of_lookup (h : ∀ name, sigs'.lookup name = sigs.lookup name) {f : Function}
    {code : List Instruction} (hc : Compile.function sigs f = .ok code) :
    Compile.function sigs' f = .ok code := by
  have hid : Renaming Set.univ id sigs sigs' := ⟨Set.injOn_id _, h⟩
  have halike := function_alike hid f fun _ _ => Set.mem_univ _
  rw [f.rename_id, hc] at halike
  generalize Compile.function sigs' f = other at halike ⊢
  cases halike with
  | ok he => rw [he]

theorem mapM_alike {α β γ : Type} {f : α → Except CompileError γ} {g : β → Except CompileError γ}
    {as : List α} {bs : List β} (h : List.Forall₂ (fun a b => Alike (· = ·) (f a) (g b)) as bs) :
    Alike (· = ·) (as.mapM f) (bs.mapM g) := by
  induction h with
  | nil => exact .ok rfl
  | cons hfirst _ ih =>
    rw [List.mapM_cons, List.mapM_cons]
    apply hfirst.bind
    rintro c _ rfl
    apply ih.bind
    rintro rest _ rfl
    exact .ok rfl

theorem signatures_renamed {fs gs : List Function} (h : List.Forall₂ Function.Renamed fs gs)
    (before : Signatures) : signatures before gs = signatures before fs := by
  induction h generalizing before with
  | nil => rfl
  | cons hfirst _ ih =>
    obtain ⟨ρ, -, rfl⟩ := hfirst
    rw [signatures, signatures, Function.rename, List.length_map, ih]

end Compile

namespace Program

variable {p q : Program}

theorem compile_alike (h : p.Renamed q) : Alike (· = ·) p.compile q.compile := by
  rw [compile, compile, signatures_renamed h]
  apply (Alike.refl (signatures [] p.functions)).bind
  rintro sigs _ rfl
  have hfunctions : List.Forall₂
      (fun f g => Alike (· = ·) (Compile.function sigs f) (Compile.function sigs g))
      p.functions q.functions := by
    apply h.imp
    rintro f _ ⟨ρ, hρ, rfl⟩
    exact function_alike ⟨hρ, fun _ => rfl⟩ f fun _ => id
  apply (mapM_alike hfunctions).bind
  rintro codes _ rfl
  exact .ok rfl

/-- Programs that differ in the names of variables are compiled to the same code and the same text,
or both fail with the same error, which may tell the name of an undefined variable. -/
theorem instructions_renamed (h : p.Renamed q) (optimized : Bool) :
    (∃ code, p.instructions optimized = .ok code ∧ q.instructions optimized = .ok code ∧
      p.build optimized = .ok (assemble code) ∧ q.build optimized = .ok (assemble code)) ∨
    ∃ e e', p.instructions optimized = .error e ∧ q.instructions optimized = .error e' ∧
      e.unnamed = e'.unnamed ∧ e.code = e'.code ∧ e.function? = e'.function? := by
  have hcompile := compile_alike h
  rw [build, build, instructions, instructions]
  generalize p.compile = x at hcompile ⊢
  generalize q.compile = y at hcompile ⊢
  cases hcompile with
  | ok he =>
    subst he
    exact .inl ⟨_, rfl, rfl, rfl, rfl⟩
  | @error e e' he =>
    have hcode : e.code = e'.code := by rw [← e.unnamed_code, he, e'.unnamed_code]
    have hfunction : e.function? = e'.function? := by
      rw [← e.unnamed_function?, he, e'.unnamed_function?]
    exact .inr ⟨e, e', rfl, rfl, he, hcode, hfunction⟩

def disguise (name : String) : String :=
  if name = "x" then "print" else if name = "y" then "ra" else "PT_0"

def disguised : Program where
  functions :=
    [⟨"main", ["print"],
      [.declare "ra" (.ident "print"),
        .branch (.ident "ra") [.declare "PT_0" (.literal (.int 1)), .declare "ra" (.ident "PT_0")]
          none,
        .declare "print" (.assign (.ident "PT_0") (.ident "ra"))]⟩]

theorem instructions_renamed_disguised :
    scoped.Renamed disguised ∧ ∃ code, scoped.instructions true = .ok code ∧
      disguised.instructions true = .ok code ∧ scoped.build true = .ok (assemble code) ∧
      disguised.build true = .ok (assemble code) := by
  have injective : ∀ f ∈ scoped.functions, ∀ name ∈ f.accesses, ∀ other ∈ f.accesses,
      disguise name = disguise other → name = other := by decide
  have renamed : scoped.Renamed disguised :=
    .cons ⟨disguise, fun name hn other ho => injective _ List.mem_cons_self name hn other ho, rfl⟩
      .nil
  refine ⟨renamed, ?_⟩
  rcases instructions_renamed renamed true with h | ⟨e, _, h, -⟩
  · exact h
  · have hok : (scoped.instructions true).isOk := rfl
    rw [h] at hok
    cases hok

end Program

end BlueCode
