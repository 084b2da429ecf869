import BlueCode.Proofs.CompilerCorrectness
import BlueCode.Proofs.Optimization

namespace BlueCode

open Compile

def Operand.address? : Operand → Option Int64
  | .heap address => some address
  | _ => none

def Instruction.addresses (i : Instruction) : List Int64 :=
  (i.src.toList ++ i.dst.toList).filterMap Operand.address?

@[simp] theorem Instruction.addresses_jump (label : String) :
    (Instruction.jump label).addresses = [] := rfl

@[simp] theorem Instruction.addresses_jumpIfNot (label : String) :
    (Instruction.jumpIfNot acc label).addresses = [] := rfl

@[simp] theorem Instruction.addresses_label (label : String) :
    (Instruction.label label).addresses = [] := rfl

/-- The heap addresses in some code, as often as they occur. -/
def heapAddresses (code : List Instruction) : List Int64 :=
  code.flatMap Instruction.addresses

@[simp] theorem heapAddresses_append (first rest : List Instruction) :
    heapAddresses (first ++ rest) = heapAddresses first ++ heapAddresses rest :=
  List.flatMap_append

@[simp] theorem heapAddresses_nil : heapAddresses [] = [] := rfl

@[simp] theorem heapAddresses_cons (i : Instruction) (rest : List Instruction) :
    heapAddresses (i :: rest) = i.addresses ++ heapAddresses rest :=
  List.flatMap_cons

mutual

/-- The variables that an expression reads and stores into, in the order of its code. -/
def Expr.accesses : Expr → List String
  | .literal _ => []
  | .ident name => [name]
  | .assign target value => value.accesses ++ target.accesses
  | .arith _ left right => left.accesses ++ right.accesses
  | .compare _ left right => left.accesses ++ right.accesses
  | .call _ args => Expr.listAccesses args

def Expr.listAccesses : List Expr → List String
  | [] => []
  | e :: rest => e.accesses ++ Expr.listAccesses rest

end

mutual

def Stmt.accesses : Stmt → List String
  | .declare name value => value.accesses ++ [name]
  | .ret none => []
  | .ret (some value) => value.accesses
  | .branch condition onTrue none => condition.accesses ++ Stmt.listAccesses onTrue
  | .branch condition onTrue (some onFalse) =>
    condition.accesses ++ Stmt.listAccesses onTrue ++ Stmt.listAccesses onFalse
  | .loop condition body => condition.accesses ++ Stmt.listAccesses body
  | .leave => []
  | .effect e => e.accesses

def Stmt.listAccesses : List Stmt → List String
  | [] => []
  | s :: rest => s.accesses ++ Stmt.listAccesses rest

end

mutual

/-- The names that a statement declares at any depth, as often as it does. -/
def Stmt.declarations : Stmt → List String
  | .declare name _ => [name]
  | .branch _ onTrue none => Stmt.listDeclarations onTrue
  | .branch _ onTrue (some onFalse) => Stmt.listDeclarations onTrue ++ Stmt.listDeclarations onFalse
  | .loop _ body => Stmt.listDeclarations body
  | .ret _ => []
  | .leave => []
  | .effect _ => []

def Stmt.listDeclarations : List Stmt → List String
  | [] => []
  | s :: rest => s.declarations ++ Stmt.listDeclarations rest

end

namespace Function

/-- The different names among the parameter and the declarations, in the order in which each is
declared first. -/
def locals (f : Function) : List String :=
  (f.params ++ Stmt.listDeclarations f.body).eraseDups

def address (f : Function) (name : String) : Int64 :=
  .ofNat (f.locals.idxOf name)

def accesses (f : Function) : List String :=
  f.params ++ Stmt.listAccesses f.body

end Function

theorem eraseDups_concat_of_mem {names : List String} {name : String} (h : name ∈ names) :
    (names ++ [name]).eraseDups = names.eraseDups := by
  rw [List.eraseDups_append]
  simp [List.removeAll, h]

theorem eraseDups_concat_of_notMem {names : List String} {name : String} (h : name ∉ names) :
    (names ++ [name]).eraseDups = names.eraseDups ++ [name] := by
  rw [List.eraseDups_append]
  simp [List.removeAll, List.eraseDups_cons, h]

mutual

theorem Stmt.declared_eraseDups : ∀ (s : Stmt) (before : List String),
    s.declared before.eraseDups = (before ++ s.declarations).eraseDups
  | .declare name _, before => by
    rw [Stmt.declared, Stmt.declarations]
    by_cases h : name ∈ before
    · rw [if_pos (List.mem_eraseDups.2 h), eraseDups_concat_of_mem h]
    · rw [if_neg fun hm => h (List.mem_eraseDups.1 hm), eraseDups_concat_of_notMem h]
  | .ret _, before => by rw [Stmt.declared, Stmt.declarations, List.append_nil]
  | .branch _ onTrue none, before => by
    rw [Stmt.declared, Stmt.declarations, Stmt.allDeclared_eraseDups onTrue]
  | .branch _ onTrue (some onFalse), before => by
    rw [Stmt.declared, Stmt.declarations, Stmt.allDeclared_eraseDups onTrue,
      Stmt.allDeclared_eraseDups onFalse, List.append_assoc]
  | .loop _ body, before => by
    rw [Stmt.declared, Stmt.declarations, Stmt.allDeclared_eraseDups body]
  | .leave, before => by rw [Stmt.declared, Stmt.declarations, List.append_nil]
  | .effect _, before => by rw [Stmt.declared, Stmt.declarations, List.append_nil]

theorem Stmt.allDeclared_eraseDups : ∀ (ss : List Stmt) (before : List String),
    Stmt.allDeclared before.eraseDups ss = (before ++ Stmt.listDeclarations ss).eraseDups
  | [], before => by rw [Stmt.allDeclared, Stmt.listDeclarations, List.append_nil]
  | first :: rest, before => by
    rw [Stmt.allDeclared, Stmt.listDeclarations, Stmt.declared_eraseDups first,
      Stmt.allDeclared_eraseDups rest, List.append_assoc]

end

namespace Compile

theorem idxOf_of_append {before names : List String} {name : String} {k : Nat}
    (hn : before <+: names) (hk : before.idxOf? name = some k) : names.idxOf name = k := by
  have hmem : name ∈ before := by
    obtain ⟨hlt, he, -⟩ := List.idxOf?_eq_some_iff.1 hk
    exact he ▸ List.getElem_mem hlt
  obtain ⟨rest, rfl⟩ := hn
  rw [List.idxOf_append_of_mem hmem, List.idxOf_eq_getD_idxOf?, hk, Option.getD_some]

theorem cell_eq_rank {cx : Context} {name : String} {o : Operand} {names : List String}
    (hn : cx.declared <+: names) (h : cx.cell name = .ok o) :
    o = .heap (.ofNat (names.idxOf name)) := by
  obtain ⟨k, hk, rfl⟩ := cell_eq_ok h
  rw [idxOf_of_append hn hk]

theorem heapAddresses_constant {o : Operand} (h : Constant o) :
    heapAddresses [.mov o acc] = [] := by
  cases h <;> rfl

section

variable {names : List String} {sigs : Signatures} {function : String}

mutual

theorem expr_addresses {cx : Context} (hn : cx.declared <+: names) : ∀ (e : Expr)
    {code : List Instruction}, expr cx e = .ok code →
    heapAddresses code = e.accesses.map fun name => Int64.ofNat (names.idxOf name)
  | .literal value, code, h => by
    rw [expr] at h
    obtain ⟨o, ho, hc⟩ := bind_eq_ok.1 h
    cases hc
    exact heapAddresses_constant (constant_of_literal ho)
  | .ident name, code, h => by
    rw [expr] at h
    obtain ⟨o, ho, hc⟩ := bind_eq_ok.1 h
    cases hc
    rw [cell_eq_rank hn ho]
    rfl
  | .assign (.ident name) value, code, h => by
    rw [expr] at h
    obtain ⟨o, ho, h⟩ := bind_eq_ok.1 h
    obtain ⟨stored, hv, hc⟩ := bind_eq_ok.1 h
    cases hc
    rw [cell_eq_rank hn ho, heapAddresses_append, expr_addresses hn value hv, Expr.accesses,
      List.map_append]
    rfl
  | .arith op left right, code, h => by
    rw [expr] at h
    obtain ⟨l, hl, h⟩ := bind_eq_ok.1 h
    obtain ⟨r, hr, hc⟩ := bind_eq_ok.1 h
    cases hc
    rw [heapAddresses_append, heapAddresses_append, heapAddresses_cons, expr_addresses hn left hl,
      expr_addresses hn right hr, Expr.accesses, List.map_append]
    exact List.append_nil _
  | .compare op left right, code, h => by
    rw [expr] at h
    obtain ⟨l, hl, h⟩ := bind_eq_ok.1 h
    obtain ⟨r, hr, hc⟩ := bind_eq_ok.1 h
    cases hc
    rw [heapAddresses_append, heapAddresses_append, heapAddresses_cons, expr_addresses hn left hl,
      expr_addresses hn right hr, Expr.accesses, List.map_append]
    exact List.append_nil _
  | .call function args, code, h => by
    rw [expr] at h
    obtain ⟨_, _, h⟩ := bind_eq_ok.1 h
    obtain ⟨codes, ha, hc⟩ := bind_eq_ok.1 h
    cases hc
    rw [heapAddresses_append, exprs_addresses hn args ha, Expr.accesses]
    exact List.append_nil _

theorem exprs_addresses {cx : Context} (hn : cx.declared <+: names) : ∀ (es : List Expr)
    {code : List Instruction}, exprs cx es = .ok code →
    heapAddresses code = (Expr.listAccesses es).map fun name => Int64.ofNat (names.idxOf name)
  | [], code, h => by
    cases h
    rfl
  | e :: rest, code, h => by
    rw [exprs] at h
    obtain ⟨first, hf, h⟩ := bind_eq_ok.1 h
    obtain ⟨others, ho, hc⟩ := bind_eq_ok.1 h
    cases hc
    rw [heapAddresses_append, expr_addresses hn e hf, exprs_addresses hn rest ho,
      Expr.listAccesses, List.map_append]

end

mutual

theorem stmt_addresses : ∀ (s : Stmt) {exit : Option String} {p p' : Progress}
    {code : List Instruction}, p'.declared <+: names →
    stmt sigs function exit p s = .ok (code, p') →
    heapAddresses code = s.accesses.map fun name => Int64.ofNat (names.idxOf name)
  | .declare name value, exit, p, p', code, hn, h => by
    obtain ⟨stored, k, hv, hk, rfl, rfl⟩ := stmt_declare_eq_ok h
    have hbefore : p.declared <+: names := (stmt_extends h).prefixed.trans hn
    rw [heapAddresses_append, expr_addresses hbefore value hv, Stmt.accesses, List.map_append,
      List.map_singleton, idxOf_of_append hn hk]
    rfl
  | .ret none, exit, p, p', code, hn, h => by
    cases h
    rfl
  | .ret (some value), exit, p, p', code, hn, h => by
    obtain ⟨stored, hv, rfl, rfl⟩ := stmt_ret_eq_ok h
    rw [heapAddresses_append, expr_addresses hn value hv, Stmt.accesses]
    exact List.append_nil _
  | .branch condition onTrue none, exit, p, p', code, hn, h => by
    obtain ⟨test, first, ht, hf, rfl⟩ := stmt_branch_eq_ok h
    have hbefore : p.declared <+: names := (stmt_extends h).prefixed.trans hn
    rw [heapAddresses_append, heapAddresses_append, heapAddresses_cons,
      expr_addresses hbefore condition ht, stmts_addresses onTrue hn hf, Stmt.accesses,
      List.map_append]
    exact List.append_nil _
  | .branch condition onTrue (some onFalse), exit, p, p', code, hn, h => by
    obtain ⟨test, first, p₁, second, ht, hf, hs, rfl⟩ := stmt_branchElse_eq_ok h
    have hbefore : p.declared <+: names := (stmt_extends h).prefixed.trans hn
    have hbetween : p₁.declared <+: names := (stmts_extends hs).prefixed.trans hn
    simp [expr_addresses hbefore condition ht,
      stmts_addresses onTrue hbetween hf, stmts_addresses onFalse hn hs, Stmt.accesses]
  | .loop condition body, exit, p, p', code, hn, h => by
    obtain ⟨test, inner, ht, hb, rfl⟩ := stmt_loop_eq_ok h
    have hbefore : p.declared <+: names := (stmt_extends h).prefixed.trans hn
    simp [expr_addresses hbefore condition ht, stmts_addresses body hn hb,
      Stmt.accesses]
  | .leave, exit, p, p', code, hn, h => by
    obtain ⟨label, rfl, rfl, rfl⟩ := stmt_leave_eq_ok h
    rfl
  | .effect e, exit, p, p', code, hn, h => by
    obtain ⟨he, rfl⟩ := stmt_effect_eq_ok h
    exact expr_addresses hn e he

theorem stmts_addresses : ∀ (ss : List Stmt) {exit : Option String} {p p' : Progress}
    {code : List Instruction}, p'.declared <+: names →
    stmts sigs function exit p ss = .ok (code, p') →
    heapAddresses code = (Stmt.listAccesses ss).map fun name => Int64.ofNat (names.idxOf name)
  | [], exit, p, p', code, hn, h => by
    cases h
    rfl
  | s :: rest, exit, p, p', code, hn, h => by
    obtain ⟨first, p₁, others, hf, ho, rfl⟩ := stmts_cons_eq_ok h
    have hbetween : p₁.declared <+: names := (stmts_extends ho).prefixed.trans hn
    rw [heapAddresses_append, stmt_addresses s hbetween hf, stmts_addresses rest hn ho,
      Stmt.listAccesses, List.map_append]

end

end

end Compile

namespace Function

variable {f : Function}

/-- The generator knows the variables in the order of their first declaration. -/
theorem names_eq_locals (hp : f.params.length ≤ 1) : f.names = f.locals := by
  have hparams : f.params.eraseDups = f.params := by
    match f.params, hp with
    | [], _ => rfl
    | [name], _ => simp [List.eraseDups_cons]
  rw [names, locals, ← Stmt.allDeclared_eraseDups, hparams]

/-- The code of a function accesses its parameter and its variables at their ranks. -/
theorem heapAddresses_code {sigs : Signatures} {code : List Instruction} (hp : f.params.length ≤ 1)
    (h : Compile.function sigs f = .ok code) : heapAddresses code = f.accesses.map f.address := by
  obtain ⟨body, p, hbody, rfl⟩ := function_eq_ok hp h
  have hdeclared : p.declared = f.locals := by
    rw [stmts_declared f.body hbody, ← f.names_eq_locals hp]
    rfl
  have hprefix : p.declared <+: f.locals := hdeclared ▸ List.prefix_refl p.declared
  have hrest := stmts_addresses f.body hprefix hbody
  have hfirst : heapAddresses (f.params.map fun _ => .mov acc (.heap (.ofNat 0))) =
      f.params.map f.address := by
    have hprefix : f.params <+: f.locals := f.names_eq_locals hp ▸ f.extends_names.prefixed
    match hparams : f.params, hp with
    | [], _ => rfl
    | [name], _ =>
      rw [hparams] at hprefix
      have hrank : f.locals.idxOf name = 0 := idxOf_of_append hprefix (by simp [List.idxOf?])
      rw [List.map_singleton, List.map_singleton, address, hrank]
      rfl
  rw [heapAddresses_cons, heapAddresses_append, hfirst, hrest, accesses, List.map_append]
  rfl

end Function

theorem Compile.Tidy.mem_heapAddresses {callable : String → Prop} {d : Nat}
    {body : List Instruction} (h : Tidy callable d body) (address : Int64) :
    address ∈ heapAddresses body ↔ ∃ k < d, address = .ofNat k := by
  constructor
  · intro ha
    obtain ⟨i, hi, ha⟩ := List.mem_flatMap.1 ha
    cases h.emitted i hi with
    | constant ho =>
      cases ho <;> cases ha
    | load hk => exact ⟨_, hk, List.mem_singleton.1 ha⟩
    | store hk => exact ⟨_, hk, List.mem_singleton.1 ha⟩
    | _ => cases ha
  · rintro ⟨k, hk, rfl⟩
    rcases h.uses k hk with hu | hu
    · exact List.mem_flatMap.2 ⟨_, hu, List.mem_singleton_self _⟩
    · exact List.mem_flatMap.2 ⟨_, hu, List.mem_singleton_self _⟩

/-- The code of a function uses the cells of its variables and no others. It accesses each variable in
the cell of its rank, in the order of the source; the peephole pass removes some accesses. -/
structure Function.LaidOut (optimized : Bool) (f : Function) (b : Block) : Prop where
  name : b.name = f.name
  markerless : ∀ i ∈ b.body, i.op ≠ .define
  cells : ∀ address, address ∈ heapAddresses b.code ↔ ∃ k < f.locals.length, address = .ofNat k
  ranked : ∃ kept, kept.Sublist f.accesses ∧ (optimized = false → kept = f.accesses) ∧
    heapAddresses b.code = kept.map f.address

def Image.Frames (image : Image) (fs : List Function) : Prop :=
  ∀ f ∈ fs, ∃ r, image.find? f.name = some r ∧ r.frameSize = f.locals.length

namespace Function

theorem body_code {sigs : Signatures} {b : Block} (hp : f.params.length ≤ 1)
    (h : Compile.function sigs f = .ok b.code) :
    ∃ n, StmtCode (fun _ => True) none 0 0 b.body f.locals.length n := by
  obtain ⟨body, p, hbody, he⟩ := function_eq_ok hp h
  obtain ⟨-, he⟩ := List.cons.inj (he : .define b.name :: b.body = _)
  have hcode := function_code (fun _ => True) (fun _ _ => trivial) hp hbody
  rw [stmts_declared f.body hbody, ← he] at hcode
  rw [← f.names_eq_locals hp]
  exact ⟨_, hcode⟩

theorem laidOut {sigs : Signatures} {b : Block} (hp : f.params.length ≤ 1)
    (hb : b.name = f.name ∧ Compile.function sigs f = .ok b.code) (optimized : Bool) :
    f.LaidOut optimized (b.finished optimized) := by
  obtain ⟨hname, hcode⟩ := hb
  obtain ⟨n, hbody⟩ := body_code hp hcode
  have htidy := hbody.tidy_finished optimized
  have haddresses := heapAddresses_code hp hcode
  have hsublist : (b.finished optimized).code.Sublist b.code := by
    cases optimized with
    | false => exact .refl _
    | true => exact (thin_sublist _ b.body).cons_cons _
  constructor
  · rw [Block.finished_name, hname]
  · intro i hi
    exact (htidy.emitted i hi).op_ne_define
  · exact htidy.mem_heapAddresses
  · have hkept : (heapAddresses (b.finished optimized).code).Sublist (f.accesses.map f.address) :=
      haddresses ▸ hsublist.flatMap Instruction.addresses
    cases optimized with
    | false => exact ⟨f.accesses, .refl _, fun _ => rfl, haddresses⟩
    | true =>
      obtain ⟨kept, hkept, he⟩ := List.sublist_map_iff.1 hkept
      exact ⟨kept, hkept, fun h => (nomatch h), he⟩

end Function

/-- Compiled functions have a frame with a cell for each variable, optimized or not. -/
theorem Image.frames_finished {fs : List Function} {blocks : List Block}
    (hd : (blocks.map Block.name).Nodup)
    (h : ∀ f ∈ fs, ∃ b ∈ blocks, b.name = f.name ∧
      ∃ n, StmtCode (fun _ => True) none 0 0 b.body f.locals.length n)
    (hl : (blocks.flatMap Block.code).length < 2 ^ 63) (optimized : Bool) :
    (Image.ofBlocks (blocks.map (Block.finished optimized))).Frames fs := by
  intro f hf
  obtain ⟨b, hmem, hname, n, hbody⟩ := h f hf
  have hmem' := List.mem_map_of_mem (f := Block.finished optimized) hmem
  have hfind := (Image.find?_ofBlocks (Block.names_finished optimized hd) f.name _).2
    ⟨_, hmem', by rw [Block.finished_name, hname], rfl⟩
  have hle := Block.length_le_of_mem hmem'
  have hle' := Block.flatMap_finished_length_le optimized blocks
  exact ⟨_, hfind, (hbody.tidy_finished optimized).frameSize_eq (by omega) _⟩

theorem Block.eq_ofBlocks_of_load {optimized : Bool} {blocks : List Block}
    (hd : (blocks.map Block.name).Nodup)
    (hcode : ∀ b ∈ blocks, ∃ d n, StmtCode (fun _ => True) none 0 0 b.body d n)
    (hs : ∀ b ∈ blocks, b.Spelled) (hl : (blocks.flatMap code).length < 2 ^ 63) {image : Image}
    (h : load (assemble ((blocks.map (finished optimized)).flatMap code)) = .ok image) :
    image = .ofBlocks ((blocks.map reread).map (finished optimized)) := by
  have hload := load_finished hd hcode hs hl optimized
  rw [h] at hload
  split at hload
  · exact Except.ok.inj hload
  · obtain ⟨n, hn⟩ := hload
    cases hn

/-- Generator and loader agree on the variables of every function. The text of the code is only read
as the same code if names are words; code addresses have 64 bits. -/
theorem Program.exists_layout {p : Program} {compiled : List Instruction}
    (h : p.compile = .ok compiled) (optimized : Bool) :
    ∃ blocks : List Block, p.instructions optimized = .ok (blocks.flatMap Block.code) ∧
      List.Forall₂ (Function.LaidOut optimized) p.functions blocks ∧
      (compiled.length < 2 ^ 63 →
        (∃ image, Image.ofInstructions (blocks.flatMap Block.code) = .ok image ∧
          image.Frames p.functions) ∧
        (p.Spelled → ∀ image, p.image optimized = .ok image → image.Frames p.functions)) := by
  obtain ⟨sigs, blocks, -, hb, rfl, hd, hp⟩ := compile_eq_ok h
  have hcode := hb.bodies_code hp
  have hinstructions := instructions_of_compile h hcode optimized
  have hbodies : ∀ f ∈ p.functions, ∃ b ∈ blocks, b.name = f.name ∧
      ∃ n, StmtCode (fun _ => True) none 0 0 b.body f.locals.length n := by
    intro f hf
    obtain ⟨b, hmem, hname, hfb⟩ := hb.exists_block hf
    exact ⟨b, hmem, hname, Function.body_code (hp f hf) hfb⟩
  refine ⟨blocks.map (Block.finished optimized), hinstructions, ?_, fun hl => ⟨?_, ?_⟩⟩
  · rw [List.forall₂_map_right_iff]
    apply ((List.forall₂_and_left _ _).2 ⟨hp, hb⟩).imp
    intro f b hfb
    exact Function.laidOut hfb.1 hfb.2 optimized
  · have hlength := Nat.lt_of_le_of_lt (Block.flatMap_finished_length_le optimized blocks) hl
    exact ⟨_, (Block.exists_image hd hcode hlength).1, Image.frames_finished hd hbodies hl optimized⟩
  · intro hspelled image himage
    rw [image_eq hinstructions] at himage
    cases hload : load (assemble ((blocks.map (Block.finished optimized)).flatMap Block.code)) with
    | error e =>
      rw [hload] at himage
      cases himage
    | ok loaded =>
      rw [hload] at himage
      cases himage
      rw [Block.eq_ofBlocks_of_load hd hcode (hb.spelled hp hspelled) hl hload]
      apply Image.frames_finished
      · rw [List.map_map]
        exact hd
      · intro f hf
        obtain ⟨b, hmem, hname, n, hbody⟩ := hbodies f hf
        exact ⟨b.reread, List.mem_map_of_mem hmem, hname, n, hbody.reread⟩
      · rw [← Block.map_reread_flatMap, List.length_map]
        exact hl

def Program.scoped : Program where
  functions :=
    [⟨"main", ["x"],
      [.declare "y" (.ident "x"),
        .branch (.ident "y") [.declare "z" (.literal (.int 1)), .declare "y" (.ident "z")] none,
        .declare "x" (.assign (.ident "z") (.ident "y"))]⟩]

theorem Program.exists_layout_scoped :
    ∃ compiled, Program.scoped.compile = .ok compiled ∧ compiled.length < 2 ^ 63 ∧
      Program.scoped.Spelled ∧
      ∃ blocks : List Block, Program.scoped.instructions true = .ok (blocks.flatMap Block.code) ∧
        List.Forall₂ (Function.LaidOut true) Program.scoped.functions blocks ∧
        (∃ image, Image.ofInstructions (blocks.flatMap Block.code) = .ok image ∧
          ∃ r, image.find? "main" = some r ∧ r.frameSize = 3) ∧
        ∀ image, Program.scoped.image true = .ok image →
          ∃ r, image.find? "main" = some r ∧ r.frameSize = 3 := by
  have spelled : Program.scoped.Spelled := by
    rw [Program.Spelled]
    decide
  obtain ⟨blocks, hb, hlaid, hframes⟩ := Program.exists_layout (p := Program.scoped) rfl true
  obtain ⟨⟨image, himage, hf⟩, htext⟩ := hframes (by decide)
  exact ⟨_, rfl, by decide, spelled, blocks, hb, hlaid, ⟨image, himage, hf _ List.mem_cons_self⟩,
    fun image himage => htext spelled image himage _ List.mem_cons_self⟩

end BlueCode
