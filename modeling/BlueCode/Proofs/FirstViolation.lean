import BlueCode.Proofs.StatementRuns
import BlueCode.Proofs.WellFormed

namespace BlueCode

open Compile

mutual

theorem Expr.declare_notMem (name : String) : ∀ e : Expr, .declare name ∉ e.mentions
  | .literal (.int _) => List.not_mem_nil
  | .literal (.float _) => List.not_mem_nil
  | .literal (.str _) => by simp [Expr.mentions]
  | .ident _ => by simp [Expr.mentions]
  | .assign _ value => by simpa [Expr.mentions] using Expr.declare_notMem name value
  | .arith _ left right => by
    simpa [Expr.mentions] using ⟨Expr.declare_notMem name left, Expr.declare_notMem name right⟩
  | .compare _ left right => by
    simpa [Expr.mentions] using ⟨Expr.declare_notMem name left, Expr.declare_notMem name right⟩
  | .call _ args => by simpa [Expr.mentions] using Expr.declare_notMem_list name args

theorem Expr.declare_notMem_list (name : String) : ∀ es : List Expr,
    .declare name ∉ Expr.listMentions es
  | [] => List.not_mem_nil
  | e :: es => by
    simpa [Expr.listMentions] using ⟨Expr.declare_notMem name e, Expr.declare_notMem_list name es⟩

end

mutual

theorem Stmt.mem_declared {name : String} : ∀ (s : Stmt) (inLoop : Bool) (names : List String),
    name ∈ s.declared names ↔ name ∈ names ∨ .declare name ∈ s.mentions inLoop
  | .declare other value, inLoop, names => by
    have hvalue := value.declare_notMem name
    rw [Stmt.declared, Stmt.mentions]
    split
    · next h =>
      simp only [List.mem_append, hvalue, false_or, List.mem_singleton, Mention.declare.injEq]
      exact ⟨.inl, fun h' => h'.elim id fun he => he ▸ h⟩
    · simp [hvalue]
  | .ret none, _, _ => by simp [Stmt.declared, Stmt.mentions]
  | .ret (some value), _, _ => by simp [Stmt.declared, Stmt.mentions, value.declare_notMem name]
  | .branch condition onTrue none, inLoop, names => by
    simp [Stmt.declared, Stmt.mentions, condition.declare_notMem name,
      Stmt.mem_allDeclared onTrue inLoop names]
  | .branch condition onTrue (some onFalse), inLoop, names => by
    simp [Stmt.declared, Stmt.mentions, condition.declare_notMem name, or_assoc,
      Stmt.mem_allDeclared onTrue inLoop names, Stmt.mem_allDeclared onFalse inLoop]
  | .loop condition body, inLoop, names => by
    simp [Stmt.declared, Stmt.mentions, condition.declare_notMem name,
      Stmt.mem_allDeclared body true names]
  | .leave, _, _ => by simp [Stmt.declared, Stmt.mentions]
  | .effect e, _, _ => by simp [Stmt.declared, Stmt.mentions, e.declare_notMem name]

theorem Stmt.mem_allDeclared {name : String} : ∀ (ss : List Stmt) (inLoop : Bool)
    (names : List String), name ∈ Stmt.allDeclared names ss ↔
      name ∈ names ∨ .declare name ∈ Stmt.listMentions inLoop ss
  | [], _, _ => by simp [Stmt.allDeclared, Stmt.listMentions]
  | s :: rest, inLoop, names => by
    rw [Stmt.allDeclared, Stmt.mem_allDeclared rest inLoop, Stmt.mem_declared s inLoop,
      Stmt.listMentions, List.mem_append, or_assoc]

end

/-- The table of the compiler has the variables that are known after some mentions. -/
def Function.Tracks (f : Function) (names : List String) (before : List Mention) : Prop :=
  ∀ name, name ∈ names ↔ f.Knows before name

namespace Function.Tracks

variable {f : Function} {names : List String} {before : List Mention}

theorem initial (f : Function) : f.Tracks f.params [] := by
  intro name
  simp [Knows]

theorem expr (h : f.Tracks names before) (e : Expr) : f.Tracks names (before ++ e.mentions) := by
  intro name
  simp [h name, Knows, e.declare_notMem name]

theorem target (h : f.Tracks names before) (e : Expr) : f.Tracks names (before ++ [.target e]) := by
  intro name
  simp [h name, Knows]

theorem call (h : f.Tracks names before) (callee : String) (count : Nat) :
    f.Tracks names (before ++ [.call callee count]) := by
  intro name
  simp [h name, Knows]

theorem stmt (h : f.Tracks names before) (s : Stmt) (inLoop : Bool) :
    f.Tracks (s.declared names) (before ++ s.mentions inLoop) := by
  intro name
  rw [s.mem_declared inLoop, h name, Knows, Knows, List.mem_append, or_assoc]

theorem stmts (h : f.Tracks names before) (ss : List Stmt) (inLoop : Bool) :
    f.Tracks (Stmt.allDeclared names ss) (before ++ Stmt.listMentions inLoop ss) := by
  intro name
  rw [Stmt.mem_allDeclared ss inLoop, h name, Knows, Knows, List.mem_append, or_assoc]

end Function.Tracks

def Function.signature (f : Function) : String × Nat :=
  (f.name, f.params.length)

theorem isSome_lookup_iff {name : String} {fs : List Function} :
    ((fs.map Function.signature).lookup name).isSome ↔ name ∈ fs.map Function.name := by
  rw [List.lookup_isSome_iff]
  simp [Function.signature, @eq_comm _ name]

theorem signatures_detects (fs : List Function) : ∀ before : List Function,
    Detects Function.Misdeclared before fs (signatures (before.map Function.signature) fs) := by
  induction fs with
  | nil => exact fun _ => .ok faultless_nil
  | cons f rest ih =>
    intro before
    have hrest := ih (before ++ [f])
    rw [List.map_append] at hrest
    rw [signatures]
    split
    · next hp => exact .fail (.parameters hp) rest
    · next hp =>
      split
      · next hd => exact .fail (.duplicate (Nat.not_lt.1 hp) (isSome_lookup_iff.1 hd)) rest
      · next hd =>
        refine .cons (fun e hwrong => ?_) hrest
        cases hwrong with
        | parameters hp' => exact hp hp'
        | duplicate _ hmem => exact hd (isSome_lookup_iff.2 hmem)

variable {p : Program} {f : Function} {names : List String} {before : List Mention}

def Program.context (p : Program) (f : Function) (names : List String) : Context :=
  ⟨p.functions.map Function.signature, f.name, names⟩

theorem any_iff_unwritable {s : String} :
    (s.toList.any fun c => c == '"' || c == '\n' || c == '\r') = true ↔ Unwritable s := by
  simp only [List.any_eq_true, Bool.or_eq_true, beq_iff_eq, Unwritable]
  constructor
  · rintro ⟨c, hc, (rfl | rfl) | rfl⟩
    · exact .inl hc
    · exact .inr (.inl hc)
    · exact .inr (.inr hc)
  · rintro (h | h | h)
    · exact ⟨_, h, .inl (.inl rfl)⟩
    · exact ⟨_, h, .inl (.inr rfl)⟩
    · exact ⟨_, h, .inr rfl⟩

theorem literal_detects (value : Literal) :
    Detects (p.Violates f) before (Expr.literal value).mentions
      ((p.context f names).literal value) := by
  cases value with
  | int n => exact .ok faultless_nil
  | float x => exact .ok faultless_nil
  | str s =>
    rw [Context.literal]
    split
    · next h => exact .fail (.text (any_iff_unwritable.1 h)) []
    · next h =>
      refine .pass (fun e hwrong => ?_) _
      cases hwrong with
      | text hs => exact h (any_iff_unwritable.2 hs)

theorem cell_detects (h : f.Tracks names before) {name : String} {m : Mention}
    (hm : m = .read name ∨ m = .target (.ident name)) :
    Detects (p.Violates f) before [m] ((p.context f names).cell name) := by
  rw [Context.cell]
  split
  · next k hk =>
    have hmem : name ∈ names := List.isSome_idxOf?.1 (Option.isSome_iff_exists.2 ⟨k, hk⟩)
    refine .pass (fun e hwrong => ?_) _
    rcases hm with rfl | rfl
    · cases hwrong with
      | read hnot => exact hnot ((h name).1 hmem)
    · cases hwrong with
      | assigned hnot => exact hnot ((h name).1 hmem)
      | target hnot => exact hnot name rfl
  · next hk =>
    have hnot : ¬ f.Knows before name := (h name).not.1 (List.idxOf?_eq_none_iff.1 hk)
    rcases hm with rfl | rfl
    · exact .fail (.read hnot) []
    · exact .fail (.assigned hnot) []

theorem lookup_eq_some_iff {fs : List Function} (hd : (fs.map Function.name).Nodup) {name : String}
    {count : Nat} : (fs.map Function.signature).lookup name = some count ↔
      ∃ g ∈ fs, g.name = name ∧ g.params.length = count := by
  induction fs with
  | nil => simp
  | cons f rest ih =>
    obtain ⟨hnew, hrest⟩ := List.nodup_cons.1 hd
    rw [List.map_cons, Function.signature, List.lookup_cons]
    by_cases hname : name = f.name
    · subst hname
      have hother : ∀ g ∈ rest, g.name ≠ f.name := fun g hg he => hnew (he ▸ List.mem_map_of_mem hg)
      simp only [beq_self_eq_true, List.mem_cons, exists_eq_or_imp, Option.some.injEq, true_and]
      constructor
      · exact .inl
      · rintro (h | ⟨g, hg, he, -⟩)
        · exact h
        · exact absurd he (hother g hg)
    · rw [beq_eq_false_iff_ne.2 hname, ih hrest]
      simp [Ne.symm hname]

theorem checkArity_detects (hd : (p.functions.map Function.name).Nodup) (name : String)
    (count : Nat) :
    Detects (p.Violates f) before [.call name count]
      ((p.context f names).checkArity name count) := by
  cases hb : Builtin.ofName? name with
  | some builtin =>
    simp only [Context.checkArity, hb]
    split
    · next h =>
      refine .pass (fun e hwrong => ?_) _
      cases hwrong with
      | builtin hb' hnot =>
        cases hb.symm.trans hb'
        exact hnot h
      | call hb' => cases hb.symm.trans hb'
    · next h => exact .fail (.builtin hb h) []
  | none =>
    simp only [Context.checkArity, hb]
    cases hlookup : (p.context f names).signatures.lookup name with
    | none =>
      refine .pass (fun e hwrong => ?_) _
      cases hwrong with
      | builtin hb' => cases hb.symm.trans hb'
      | call _ hg hname hne =>
        have hfound := (lookup_eq_some_iff hd).2 ⟨_, hg, hname, rfl⟩
        cases hlookup.symm.trans hfound
    | some expected =>
      obtain ⟨g, hg, rfl, rfl⟩ := (lookup_eq_some_iff hd).1 hlookup
      dsimp only [Option.map_some]
      split
      · next h =>
        refine .pass (fun e hwrong => ?_) _
        cases hwrong with
        | builtin hb' => cases hb.symm.trans hb'
        | call _ hg' hname hne =>
          have hfound := (lookup_eq_some_iff hd).2 ⟨_, hg', hname, rfl⟩
          have hsame := Option.some.inj (hlookup.symm.trans hfound)
          exact hne ((Nat.le_antisymm h.2 h.1).trans hsame)
      · next h =>
        refine .fail (.call hb hg rfl fun he => h ?_) []
        rw [he]
        exact ⟨Nat.le_refl _, Nat.le_refl _⟩

theorem Compile.Progress.mem_declare (progress : Progress) (name : String) :
    name ∈ (progress.declare name).declared := by
  unfold Progress.declare
  split
  · next h => exact h
  · exact List.mem_append_right _ (List.mem_singleton_self name)

mutual

theorem expr_detects (hd : (p.functions.map Function.name).Nodup) : ∀ (e : Expr)
    {before : List Mention}, f.Tracks names before →
    Detects (p.Violates f) before e.mentions (expr (p.context f names) e)
  | .literal value, before, h => by
    rw [expr]
    exact (literal_detects value).bind_ok _
  | .ident name, before, h => by
    rw [expr]
    exact (cell_detects h (.inl rfl)).bind_ok _
  | .assign (.ident name) value, before, h => by
    rw [expr]
    refine (cell_detects h (.inr rfl)).bind fun _ _ => ?_
    exact (expr_detects hd value (h.target _)).bind_ok _
  | .assign (.literal _) _, before, h => .fail (.target nofun) _
  | .assign (.assign _ _) _, before, h => .fail (.target nofun) _
  | .assign (.arith _ _ _) _, before, h => .fail (.target nofun) _
  | .assign (.compare _ _ _) _, before, h => .fail (.target nofun) _
  | .assign (.call _ _) _, before, h => .fail (.target nofun) _
  | .arith op left right, before, h => by
    rw [expr]
    exact (expr_detects hd left h).bind fun _ _ => (expr_detects hd right (h.expr left)).bind_ok _
  | .compare op left right, before, h => by
    rw [expr]
    exact (expr_detects hd left h).bind fun _ _ => (expr_detects hd right (h.expr left)).bind_ok _
  | .call name args, before, h => by
    rw [expr]
    refine (checkArity_detects hd name args.length).bind fun _ _ => ?_
    exact (exprs_detects hd args (h.call name args.length)).bind_ok _

theorem exprs_detects (hd : (p.functions.map Function.name).Nodup) : ∀ (es : List Expr)
    {before : List Mention}, f.Tracks names before →
    Detects (p.Violates f) before (Expr.listMentions es) (exprs (p.context f names) es)
  | [], before, h => .ok faultless_nil
  | e :: rest, before, h => by
    rw [exprs]
    exact (expr_detects hd e h).bind fun _ _ => (exprs_detects hd rest (h.expr e)).bind_ok _

end

mutual

theorem stmt_detects (hd : (p.functions.map Function.name).Nodup) : ∀ (s : Stmt)
    (exit : Option String) {progress : Progress} {before : List Mention},
    f.Tracks progress.declared before →
    Detects (p.Violates f) before (s.mentions exit.isSome)
      (stmt (p.functions.map Function.signature) f.name exit progress s)
  | .declare name value, exit, progress, before, h => by
    rw [stmt]
    refine (expr_detects hd value h).bind fun _ _ => ?_
    obtain ⟨k, hk⟩ := Option.isSome_iff_exists.1 (List.isSome_idxOf?.2 (progress.mem_declare name))
    simp only [Context.cell, hk]
    exact .pass nofun _
  | .ret none, exit, progress, before, h => .ok faultless_nil
  | .ret (some value), exit, progress, before, h => by
    rw [stmt]
    exact (expr_detects hd value h).bind_ok _
  | .branch condition onTrue none, exit, progress, before, h => by
    rw [stmt]
    refine (expr_detects hd condition h).bind fun _ _ => ?_
    have hp : f.Tracks (progress.label "PT").2.declared _ := h.expr condition
    exact (stmts_detects hd onTrue exit hp).bind_ok _
  | .branch condition onTrue (some onFalse), exit, progress, before, h => by
    rw [stmt]
    refine (expr_detects hd condition h).bind fun _ _ => ?_
    have hp : f.Tracks (progress.label "PT").2.declared _ := h.expr condition
    refine (stmts_detects hd onTrue exit hp).bind fun (_, p₁) hfirst => ?_
    have hnext := (h.expr condition).stmts onTrue exit.isSome
    have hdeclared := stmts_declared onTrue hfirst
    have hp₁ : f.Tracks (p₁.label "PT").2.declared _ := hdeclared ▸ hnext
    exact (stmts_detects hd onFalse exit hp₁).bind_ok _
  | .loop condition body, exit, progress, before, h => by
    rw [stmt]
    refine (expr_detects hd condition h).bind fun _ _ => ?_
    have hp : f.Tracks ((progress.label "LOOP_START").2.label "LOOP_END").2.declared _ :=
      h.expr condition
    exact (stmts_detects hd body (some _) hp).bind_ok _
  | .leave, exit, progress, before, h => by
    cases exit with
    | none => exact .fail .leave []
    | some label => exact .pass nofun _
  | .effect e, exit, progress, before, h => by
    rw [stmt]
    exact (expr_detects hd e h).bind_ok _

theorem stmts_detects (hd : (p.functions.map Function.name).Nodup) : ∀ (ss : List Stmt)
    (exit : Option String) {progress : Progress} {before : List Mention},
    f.Tracks progress.declared before →
    Detects (p.Violates f) before (Stmt.listMentions exit.isSome ss)
      (stmts (p.functions.map Function.signature) f.name exit progress ss)
  | [], exit, progress, before, h => .ok faultless_nil
  | s :: rest, exit, progress, before, h => by
    rw [stmts]
    refine (stmt_detects hd s exit h).bind fun (first, p₁) hfirst => ?_
    have hnext := h.stmt s exit.isSome
    rw [← stmt_declared s hfirst] at hnext
    exact (stmts_detects hd rest exit hnext).bind_ok _

end

theorem function_detects (hd : (p.functions.map Function.name).Nodup) (hp : f.params.length ≤ 1) :
    Detects (p.Violates f) [] f.mentions (function (p.functions.map Function.signature) f) := by
  have hbody := @stmts_detects p f hd f.body none ⟨f.params, 0⟩ [] (.initial f)
  rw [function, List.take_of_length_le hp]
  exact hbody.bind_ok _

/-- A program that violates the rules in a head fails there, and any other is compiled function by
function. -/
theorem Program.compile_detects (p : Program) :
    (∃ e, p.compile = .error e ∧ First Function.Misdeclared [] p.functions e) ∨
      Faultless Function.Misdeclared [] p.functions ∧
        Detects (fun _ f => p.FirstInBody f) [] p.functions p.compile := by
  have hheads := signatures_detects p.functions []
  rw [List.map_nil] at hheads
  generalize hsigs : signatures [] p.functions = sigs at hheads
  cases hheads with
  | @error e hfirst =>
    refine .inl ⟨e, ?_, hfirst⟩
    rw [compile, hsigs]
    rfl
  | @ok sigs hno =>
    obtain ⟨rfl, -, hp⟩ := signatures_eq_ok hsigs List.nodup_nil
    obtain ⟨-, -, hd⟩ := faultless_misdeclared_iff.1 hno
    have hbodies : Detects (fun _ f => p.FirstInBody f) [] p.functions
        (p.functions.mapM (function ([] ++ p.functions.map Function.signature))) := by
      apply Detects.mapM
      intro before f hf
      have hbody := function_detects hd (hp f hf)
      rw [List.nil_append]
      generalize function _ f = code at hbody
      cases hbody with
      | ok hno => exact .pass (fun e hfirst => hfirst.not_faultless hno) _
      | error hfirst => exact .fail hfirst []
    rw [compile, hsigs]
    exact .inr ⟨hno, hbodies.bind_ok _⟩

/-- The programs that can be compiled are the well-formed ones, and for any other the error is its
first violation of the rules. -/
theorem Program.compile_iff_wellFormed (p : Program) :
    ((∃ code, p.compile = .ok code) ↔ p.WellFormed) ∧
      ∀ e, p.compile = .error e ↔ p.FirstViolation e := by
  rw [wellFormed_iff]
  rcases p.compile_detects with ⟨e, he, hfirst⟩ | ⟨hno, hreports⟩
  · refine ⟨⟨fun ⟨code, hcode⟩ => ?_, fun hno => absurd hno.1 hfirst.not_faultless⟩, fun e' => ?_⟩
    · cases he.symm.trans hcode
    · rw [he, Except.error.injEq]
      exact ⟨fun h => h ▸ .inl hfirst, fun h => FirstViolation.unique (.inl hfirst) h⟩
  · refine ⟨hreports.ok_iff.trans (and_iff_right hno).symm, fun e' => ?_⟩
    generalize p.compile = result at hreports
    cases hreports with
    | ok hno' =>
      refine ⟨nofun, fun h => ?_⟩
      rcases h with h | ⟨-, h⟩
      · exact absurd hno h.not_faultless
      · exact absurd hno' h.not_faultless
    | error hfirst =>
      rw [Except.error.injEq]
      exact ⟨fun h => h ▸ .inr ⟨hno, hfirst⟩, fun h => FirstViolation.unique (.inr ⟨hno, hfirst⟩) h⟩

end BlueCode
