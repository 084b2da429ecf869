import BlueCode.Proofs.LoadedCode
import BlueCode.Proofs.Optimization

namespace BlueCode

open Compile

mutual

/-- The floating-point numbers in an expression, in the order of its code. -/
def Expr.floats : Expr → List Float
  | .literal (.float x) => [x]
  | .literal _ => []
  | .ident _ => []
  | .assign target value => target.floats ++ value.floats
  | .arith _ left right => left.floats ++ right.floats
  | .compare _ left right => left.floats ++ right.floats
  | .call _ args => Expr.listFloats args

def Expr.listFloats : List Expr → List Float
  | [] => []
  | e :: rest => e.floats ++ Expr.listFloats rest

end

mutual

def Stmt.floats : Stmt → List Float
  | .declare _ value => value.floats
  | .ret none => []
  | .ret (some value) => value.floats
  | .branch condition onTrue none => condition.floats ++ Stmt.listFloats onTrue
  | .branch condition onTrue (some onFalse) =>
    condition.floats ++ Stmt.listFloats onTrue ++ Stmt.listFloats onFalse
  | .loop condition body => condition.floats ++ Stmt.listFloats body
  | .leave => []
  | .effect e => e.floats

def Stmt.listFloats : List Stmt → List Float
  | [] => []
  | s :: rest => s.floats ++ Stmt.listFloats rest

end

def Program.floats (p : Program) : List Float :=
  p.functions.flatMap fun f => Stmt.listFloats f.body

namespace Instruction

def float? (i : Instruction) : Option Float :=
  match i.src with
  | some (.float x) => some x
  | _ => none

def callee? (i : Instruction) : Option String :=
  if i.op = .call then some i.target else none

theorem float?_eq_some {i : Instruction} {x : Float} : i.float? = some x ↔ i.src = some (.float x) := by
  unfold float?
  split
  · next y hy => rw [hy, Option.some.injEq, Option.some.injEq, Operand.float.injEq]
  · next hne =>
    constructor
    · exact nofun
    · exact fun h => absurd h (hne x)

end Instruction

/-- The numbers in code and the names that it calls. -/
structure Contents (code : List Instruction) (floats : List Float) (callees : List String) : Prop where
  floats : code.filterMap Instruction.float? = floats
  callees : code.filterMap Instruction.callee? = callees

namespace Contents

variable {code rest : List Instruction} {floats floats' : List Float} {callees callees' : List String}

theorem append (h : Contents code floats callees) (h' : Contents rest floats' callees') :
    Contents (code ++ rest) (floats ++ floats') (callees ++ callees') :=
  ⟨by rw [List.filterMap_append, h.floats, h'.floats],
    by rw [List.filterMap_append, h.callees, h'.callees]⟩

theorem cons {i : Instruction} (hf : i.float? = none) (hc : i.callee? = none)
    (h : Contents code floats callees) : Contents (i :: code) floats callees :=
  ⟨by rw [List.filterMap_cons_none hf, h.floats], by rw [List.filterMap_cons_none hc, h.callees]⟩

theorem concat (h : Contents code floats callees) (h' : Contents rest [] []) :
    Contents (code ++ rest) floats callees := by
  have happend := h.append h'
  rw [List.append_nil, List.append_nil] at happend
  exact happend

end Contents

namespace Compile

mutual

theorem contents_expr {cx : Context} : ∀ (e : Expr) {code : List Instruction},
    expr cx e = .ok code → Contents code e.floats e.callees
  | .literal value, code, h => by
    rw [expr] at h
    obtain ⟨o, ho, hc⟩ := bind_eq_ok.1 h
    cases hc
    cases value with
    | int n => cases ho; exact ⟨rfl, rfl⟩
    | float x => cases ho; exact ⟨rfl, rfl⟩
    | str s =>
      rw [Context.literal] at ho
      split at ho
      · cases ho
      · cases ho
        exact ⟨rfl, rfl⟩
  | .ident name, code, h => by
    rw [expr] at h
    obtain ⟨o, ho, hc⟩ := bind_eq_ok.1 h
    cases hc
    obtain ⟨k, -, rfl⟩ := cell_eq_ok ho
    exact ⟨rfl, rfl⟩
  | .assign (.ident name) value, code, h => by
    rw [expr] at h
    obtain ⟨o, ho, h⟩ := bind_eq_ok.1 h
    obtain ⟨stored, hv, hc⟩ := bind_eq_ok.1 h
    cases hc
    exact (contents_expr value hv).concat ⟨rfl, rfl⟩
  | .arith op left right, code, h => by
    rw [expr] at h
    obtain ⟨l, hl, h⟩ := bind_eq_ok.1 h
    obtain ⟨r, hr, hc⟩ := bind_eq_ok.1 h
    cases hc
    exact ((contents_expr left hl).append (.cons rfl rfl (contents_expr right hr))).concat ⟨rfl, rfl⟩
  | .compare op left right, code, h => by
    rw [expr] at h
    obtain ⟨l, hl, h⟩ := bind_eq_ok.1 h
    obtain ⟨r, hr, hc⟩ := bind_eq_ok.1 h
    cases hc
    exact ((contents_expr left hl).append (.cons rfl rfl (contents_expr right hr))).concat ⟨rfl, rfl⟩
  | .call function args, code, h => by
    rw [expr] at h
    obtain ⟨_, _, h⟩ := bind_eq_ok.1 h
    obtain ⟨codes, ha, hc⟩ := bind_eq_ok.1 h
    cases hc
    have hcall : Contents [.call function] [] [function] := ⟨rfl, rfl⟩
    have happend := (contents_exprs args ha).append hcall
    rw [List.append_nil] at happend
    exact happend

theorem contents_exprs {cx : Context} : ∀ (es : List Expr) {code : List Instruction},
    exprs cx es = .ok code → Contents code (Expr.listFloats es) (Expr.listCallees es)
  | [], code, h => by
    rw [exprs] at h
    cases h
    exact ⟨rfl, rfl⟩
  | e :: rest, code, h => by
    rw [exprs] at h
    obtain ⟨first, hf, h⟩ := bind_eq_ok.1 h
    obtain ⟨others, ho, hc⟩ := bind_eq_ok.1 h
    cases hc
    exact (contents_expr e hf).append (contents_exprs rest ho)

end

mutual

theorem contents_stmt {sigs : Signatures} {function : String} : ∀ (s : Stmt)
    {exit : Option String} {p p' : Progress} {code : List Instruction},
    stmt sigs function exit p s = .ok (code, p') → Contents code s.floats s.callees
  | .declare name value, exit, p, p', code, h => by
    obtain ⟨stored, k, hv, -, -, rfl⟩ := stmt_declare_eq_ok h
    exact (contents_expr value hv).concat ⟨rfl, rfl⟩
  | .ret none, exit, p, p', code, h => by
    cases h
    exact ⟨rfl, rfl⟩
  | .ret (some value), exit, p, p', code, h => by
    obtain ⟨stored, hv, -, rfl⟩ := stmt_ret_eq_ok h
    exact (contents_expr value hv).concat ⟨rfl, rfl⟩
  | .branch condition onTrue none, exit, p, p', code, h => by
    obtain ⟨test, first, ht, hf, rfl⟩ := stmt_branch_eq_ok h
    have hfirst := contents_stmts onTrue hf
    exact ((contents_expr condition ht).append (.cons rfl rfl hfirst)).concat ⟨rfl, rfl⟩
  | .branch condition onTrue (some onFalse), exit, p, p', code, h => by
    obtain ⟨test, first, p₁, second, ht, hf, hs, rfl⟩ := stmt_branchElse_eq_ok h
    have hfirst := contents_stmts onTrue hf
    have hsecond := contents_stmts onFalse hs
    exact (((contents_expr condition ht).append (.cons rfl rfl hfirst)).append
      (.cons rfl rfl (.cons rfl rfl hsecond))).concat ⟨rfl, rfl⟩
  | .loop condition body, exit, p, p', code, h => by
    obtain ⟨test, inner, ht, hb, rfl⟩ := stmt_loop_eq_ok h
    have hinner := contents_stmts body hb
    exact (((contents_expr condition ht).append (.cons rfl rfl hinner)).concat ⟨rfl, rfl⟩).cons rfl rfl
  | .leave, exit, p, p', code, h => by
    obtain ⟨label, -, -, rfl⟩ := stmt_leave_eq_ok h
    exact ⟨rfl, rfl⟩
  | .effect e, exit, p, p', code, h => contents_expr e (stmt_effect_eq_ok h).1

theorem contents_stmts {sigs : Signatures} {function : String} : ∀ (ss : List Stmt)
    {exit : Option String} {p p' : Progress} {code : List Instruction},
    stmts sigs function exit p ss = .ok (code, p') →
    Contents code (Stmt.listFloats ss) (Stmt.listCallees ss)
  | [], exit, p, p', code, h => by
    cases h
    exact ⟨rfl, rfl⟩
  | s :: rest, exit, p, p', code, h => by
    obtain ⟨first, p₁, others, hf, ho, rfl⟩ := stmts_cons_eq_ok h
    exact (contents_stmt s hf).append (contents_stmts rest ho)

end

theorem contents_function {sigs : Signatures} {f : Function} {b : Block}
    (hp : f.params.length ≤ 1) (h : function sigs f = .ok b.code) :
    Contents b.body (Stmt.listFloats f.body) (Stmt.listCallees f.body) := by
  obtain ⟨body, p, hbody, he⟩ := function_eq_ok hp h
  obtain ⟨-, he⟩ := List.cons.inj (he : .define b.name :: b.body = _)
  rw [he]
  have hcontents := contents_stmts f.body hbody
  generalize f.params = params at hp
  match params, hp with
  | [], _ => exact hcontents
  | [_], _ => exact hcontents.cons rfl rfl

end Compile

theorem Contents.finished {callable : String → Prop} {d n : Nat} {b : Block} {floats : List Float}
    {callees : List String} (h : Contents b.body floats callees)
    (hbody : StmtCode callable none 0 0 b.body d n) (optimized : Bool) :
    Contents (b.finished optimized).body floats callees := by
  cases optimized with
  | false => exact h
  | true =>
    constructor
    · rw [← h.floats]
      refine filterMap_emitted_thin (fun i _ hsrc => ?_) (.inr nofun) hbody.tidy.emitted
      rw [Option.eq_none_iff_forall_ne_some]
      exact fun x hx => hsrc x (Instruction.float?_eq_some.1 hx)
    · rw [← h.callees]
      exact filterMap_thin (fun i hi => by simp [Instruction.callee?, hi]) _ _

theorem shaped_of_load {text : String} {image : Image} (h : load text = .ok image) {name : String}
    {r : Routine} (hf : image.find? name = some r) :
    Text.isWord name.toList = true ∧ ∀ i ∈ r.code, i.Shaped := by
  obtain ⟨blocks, hshaped, hd, -, rfl⟩ := exists_blocks_of_load h
  obtain ⟨b, hb, rfl, rfl⟩ := (Image.find?_ofBlocks hd name r).1 hf
  constructor
  · have hdefine : (Instruction.define b.name).Shaped :=
      hshaped _ (List.mem_flatMap.2 ⟨b, hb, List.mem_cons_self⟩)
    obtain ⟨s, hs, he⟩ := hdefine.define_eq rfl
    have hname : b.name = s := (congrArg Instruction.target he :)
    rw [hname]
    exact hs
  · intro i hi
    rw [Block.routine, Routine.ofBody_code, List.mem_toArray] at hi
    exact hshaped i (List.mem_flatMap.2 ⟨b, hb, List.mem_cons_of_mem _ hi⟩)

namespace Instruction.Shaped

variable {i : Instruction}

theorem isFinite_of_float? (h : i.Shaped) {x : Float} (hx : i.float? = some x) :
    x.isFinite = true := by
  have hsrc := float?_eq_some.1 hx
  exact h.legible (.float x) (by simp [operands, hsrc])

theorem isWord_of_callee? (h : i.Shaped) {name : String} (hn : i.callee? = some name) :
    Text.isWord name.toList = true := by
  unfold callee? at hn
  split at hn
  · next hop =>
    obtain ⟨s, rfl⟩ := h.formed.call_eq hop
    cases hn
    exact h.legible (.name s) (by simp [operands, call])
  · cases hn

end Instruction.Shaped

namespace Program

variable {p : Program} {compiled : List Instruction}

/-- What a text describes has names that are words, and finite numbers. -/
theorem spelled_of_load {sigs : Signatures} {blocks : List Block} {optimized : Bool} {text : String}
    (hb : Blocks sigs p.functions blocks) (hd : (blocks.map Block.name).Nodup)
    (hp : ∀ f ∈ p.functions, f.params.length ≤ 1)
    (h : load text = .ok (.ofBlocks (blocks.map (Block.finished optimized)))) :
    p.Spelled ∧ ∀ x ∈ p.floats, x.isFinite = true := by
  have hfunction : ∀ f ∈ p.functions, Text.isWord f.name.toList = true ∧
      (∀ name ∈ Stmt.listCallees f.body, Text.isWord name.toList = true) ∧
      ∀ x ∈ Stmt.listFloats f.body, x.isFinite = true := by
    intro f hf
    obtain ⟨b, hmem, hname, hcode⟩ := hb.exists_block hf
    obtain ⟨d, n, hbody⟩ := Blocks.body_code (fun _ => True) hb hp (fun _ _ _ _ => trivial) hmem
    have hcontents := (contents_function (hp f hf) hcode).finished hbody optimized
    have hfind : (Image.ofBlocks (blocks.map (Block.finished optimized))).find? f.name =
        some (b.finished optimized).routine :=
      (Image.find?_ofBlocks (Block.names_finished optimized hd) ..).2
        ⟨_, List.mem_map_of_mem hmem, by rw [Block.finished_name, hname], rfl⟩
    obtain ⟨hword, hshaped⟩ := shaped_of_load h hfind
    have hmem' : ∀ i ∈ (b.finished optimized).body, i.Shaped := by
      intro i hi
      apply hshaped
      rw [Block.routine, Routine.ofBody_code, List.mem_toArray]
      exact hi
    refine ⟨hword, ?_, ?_⟩
    · intro name hcalled
      rw [← hcontents.callees] at hcalled
      obtain ⟨i, hi, hn⟩ := List.mem_filterMap.1 hcalled
      exact (hmem' i hi).isWord_of_callee? hn
    · intro x hx
      rw [← hcontents.floats] at hx
      obtain ⟨i, hi, hx⟩ := List.mem_filterMap.1 hx
      exact (hmem' i hi).isFinite_of_float? hx
  refine ⟨fun f hf => ⟨(hfunction f hf).1, (hfunction f hf).2.1⟩, fun x hx => ?_⟩
  obtain ⟨f, hf, hx⟩ := List.mem_flatMap.1 hx
  exact (hfunction f hf).2.2 x hx

end Program

namespace Instruction

/-- The instruction is read from its text as it is. -/
def Readable (i : Instruction) : Prop :=
  i.unreadable? = none ∧ i.reread = i

theorem Readable.of_src {i : Instruction} (h : ∀ x, i.src ≠ some (.float x)) : i.Readable :=
  ⟨unreadable?_of_src h, reread_of_src h⟩

theorem Readable.of_number {i : Instruction} {x : Float} (hi : i.src = some (.float x))
    (hx : x.isFinite = true) (hr : (Operand.float x).ReadsBack) : i.Readable := by
  have hnumber : Loader.number? (Operand.float x).chars = some (.float x) :=
    Loader.number?_float hx hr
  obtain ⟨op, src, dst⟩ := i
  cases hi
  constructor
  · simp only [unreadable?, hnumber, reduceCtorEq, if_false]
  · simp only [reread, Option.map_some, Operand.reread, hnumber, Option.getD_some]

end Instruction

theorem Block.reread_of_readable {b : Block} (h : ∀ i ∈ b.body, i.Readable) : b.reread = b := by
  have hbody : b.body.map Instruction.reread = b.body :=
    (List.map_congr_left fun i hi => (h i hi).2).trans (List.map_id b.body)
  rw [Block.reread, hbody]

namespace Program

variable {p : Program} {compiled : List Instruction}

theorem readable_of_finite {sigs : Signatures} {blocks : List Block}
    (hb : Blocks sigs p.functions blocks) (hp : ∀ f ∈ p.functions, f.params.length ≤ 1)
    (hfinite : ∀ x ∈ p.floats, x.isFinite = true)
    (hr : ∀ x ∈ p.floats, x.isFinite = true → (Operand.float x).ReadsBack) :
    ∀ b ∈ blocks, ∀ i ∈ b.body, i.Readable := by
  intro b hmem i hi
  obtain ⟨f, hf, -, hcode⟩ := hb.exists_function hmem
  cases hx : i.float? with
  | none =>
    apply Instruction.Readable.of_src
    intro x hsrc
    rw [Instruction.float?_eq_some.2 hsrc] at hx
    cases hx
  | some x =>
    have hmem : x ∈ p.floats := by
      refine List.mem_flatMap.2 ⟨f, hf, ?_⟩
      rw [← (contents_function (hp f hf) hcode).floats]
      exact List.mem_filterMap.2 ⟨i, hi, hx⟩
    exact .of_number (Instruction.float?_eq_some.1 hx) (hfinite x hmem) (hr x hmem (hfinite x hmem))

/-- The text of a compiled program describes the same image as its code if all names are words and
all numbers finite, and only then. That the text of a finite number stands for that number is
assumed, and that the code is not too long for 64-bit addresses. -/
theorem loads_iff (hc : p.compile = .ok compiled) (hl : compiled.length < 2 ^ 63)
    (hr : ∀ x ∈ p.floats, x.isFinite = true → (Operand.float x).ReadsBack) (optimized : Bool) :
    (∃ code image, p.instructions optimized = .ok code ∧ load (assemble code) = .ok image ∧
      Image.ofInstructions code = .ok image) ↔
      p.Spelled ∧ ∀ x ∈ p.floats, x.isFinite = true := by
  obtain ⟨sigs, blocks, -, hb, rfl, hd, hp⟩ := compile_eq_ok hc
  have hcode : ∀ b ∈ blocks, ∃ d n, StmtCode (fun _ => True) none 0 0 b.body d n :=
    fun b hmem => Blocks.body_code (fun _ => True) hb hp (fun _ _ _ _ => trivial) hmem
  have hinstructions := instructions_of_compile hc hcode optimized
  have himage := (@exists_image p optimized _ _ hb hd hp
    (Nat.lt_of_le_of_lt (Block.flatMap_finished_length_le optimized blocks) hl)).1
  constructor
  · rintro ⟨code, image, h, hload, hof⟩
    cases hinstructions.symm.trans h
    cases himage.symm.trans hof
    exact spelled_of_load hb hd hp hload
  · rintro ⟨hs, hfinite⟩
    have hreadable := readable_of_finite hb hp hfinite hr
    have hunreadable : unreadable (blocks.flatMap Block.code) = [] := by
      refine List.filterMap_eq_nil_iff.2 fun i hi => ?_
      obtain ⟨b, hmem, hi⟩ := List.mem_flatMap.1 hi
      rcases List.mem_cons.1 hi with rfl | hi
      · rfl
      · exact (hreadable b hmem i hi).1
    have hreread : blocks.map Block.reread = blocks := by
      refine (List.map_congr_left fun b hmem => ?_).trans (List.map_id blocks)
      exact Block.reread_of_readable (hreadable b hmem)
    have hload := Block.load_finished hd hcode (hb.spelled hp hs) hl optimized
    -- What loads is the code as it is read from its text, which is the code itself.
    simp only [hunreadable, hreread] at hload
    exact ⟨_, _, hinstructions, hload, himage⟩

def measures : Program where
  functions :=
    [⟨"main", [], [.effect (.call "print" [.literal (.float 2.5)]),
        .ret (some (.call "half_of" [.literal (.float (-1e-7))]))]⟩,
      ⟨"half_of", ["x"], [.ret (some (.arith .mul (.ident "x") (.literal (.float 0.5))))]⟩]

theorem loads_iff_measures :
    (∃ compiled, measures.compile = .ok compiled ∧ compiled.length < 2 ^ 63) ∧
      (∀ x ∈ measures.floats, x.isFinite = true → (Operand.float x).ReadsBack) ∧
      ∃ code image, measures.instructions true = .ok code ∧ load (assemble code) = .ok image ∧
        Image.ofInstructions code = .ok image := by
  have readsBack : ∀ x ∈ measures.floats, x.isFinite = true → (Operand.float x).ReadsBack := by
    decide +kernel
  have spelled : measures.Spelled := by
    rw [Program.Spelled]
    decide
  have finite : ∀ x ∈ measures.floats, x.isFinite = true := by
    decide +kernel
  exact ⟨⟨_, rfl, by decide⟩, readsBack, (loads_iff rfl (by decide) readsBack true).2 ⟨spelled, finite⟩⟩

def phrase : Program :=
  ⟨[⟨"main", [], [.ret (some (.call "a b" []))]⟩]⟩

def excess : Program :=
  ⟨[⟨"main", [], [.ret (some (.literal (.float 1e309)))]⟩]⟩

/-- A function whose name goes on behind the sign that starts a comment. -/
def remark : Program :=
  ⟨[⟨"main;x", [], [.ret (some (.literal (.int 7)))]⟩]⟩

/-- Programs that can be compiled. The text of two of them does not load, and that of the third one
loads as a main routine, which its code does not have. -/
theorem loads_otherwise :
    (phrase.image true).map (fun _ => ()) = .error (.load (.badInstruction 2 "call a b")) ∧
      (excess.image true).map (fun _ => ()) = .error (.load (.badOperand 2 "inf")) ∧
      (remark.image true).map (fun image => (image.find? "main").isSome) = .ok true ∧
      (remark.instructions true).map (fun code =>
        (Image.ofInstructions code).map fun image => (image.find? "main").isSome) =
          .ok (.ok false) := by
  decide +kernel

end Program

end BlueCode
