import BlueCode.Proofs.ProgramImage

namespace BlueCode

open Compile

mutual

def Stmt.hasLoop : Stmt → Bool
  | .declare _ _ | .ret _ | .leave | .effect _ => false
  | .branch _ onTrue none => Stmt.anyLoop onTrue
  | .branch _ onTrue (some onFalse) => Stmt.anyLoop onTrue || Stmt.anyLoop onFalse
  | .loop _ _ => true

def Stmt.anyLoop : List Stmt → Bool
  | [] => false
  | s :: rest => s.hasLoop || Stmt.anyLoop rest

end

/-- No function of the program has a loop. -/
def Program.Loopless (p : Program) : Prop :=
  ∀ f ∈ p.functions, Stmt.anyLoop f.body = false

instance (p : Program) : Decidable p.Loopless :=
  inferInstanceAs (Decidable (∀ f ∈ p.functions, Stmt.anyLoop f.body = false))

/-- Every jump leads to a label that comes later. -/
def Forward : List Instruction → Prop
  | [] => True
  | i :: rest => (∀ label, jumpTarget? i = some label → label ∈ labelNames rest) ∧ Forward rest

namespace Forward

variable {code first rest : List Instruction} {name : String}

theorem nil : Forward [] :=
  trivial

theorem of_jumpNames (h : jumpNames code = []) : Forward code := by
  induction code with
  | nil => trivial
  | cons i rest ih =>
    obtain ⟨hi, hrest⟩ := List.forall_mem_cons.1 (List.filterMap_eq_nil_iff.1 h)
    refine ⟨fun label hj => ?_, ih (List.filterMap_eq_nil_iff.2 hrest)⟩
    rw [hi] at hj
    cases hj

theorem append (hfirst : Forward first) (hrest : Forward rest) : Forward (first ++ rest) := by
  induction first with
  | nil => exact hrest
  | cons i first ih =>
    refine ⟨fun label hj => ?_, ih hfirst.2⟩
    have hlabel := List.mem_append_left (labelNames rest) (hfirst.1 label hj)
    rwa [← labelNames_append] at hlabel

theorem jump (hlabel : name ∈ labelNames rest) (h : Forward rest) :
    Forward (.jump name :: rest) := by
  refine ⟨fun label hj => ?_, h⟩
  cases hj
  exact hlabel

theorem jumpIfNot {o : Operand} (hlabel : name ∈ labelNames rest) (h : Forward rest) :
    Forward (.jumpIfNot o name :: rest) := by
  refine ⟨fun label hj => ?_, h⟩
  cases hj
  exact hlabel

theorem label (name : String) (h : Forward rest) : Forward (.label name :: rest) :=
  ⟨nofun, h⟩

theorem thin (h : Forward code) (last : Instruction) : Forward (thin last code) := by
  induction code generalizing last with
  | nil => trivial
  | cons i rest ih =>
    rw [BlueCode.thin]
    split
    · exact ih h.2 last
    · refine ⟨fun label hj => ?_, ih h.2 i⟩
      rw [labelNames_thin]
      exact h.1 label hj

/-- The label of a jump stands behind it. -/
theorem exists_label (h : Forward code) {position : Nat} {i : Instruction}
    (hi : code[position]? = some i) (hj : jumpTarget? i = some name) :
    ∃ k, position < k ∧ code[k]?.bind Instruction.label? = some name := by
  induction code generalizing position with
  | nil => cases hi
  | cons first rest ih =>
    cases position with
    | zero =>
      cases hi
      obtain ⟨j, hmem, hlabel⟩ := List.mem_filterMap.1 (h.1 name hj)
      obtain ⟨k, hk⟩ := List.mem_iff_getElem?.1 hmem
      refine ⟨k + 1, Nat.succ_pos k, ?_⟩
      rw [List.getElem?_cons_succ, hk]
      exact hlabel
    | succ position =>
      obtain ⟨k, hlt, hk⟩ := ih h.2 hi
      exact ⟨k + 1, Nat.succ_lt_succ hlt, hk⟩

end Forward

namespace Compile

variable {sigs : Signatures} {function : String}

theorem forward_expr {cx : Context} {e : Expr} {code : List Instruction} (h : expr cx e = .ok code) :
    Forward code :=
  .of_jumpNames (expr_code (fun _ => True) e (fun _ _ => trivial) h).jumpNames_eq

mutual

/-- Outside of loops, jumps lead over a branch. -/
theorem forward_stmt : ∀ (s : Stmt) {p p' : Progress} {code : List Instruction}, s.hasLoop = false →
    stmt sigs function none p s = .ok (code, p') → Forward code
  | .declare name value, p, p', code, _, h => by
    obtain ⟨stored, k, hv, -, -, rfl⟩ := stmt_declare_eq_ok h
    exact (forward_expr hv).append (.of_jumpNames rfl)
  | .ret none, p, p', code, _, h => by
    cases h
    exact .of_jumpNames rfl
  | .ret (some value), p, p', code, _, h => by
    obtain ⟨stored, hv, -, rfl⟩ := stmt_ret_eq_ok h
    exact (forward_expr hv).append (.of_jumpNames rfl)
  | .branch condition onTrue none, p, p', code, hs, h => by
    obtain ⟨test, first, ht, hf, rfl⟩ := stmt_branch_eq_ok h
    have hfirst := forward_stmts onTrue hs hf
    rw [List.append_assoc]
    refine (forward_expr ht).append (.jumpIfNot ?_ (hfirst.append (.label _ .nil)))
    simp
  | .branch condition onTrue (some onFalse), p, p', code, hs, h => by
    obtain ⟨test, first, p₁, second, ht, hf, hsecond, rfl⟩ := stmt_branchElse_eq_ok h
    obtain ⟨htrue, hfalse⟩ := Bool.or_eq_false_iff.1 hs
    have hfirst := forward_stmts onTrue htrue hf
    have hlast := (forward_stmts onFalse hfalse hsecond).append
      (.label (p₁.label "PT").1 .nil)
    rw [List.append_assoc, List.append_assoc]
    refine (forward_expr ht).append (.jumpIfNot ?_ (hfirst.append (.jump ?_ (.label _ hlast))))
    · simp
    · simp
  | .loop condition body, _, _, _, hs, _ => nomatch hs
  | .leave, p, p', code, _, h => by cases h
  | .effect e, p, p', code, _, h => forward_expr (stmt_effect_eq_ok h).1

theorem forward_stmts : ∀ (ss : List Stmt) {p p' : Progress} {code : List Instruction},
    Stmt.anyLoop ss = false → stmts sigs function none p ss = .ok (code, p') → Forward code
  | [], p, p', code, _, h => by
    cases h
    trivial
  | s :: rest, p, p', code, hs, h => by
    obtain ⟨first, p₁, others, hf, ho, rfl⟩ := stmts_cons_eq_ok h
    obtain ⟨hfirst, hrest⟩ := Bool.or_eq_false_iff.1 hs
    exact (forward_stmt s hfirst hf).append (forward_stmts rest hrest ho)

end

theorem jumpNames_parameters (params : List String) (o : Operand) :
    jumpNames (params.map fun _ => .mov acc o) = [] := by
  induction params with
  | nil => rfl
  | cons name rest ih => rw [List.map_cons, jumpNames_mov, ih]

theorem forward_function {f : Function} {b : Block} (hs : Stmt.anyLoop f.body = false)
    (hp : f.params.length ≤ 1) (h : Compile.function sigs f = .ok b.code) : Forward b.body := by
  obtain ⟨body, p, hbody, he⟩ := function_eq_ok hp h
  obtain ⟨-, he⟩ := List.cons.inj (he : .define b.name :: b.body = _)
  rw [he]
  exact (Forward.of_jumpNames (jumpNames_parameters _ _)).append (forward_stmts f.body hs hbody)

end Compile

theorem Block.forward_finished {b : Block} (h : Forward b.body) (optimized : Bool) :
    Forward (b.finished optimized).body := by
  cases optimized with
  | false => exact h
  | true => exact h.thin _

def Image.Forward (image : Image) : Prop :=
  ∀ name r, image.find? name = some r → BlueCode.Forward r.code.toList

theorem Program.Loopless.forward {p : Program} {optimized : Bool} {sigs : Signatures}
    {blocks : List Block} (h : p.Loopless) (hb : Blocks sigs p.functions blocks)
    (hd : (blocks.map Block.name).Nodup) (hp : ∀ f ∈ p.functions, f.params.length ≤ 1) :
    (Image.ofBlocks (blocks.map (Block.finished optimized))).Forward := by
  intro name r hr
  obtain ⟨b', hb', -, rfl⟩ := (Image.find?_ofBlocks (Block.names_finished optimized hd) name r).1 hr
  obtain ⟨b, hmem, rfl⟩ := List.mem_map.1 hb'
  obtain ⟨f, hf, -, hcode⟩ := hb.exists_function hmem
  rw [Block.routine, Routine.ofBody_code]
  exact Block.forward_finished (forward_function (h f hf) (hp f hf) hcode) optimized

theorem Routine.Compiled.lt_of_jump {image : Image} {limit : Nat} {r : Routine}
    (h : r.Compiled image limit) (hforward : Forward r.code.toList) {position k : Nat}
    {i : Instruction} {name : String} (hi : r.code[position]? = some i)
    (hj : jumpTarget? i = some name) (hk : r.labels[name]? = some k) : position < k := by
  rw [← Array.getElem?_toList] at hi
  obtain ⟨later, hlt, hlater⟩ := hforward.exists_label hi hj
  have hlabel : (Routine.ofBody r.name r.code.toList).labels[name]? = some later :=
    (Routine.ofBody_labels_getElem? h.tidy.labels name later).2 hlater
  rw [← h.built, hk] at hlabel
  cases hlabel
  exact hlt

end BlueCode
