import BlueCode.Proofs.ProgramImage

namespace BlueCode

open Compile

namespace Compile

/-- A place before, between or behind the statements of a block, or of a block inside one of them.
The code before the place, from the start of the block on, comes last. -/
inductive Boundary (sigs : Signatures) (function : String) :
    Option String → Progress → List Stmt → List Instruction → Prop where
  | here {exit : Option String} {p : Progress} {ss : List Stmt} :
      Boundary sigs function exit p ss []
  | next {exit : Option String} {p p' : Progress} {s : Stmt} {rest : List Stmt}
      {first before : List Instruction} :
      stmt sigs function exit p s = .ok (first, p') → Boundary sigs function exit p' rest before →
      Boundary sigs function exit p (s :: rest) (first ++ before)
  | onTrue {exit : Option String} {p : Progress} {condition : Expr} {onTrue : List Stmt}
      {onFalse : Option (List Stmt)} {rest : List Stmt} {test before : List Instruction} :
      expr ⟨sigs, function, p.declared⟩ condition = .ok test →
      Boundary sigs function exit (p.label "PT").2 onTrue before →
      Boundary sigs function exit p (.branch condition onTrue onFalse :: rest)
        (test ++ .jumpIfNot acc (p.label "PT").1 :: before)
  | onFalse {exit : Option String} {p p' : Progress} {condition : Expr}
      {onTrue onFalse rest : List Stmt} {test first before : List Instruction} :
      expr ⟨sigs, function, p.declared⟩ condition = .ok test →
      stmts sigs function exit (p.label "PT").2 onTrue = .ok (first, p') →
      Boundary sigs function exit (p'.label "PT").2 onFalse before →
      Boundary sigs function exit p (.branch condition onTrue (some onFalse) :: rest)
        (test ++ .jumpIfNot acc (p.label "PT").1 :: first ++ .jump (p'.label "PT").1 ::
          .label (p.label "PT").1 :: before)
  | body {exit : Option String} {p : Progress} {condition : Expr} {body rest : List Stmt}
      {test before : List Instruction} :
      expr ⟨sigs, function, p.declared⟩ condition = .ok test →
      Boundary sigs function (some ((p.label "LOOP_START").2.label "LOOP_END").1)
        ((p.label "LOOP_START").2.label "LOOP_END").2 body before →
      Boundary sigs function exit p (.loop condition body :: rest)
        (.label (p.label "LOOP_START").1 :: test ++
          .jumpIfNot acc ((p.label "LOOP_START").2.label "LOOP_END").1 :: before)

variable {sigs : Signatures} {function : String} {exit : Option String} {p p' : Progress}
  {ss : List Stmt} {before code : List Instruction}

theorem Boundary.settle_eq (h : Boundary sigs function exit p ss before) :
    settle 0 before = some 0 := by
  have htest {cx : Context} {e : Expr} {test : List Instruction} (h : expr cx e = .ok test) :
      settle 0 test = some 0 :=
    (expr_code (fun _ => True) e (fun _ _ => trivial) h).settle_eq 0
  induction h with
  | here => rfl
  | next hs _ ih =>
    have hcode := stmt_code (fun _ => True) _ (fun _ _ => trivial) hs
    exact settle_append_zero hcode.settle_eq ih
  | onTrue ht _ ih => exact settle_append_zero (htest ht) (settle_cons_zero rfl ih)
  | onFalse ht hs _ ih =>
    have hcode := stmts_code (fun _ => True) _ (fun _ _ => trivial) hs
    refine settle_append_zero (settle_append_zero (htest ht) ?_) ?_
    · exact settle_cons_zero rfl hcode.settle_eq
    · exact settle_cons_zero rfl (settle_cons_zero rfl ih)
  | body ht _ ih =>
    exact settle_append_zero (settle_cons_zero rfl (htest ht)) (settle_cons_zero rfl ih)

theorem Boundary.isPrefix (h : Boundary sigs function exit p ss before)
    (hc : stmts sigs function exit p ss = .ok (code, p')) : before <+: code := by
  induction h generalizing code p' with
  | here => exact List.nil_prefix
  | next hs _ ih =>
    obtain ⟨first, p₁, others, hs', ho, rfl⟩ := stmts_cons_eq_ok hc
    cases hs.symm.trans hs'
    exact (List.prefix_append_right_inj _).2 (ih ho)
  | @onTrue _ _ _ _ onFalse _ _ _ ht _ ih =>
    obtain ⟨whole, p₁, others, hw, ho, rfl⟩ := stmts_cons_eq_ok hc
    cases onFalse with
    | none =>
      obtain ⟨test, first, ht', hf, rfl⟩ := stmt_branch_eq_ok hw
      cases ht.symm.trans ht'
      obtain ⟨after, rfl⟩ := ih hf
      simp
    | some onFalse =>
      obtain ⟨test, first, p₂, second, ht', hf, hs, rfl⟩ := stmt_branchElse_eq_ok hw
      cases ht.symm.trans ht'
      obtain ⟨after, rfl⟩ := ih hf
      simp
  | onFalse ht hf _ ih =>
    obtain ⟨whole, p₁, others, hw, ho, rfl⟩ := stmts_cons_eq_ok hc
    obtain ⟨test, first, p₂, second, ht', hf', hs, rfl⟩ := stmt_branchElse_eq_ok hw
    cases ht.symm.trans ht'
    cases hf.symm.trans hf'
    obtain ⟨after, rfl⟩ := ih hs
    simp
  | body ht _ ih =>
    obtain ⟨whole, p₁, others, hw, ho, rfl⟩ := stmts_cons_eq_ok hc
    obtain ⟨test, inner, ht', hb, rfl⟩ := stmt_loop_eq_ok hw
    cases ht.symm.trans ht'
    obtain ⟨after, rfl⟩ := ih hb
    simp

end Compile

def Function.Boundary (sigs : Signatures) (f : Function) (before : List Instruction) : Prop :=
  ∃ inner, Compile.Boundary sigs f.name none ⟨f.params.take 1, 0⟩ f.body inner ∧
    before = .define f.name :: (f.params.take 1).map (fun _ => .mov acc (.heap 0)) ++ inner

/-- The call stands between two statements of its function. In optimized code the place is where the
code before it ends. -/
def Program.AtBoundary (p : Program) (optimized : Bool) (frame : Frame) : Prop :=
  ∃ sigs f before, signatures [] p.functions = .ok sigs ∧ f ∈ p.functions ∧
    f.name = frame.routine.name ∧ f.Boundary sigs before ∧
    frame.position + 1 = (if optimized then optimize before else before).length

namespace State

inductive Entry (settings : Settings) (image : Image) : State → Prop where
  | main {main : Routine} : image.find? "main" = some main → Entry settings image (.start main)
  | call {s t : State} : s.Reachable settings image → s.step settings image = .ok (.entered t) →
      Entry settings image t

/-- The states from the first one on in which the call that starts there is live. -/
inductive Live (settings : Settings) (image : Image) (entry : State) : State → Prop where
  | entry : Live settings image entry entry
  | step {s next : State} {transition : Transition} : Live settings image entry s →
      s.step settings image = .ok transition → transition.next? = some next →
      entry.depth ≤ next.depth → Live settings image entry next

end State

/-- The stack cells that calls take while they wait. -/
def Frame.cells (callers : List Frame) : Nat :=
  (callers.map fun caller => caller.pending + 1).sum

/-- What holds of the stack in all states that a run of an image can be in. -/
structure StackDiscipline (p : Program) (optimized : Bool) (settings : Settings) (image : Image) :
    Prop where
  /-- The stack has the cells below the stack pointer. -/
  cells {s : State} : s.Reachable settings image → ∀ cell,
    (s.stack.get? cell).isSome ↔ 0 ≤ cell ∧ cell < s.stackPointer.toInt
  /-- The topmost cells are the operands of the current call. -/
  stackPointer {s : State} : s.Reachable settings image →
    s.stackPointer.toInt = (Frame.cells s.callers.toList + s.frame.pending : Nat)
  /-- A call that waits stands at the call of the next one, and has its operands on the stack and
  above them the address behind the call. -/
  address {s : State} : s.Reachable settings image → ∀ below caller above,
    s.callers.toList = below ++ caller :: above →
    (∃ callee, (above ++ [s.frame]).head? = some callee ∧
      caller.instruction? = some (.call callee.routine.name)) ∧
    s.stack.get? (Frame.cells below + caller.pending : Nat) =
      some (.int (.ofNat (caller.position + 1)))
  /-- Between statements the stack pointer is where it was when the call started. -/
  boundary {entry s : State} : entry.Entry settings image → entry.Live settings image s →
    s.depth = entry.depth → p.AtBoundary optimized s.frame → s.stackPointer = entry.stackPointer
  /-- A return restores the stack pointer, and the caller goes on behind the call. -/
  resumes {s entry last next : State} : s.Reachable settings image →
    s.step settings image = .ok (.entered entry) → entry.Live settings image last →
    last.step settings image = .ok (.left next) → next.depth = s.depth →
    next.stackPointer = s.stackPointer ∧ next.frame = { s.frame with position := s.frame.position + 1 } ∧
      next.callers = s.callers
  /-- Nothing keeps a call from returning. -/
  returns {s : State} : s.Reachable settings image →
    s.instruction? = none ∨ s.instruction? = some .ret →
    ∃ transition, s.step settings image = .ok transition
  /-- No step fails because the code does not fit the machine. -/
  errors {s : State} {e : RunError} : s.Reachable settings image →
    s.step settings image = .error e → e.isInternal = false
  /-- No run ends for that reason. -/
  runs {fuel : Nat} {o : Outcome} {e : RunError} : image.run settings fuel = some o →
    o.result = .error e → e.isInternal = false

namespace Compile

theorem pending_of_isPrefix {before body : List Instruction} {after : Nat}
    (h : settle 0 body = some after) (hs : settle 0 before = some 0) (hp : before <+: body) :
    pending body before.length = 0 := by
  have ht := settle_take h before.length
  rw [← List.prefix_iff_eq_take.1 hp, hs] at ht
  exact (Option.some.inj ht).symm

theorem settle_parameters (params : List String) :
    settle 0 ((params.take 1).map fun _ => .mov acc (.heap 0)) = some 0 := by
  cases params <;> rfl

end Compile

theorem Function.Boundary.exists_prefix {sigs : Signatures} {f : Function}
    {before code : List Instruction} (h : f.Boundary sigs before)
    (hc : Compile.function sigs f = .ok code) :
    ∃ inner, before = .define f.name :: inner ∧ settle 0 inner = some 0 ∧
      before <+: code := by
  obtain ⟨inner, hb, rfl⟩ := h
  rw [Compile.function] at hc
  obtain ⟨⟨body, q⟩, hbody, hc⟩ := bind_eq_ok.1 hc
  cases hc
  refine ⟨_, rfl, settle_append_zero (settle_parameters _) hb.settle_eq, ?_⟩
  exact (List.prefix_append_right_inj _).2 (hb.isPrefix hbody)

theorem Program.AtBoundary.pending_eq_zero {p : Program} {optimized : Bool} {sigs : Signatures}
    {blocks : List Block} (hs : signatures [] p.functions = .ok sigs)
    (hb : Blocks sigs p.functions blocks) (hd : (blocks.map Block.name).Nodup)
    (hp : ∀ f ∈ p.functions, f.params.length ≤ 1) {frame : Frame}
    (hf : (Image.ofBlocks (blocks.map (Block.finished optimized))).find? frame.routine.name =
      some frame.routine)
    (h : p.AtBoundary optimized frame) : frame.pending = 0 := by
  obtain ⟨sigs', f, before, hs', hmem, hname, hbefore, hposition⟩ := h
  cases hs.symm.trans hs'
  obtain ⟨b, hblock, hbname, hcode⟩ := hb.exists_block hmem
  obtain ⟨d, n, hbody⟩ := Blocks.body_code (fun _ => True) hb hp (fun _ _ _ _ => trivial) hblock
  obtain ⟨inner, rfl, hinner, hprefix⟩ := hbefore.exists_prefix hcode
  have hd' := Block.names_finished optimized hd
  have hfound : (Image.ofBlocks (blocks.map (Block.finished optimized))).find? frame.routine.name =
      some (b.finished optimized).routine := by
    refine (Image.find?_ofBlocks hd' _ _).2 ⟨_, List.mem_map_of_mem hblock, ?_, rfl⟩
    rw [Block.finished_name, hbname, hname]
  have hcodes : frame.routine.code.toList = (b.finished optimized).body := by
    rw [← Option.some.inj (hfound.symm.trans hf), Block.routine, Routine.ofBody_code]
  have hinner' : inner <+: b.body := (List.cons_prefix_cons.1 hprefix).2
  rw [Frame.pending, hcodes]
  cases optimized with
  | false =>
    have hlast : frame.position = inner.length := Nat.succ.inj hposition
    rw [hlast]
    exact pending_of_isPrefix hbody.settle_eq hinner hinner'
  | true =>
    have hseparated : Separated (.define f.name :: inner) :=
      List.IsChain.prefix (Apart.cons (by simp [Instruction.define]) hbody.apart).separated
        (List.cons_prefix_cons.2 ⟨rfl, hinner'⟩)
    rw [if_pos rfl, optimize_eq_thin hseparated, thin, isReversedMove_ret] at hposition
    have hlast : frame.position = (thin (.define b.name) inner).length := by
      rw [hbname]
      exact Nat.succ.inj hposition
    obtain ⟨after, hafter⟩ := hinner'
    rw [hlast]
    refine pending_of_isPrefix ((settle_thin ..).trans hbody.settle_eq)
      ((settle_thin ..).trans hinner) ?_
    change _ <+: thin (.define b.name) b.body
    rw [← hafter, thin_append]
    exact List.prefix_append _ _

section

variable {settings : Settings} {image : Image} {limit : Nat}

theorem State.Entry.reachable {entry : State} (h : entry.Entry settings image) :
    entry.Reachable settings image := by
  cases h with
  | main hmain => exact .start hmain
  | call hs hstep => exact .step hs hstep rfl

theorem State.Live.reachable {entry s : State} (h : entry.Live settings image s)
    (he : entry.Reachable settings image) : s.Reachable settings image := by
  induction h with
  | entry => exact he
  | step _ hs hn _ ih => exact .step ih hs hn

namespace Calls

theorem of_entry (hlimit : limit < 2 ^ 63) (himage : image.Compiled limit) {entry : State}
    (h : entry.Entry settings image) :
    ∃ c : Calls, c.Proper settings image limit ∧ c.state = entry ∧ c.waiting = [] := by
  cases h with
  | main hmain => exact ⟨_, .initial (himage _ _ hmain).2, initial_state _, rfl⟩
  | call hs hstep =>
    obtain ⟨c, hc, rfl⟩ := Proper.of_reachable hlimit himage hs
    have hleads := hc.leads hlimit himage
    rw [hstep] at hleads
    cases hleads with
    | entered h' => exact ⟨_, h', rfl, rfl⟩

theorem of_live (hlimit : limit < 2 ^ 63) (himage : image.Compiled limit) {c : Calls}
    (hc : c.Proper settings image limit) {s : State} (h : c.state.Live settings image s) :
    ∃ c' : Calls, c'.Proper settings image limit ∧ c'.state = s ∧ c.callers <:+ c'.callers := by
  induction h with
  | entry => exact ⟨c, hc, rfl, List.suffix_refl _⟩
  | step _ hs hn hdepth ih =>
    obtain ⟨c', hc', rfl, hsuffix⟩ := ih
    have hleads := hc'.leads hlimit himage
    rw [hs] at hleads
    cases hleads with
    | moved h' hcallers =>
      cases hn
      exact ⟨_, h', rfl, by rwa [hcallers]⟩
    | printed h' hcallers =>
      cases hn
      exact ⟨_, h', rfl, by rwa [hcallers]⟩
    | entered h' =>
      cases hn
      exact ⟨_, h', rfl, hsuffix.trans (List.suffix_cons _ _)⟩
    | @left caller rest hcallers _ h' =>
      cases hn
      refine ⟨_, h', rfl, ?_⟩
      have hlength : (c'.resume caller rest).callers.length = rest.length := rfl
      rw [state_depth, state_depth, hlength] at hdepth
      rw [hcallers, List.suffix_cons_iff] at hsuffix
      refine hsuffix.resolve_left fun he => ?_
      rw [he, List.length_cons] at hdepth
      omega
    | halted => cases hn

theorem cells_callers {callers : List Activation} {frame : Frame}
    (h : Waiting image limit callers frame) :
    Frame.cells (callers.map Activation.frame).reverse = (returns callers).length := by
  induction h with
  | main => rfl
  | @call caller rest _ _ _ hp _ _ ih =>
    rw [Frame.cells] at ih ⊢
    simp only [List.map_cons, List.reverse_cons, List.map_append, List.sum_append, ih, returns,
      List.length_cons, List.length_append, hp, List.map_nil, List.sum_cons, List.sum_nil]
    omega

theorem waiting_of_append {above below : List Activation} {caller : Activation} {frame : Frame}
    (h : Waiting image limit (above ++ caller :: below) frame) :
    Waiting image limit below caller.frame ∧ caller.waiting.length = caller.frame.pending ∧
      ∃ callee, ((above.map Activation.frame).reverse ++ [frame]).head? = some callee ∧
        caller.frame.instruction? = some (.call callee.routine.name) := by
  induction above generalizing frame with
  | nil =>
    cases h with
    | call hw _ hp hi _ => exact ⟨hw, hp, frame, rfl, hi⟩
  | cons first above ih =>
    cases h with
    | call hw _ _ _ _ =>
      obtain ⟨hw', hp, callee, hhead, hi⟩ := ih hw
      refine ⟨hw', hp, callee, ?_, hi⟩
      rw [List.map_cons, List.reverse_cons, List.head?_append, hhead]
      rfl

theorem get?_address {c : Calls} {above below : List Activation} {caller : Activation}
    (hc : c.callers = above ++ caller :: below) :
    c.state.stack.get? ((caller.waiting ++ returns below).length : Nat) =
      some (.int (.ofNat (caller.frame.position + 1))) := by
  have hreturns (above : List Activation) : ∃ values, returns (above ++ caller :: below) =
      values ++ .int (.ofNat (caller.frame.position + 1)) :: (caller.waiting ++ returns below) := by
    induction above with
    | nil => exact ⟨[], rfl⟩
    | cons first above ih =>
      obtain ⟨values, hv⟩ := ih
      refine ⟨.int (.ofNat (first.frame.position + 1)) :: (first.waiting ++ values), ?_⟩
      rw [List.cons_append, returns, hv]
      simp
  obtain ⟨values, hv⟩ := hreturns above
  have hcells : c.cells = (c.waiting ++ values) ++ .int (.ofNat (caller.frame.position + 1)) ::
      (caller.waiting ++ returns below) := by
    rw [cells, hc, hv, List.append_assoc]
  change (Memory.ofStack c.cells).get? _ = _
  rw [hcells]
  exact Memory.get?_ofStack_append _ _ _

theorem stackPointer_toInt {c : Calls} (h : c.Proper settings image limit) :
    c.state.stackPointer.toInt = (Frame.cells c.state.callers.toList + c.frame.pending : Nat) := by
  have hcallers : c.state.callers.toList = (c.callers.map Activation.frame).reverse :=
    List.toList_toArray
  have hpointer : c.state.stackPointer.toInt = c.height := toInt_ofNat h.height
  rw [hcallers, cells_callers h.callers, hpointer, height, cells, List.length_append, h.pending,
    Nat.add_comm]

theorem address_of_callers {c : Calls} (h : c.Proper settings image limit)
    {below above : List Frame} {caller : Frame}
    (hc : c.state.callers.toList = below ++ caller :: above) :
    (∃ callee, (above ++ [c.frame]).head? = some callee ∧
      caller.instruction? = some (.call callee.routine.name)) ∧
    c.state.stack.get? (Frame.cells below + caller.pending : Nat) =
      some (.int (.ofNat (caller.position + 1))) := by
  have hcallers : c.callers.map Activation.frame = above.reverse ++ caller :: below.reverse := by
    have hr : (c.callers.map Activation.frame).reverse = below ++ caller :: above := hc
    rw [List.reverse_eq_iff] at hr
    rw [hr]
    simp
  obtain ⟨later, rest, hsplit, hlater, hrest⟩ := List.map_eq_append_iff.1 hcallers
  obtain ⟨first, earlier, rfl, rfl, hearlier⟩ := List.map_eq_cons_iff.1 hrest
  have hw := h.callers
  rw [hsplit] at hw
  obtain ⟨hwait, hpending, callee, hhead, hi⟩ := waiting_of_append hw
  rw [hlater, List.reverse_reverse] at hhead
  have hcells := cells_callers hwait
  rw [hearlier, List.reverse_reverse] at hcells
  refine ⟨⟨callee, hhead, hi⟩, ?_⟩
  rw [hcells, ← hpending, Nat.add_comm, ← List.length_append]
  exact get?_address hsplit

/-- A return leads to the caller, with the stack as it was. -/
theorem resumes {c : Calls} (hlimit : limit < 2 ^ 63) (himage : image.Compiled limit)
    (hc : c.Proper settings image limit) {entry last next : State}
    (hs : c.state.step settings image = .ok (.entered entry))
    (hlive : entry.Live settings image last) (hlast : last.step settings image = .ok (.left next))
    (hdepth : next.depth = c.state.depth) :
    next.stackPointer = c.state.stackPointer ∧
      next.frame = { c.frame with position := c.frame.position + 1 } ∧
      next.callers = c.state.callers := by
  have hleads := hc.leads hlimit himage
  rw [hs] at hleads
  cases hleads with
  | entered henter =>
    obtain ⟨c', hc', rfl, hsuffix⟩ := of_live hlimit himage henter hlive
    have hleads := hc'.leads hlimit himage
    rw [hlast] at hleads
    cases hleads with
    | @left caller rest hcallers _ h' =>
      have hlength : (c'.resume caller rest).callers.length = rest.length := rfl
      rw [state_depth, state_depth, hlength] at hdepth
      rw [hcallers] at hsuffix
      have he : ⟨c.frame, c.waiting⟩ :: c.callers = caller :: rest := by
        refine hsuffix.eq_of_length ?_
        change c.callers.length + 1 = rest.length + 1
        exact hdepth.symm
      cases he
      exact ⟨rfl, rfl, rfl⟩

/-- Where nothing waits, the stack pointer is where it was when the call started. -/
theorem stackPointer_of_live (hlimit : limit < 2 ^ 63) (himage : image.Compiled limit)
    {entry s : State} (he : entry.Entry settings image) (hlive : entry.Live settings image s)
    (hdepth : s.depth = entry.depth)
    (hp : image.find? s.frame.routine.name = some s.frame.routine → s.frame.pending = 0) :
    s.stackPointer = entry.stackPointer := by
  obtain ⟨c, hc, rfl, hw⟩ := of_entry hlimit himage he
  obtain ⟨c', hc', rfl, hsuffix⟩ := of_live hlimit himage hc hlive
  rw [state_depth, state_depth] at hdepth
  have hcallers : c.callers = c'.callers := hsuffix.eq_of_length (Nat.succ.inj hdepth).symm
  have hw' : c'.waiting = [] := by
    rw [← List.length_eq_zero_iff, hc'.pending]
    exact hp hc'.compiled.found
  change Int64.ofNat c'.height = Int64.ofNat c.height
  rw [height, height, cells, cells, hw, hw', hcallers]

theorem returns_ok {c : Calls} (hlimit : limit < 2 ^ 63) (hc : c.Proper settings image limit)
    (hi : c.instruction? = none ∨ c.instruction? = some .ret) :
    ∃ transition, c.state.step settings image = .ok transition := by
  have hleave : c.waiting = [] ∧ c.state.step settings image = c.state.leave :=
    hi.elim hc.step_end hc.step_ret
  obtain ⟨hw, hs⟩ := hleave
  rw [hs]
  obtain ⟨-, hs⟩ | ⟨_, _, -, hs⟩ := hc.leave_eq hlimit hw
  · exact ⟨_, hs⟩
  · exact ⟨_, hs⟩

end Calls

end

/-- The stack discipline of compiled programs. -/
theorem Program.stack_discipline {p : Program} {optimized : Bool} {code : List Instruction}
    {settings : Settings} (hc : p.instructions optimized = .ok code)
    (hroom : (settings.maxCallDepth + 1) * (code.length + 1) < 2 ^ 63) :
    ∃ image, Image.ofInstructions code = .ok image ∧
      StackDiscipline p optimized settings image := by
  obtain ⟨sigs, blocks, hs, hb, rfl, hd, hp⟩ := Program.instructions_eq_ok hc
  have hlimit : ((blocks.map (Block.finished optimized)).flatMap Block.code).length < 2 ^ 63 := by
    rw [Nat.succ_mul] at hroom
    omega
  obtain ⟨hload, himage⟩ := Program.exists_image hb hd hp hlimit
  refine ⟨_, hload, ?_⟩
  have hcrowded : ¬ settings.Crowded _ := Nat.not_le.2 hroom
  constructor
  case cells =>
    intro s h cell
    obtain ⟨c, hc, rfl⟩ := Calls.Proper.of_reachable hlimit himage h
    have hpointer : c.state.stackPointer.toInt = c.height := toInt_ofNat hc.height
    rw [hpointer]
    exact Memory.get?_ofStack _ _
  case stackPointer =>
    intro s h
    obtain ⟨c, hc, rfl⟩ := Calls.Proper.of_reachable hlimit himage h
    exact Calls.stackPointer_toInt hc
  case address =>
    intro s h below caller above hcallers
    obtain ⟨c, hc, rfl⟩ := Calls.Proper.of_reachable hlimit himage h
    exact Calls.address_of_callers hc hcallers
  case boundary =>
    intro entry s he hlive hdepth hboundary
    exact Calls.stackPointer_of_live hlimit himage he hlive hdepth fun hf =>
      hboundary.pending_eq_zero hs hb hd hp hf
  case resumes =>
    intro s entry last next h hstep hlive hlast hdepth
    obtain ⟨c, hc, rfl⟩ := Calls.Proper.of_reachable hlimit himage h
    exact Calls.resumes hlimit himage hc hstep hlive hlast hdepth
  case returns =>
    intro s h hi
    obtain ⟨c, hc, rfl⟩ := Calls.Proper.of_reachable hlimit himage h
    exact Calls.returns_ok hlimit hc hi
  case errors =>
    intro s e h he
    obtain ⟨c, hc, rfl⟩ := Calls.Proper.of_reachable hlimit himage h
    exact hc.error_not_internal hlimit himage hcrowded he
  case runs =>
    intro fuel o e hrun he
    unfold Image.run at hrun
    split at hrun
    · next main hmain =>
      obtain ⟨s, h, hstep⟩ := State.exists_error (.start hmain) hrun he
      obtain ⟨c, hc, rfl⟩ := Calls.Proper.of_reachable hlimit himage h
      exact hc.error_not_internal hlimit himage hcrowded hstep
    · cases hrun
      cases he
      rfl

theorem Program.stack_discipline_factorial :
    ∃ code image, Program.factorial.instructions false = .ok code ∧
      (({} : Settings).maxCallDepth + 1) * (code.length + 1) < 2 ^ 63 ∧
      Image.ofInstructions code = .ok image ∧
      StackDiscipline Program.factorial false {} image := by
  have room : (({} : Settings).maxCallDepth + 1) *
      ((Program.factorial.instructions false).toOption.getD []).length.succ < 2 ^ 63 := by
    decide
  obtain ⟨image, himage, h⟩ :=
    @Program.stack_discipline Program.factorial false _ {} rfl room
  exact ⟨_, image, rfl, room, himage, h⟩

end BlueCode
