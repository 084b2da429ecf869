import BlueCode.Peephole
import BlueCode.Proofs.TidyCode

namespace BlueCode

open Peephole

/-- The instructions without moves that move back what the one kept before has moved. -/
def thin (last : Instruction) : List Instruction → List Instruction
  | [] => []
  | i :: rest => if isReversedMove last i then thin last rest else i :: thin i rest

/-- The last instruction that is kept of some that follow another one. -/
def lastKept (last : Instruction) : List Instruction → Instruction
  | [] => last
  | i :: rest => if isReversedMove last i then lastKept last rest else lastKept i rest

/-- Where the instruction at a place of the code is found after thinning. -/
def kept (last : Instruction) (code : List Instruction) (position : Nat) : Nat :=
  (thin last (code.take position)).length

/-- A push is never followed by a pop. -/
def Separated (code : List Instruction) : Prop :=
  code.IsChain fun first second => first.op = .push → second.op ≠ .pop

theorem fuse?_eq_none {first second : Instruction} {rest : List Instruction}
    (h : first.op = .push → second.op ≠ .pop) : fuse? (first :: second :: rest) = none := by
  cases rest with
  | nil => rfl
  | cons third rest =>
    rw [fuse?]
    split
    · rw [if_neg]
      rintro ⟨hpush, hpop, -⟩
      exact h hpush hpop
    · rfl

theorem isReversedMove_op {first second : Instruction} (h : isReversedMove first second) :
    first.op = .mov ∧ second.op = .mov := by
  simp only [isReversedMove, Bool.and_eq_true, decide_eq_true_eq] at h
  exact ⟨h.1.1.1.1, h.1.1.1.2⟩

theorem isReversedMove_eq_false {first second : Instruction} (h : second.op ≠ .mov) :
    isReversedMove first second = false :=
  Bool.eq_false_iff.2 fun hr => h (isReversedMove_op hr).2

theorem run_cons {before rest : List Instruction} {first second : Instruction}
    (hr : isReversedMove first second = false) (hs : first.op = .push → second.op ≠ .pop) :
    Peephole.run before (first :: second :: rest) =
      Peephole.run (first :: before) (second :: rest) := by
  rw [Peephole.run, hr, fuse?_eq_none hs]
  rfl

/-- Where it removes a move, it goes on at the move before: the look back finds nothing. -/
theorem run_reversed {before rest : List Instruction} {first second : Instruction}
    (hb : ∀ last ∈ before.head?, isReversedMove last first = false ∧
      (last.op = .push → first.op ≠ .pop))
    (hr : isReversedMove first second) :
    Peephole.run before (first :: second :: rest) = Peephole.run before (first :: rest) := by
  rw [Peephole.run, if_pos hr]
  cases before with
  | nil => rfl
  | cons last earlier =>
    obtain ⟨hl, hs⟩ := hb last rfl
    exact run_cons hl hs

theorem Separated.of_cons {i : Instruction} {rest : List Instruction} (h : Separated (i :: rest)) :
    Separated rest :=
  List.IsChain.tail h

theorem Separated.head {first second : Instruction} {rest : List Instruction}
    (h : Separated (first :: second :: rest)) : first.op = .push → second.op ≠ .pop :=
  (List.isChain_cons_cons.1 h).1

theorem run_eq_thin {before rest : List Instruction} {first : Instruction}
    (hb : ∀ last ∈ before.head?, isReversedMove last first = false ∧
      (last.op = .push → first.op ≠ .pop))
    (hs : Separated (first :: rest)) :
    Peephole.run before (first :: rest) = before.reverse ++ first :: thin first rest := by
  induction rest generalizing before first with
  | nil => simp [Peephole.run, thin]
  | cons second rest ih =>
    cases hr : isReversedMove first second with
    | true =>
      rw [run_reversed hb hr, thin, if_pos hr]
      apply ih hb
      -- A move is not a push, whatever comes to follow it.
      refine List.isChain_cons.2 ⟨fun _ _ hpush => ?_, hs.of_cons.of_cons⟩
      rw [(isReversedMove_op hr).1] at hpush
      cases hpush
    | false =>
      have hb' : ∀ last ∈ (first :: before).head?, isReversedMove last second = false ∧
          (last.op = .push → second.op ≠ .pop) := by
        rintro last hl
        cases hl
        exact ⟨hr, hs.head⟩
      rw [run_cons hr hs.head, ih hb' hs.of_cons, thin, hr]
      simp

theorem isReversedMove_ret (i : Instruction) : isReversedMove .ret i = false := rfl

theorem optimize_eq_thin {code : List Instruction} (h : Separated code) :
    optimize code = thin .ret code := by
  cases code with
  | nil => simp [optimize, Peephole.run, thin]
  | cons i rest =>
    rw [thin, isReversedMove_ret]
    exact run_eq_thin (fun _ hl => absurd hl (Option.not_mem_none _)) h

theorem thin_append (last : Instruction) (first rest : List Instruction) :
    thin last (first ++ rest) = thin last first ++ thin (lastKept last first) rest := by
  induction first generalizing last with
  | nil => rfl
  | cons i first ih =>
    rw [List.cons_append, thin, thin, lastKept]
    split
    · exact ih last
    · rw [ih i, List.cons_append]

theorem lastKept_append (last : Instruction) (first rest : List Instruction) :
    lastKept last (first ++ rest) = lastKept (lastKept last first) rest := by
  induction first generalizing last with
  | nil => rfl
  | cons i first ih =>
    rw [List.cons_append, lastKept, lastKept]
    split
    · exact ih last
    · exact ih i

theorem thin_sublist (last : Instruction) (code : List Instruction) :
    (thin last code).Sublist code := by
  induction code generalizing last with
  | nil => exact .slnil
  | cons i rest ih =>
    rw [thin]
    split
    · exact (ih last).cons i
    · exact (ih i).cons_cons i

theorem thin_length_le (last : Instruction) (code : List Instruction) :
    (thin last code).length ≤ code.length :=
  (thin_sublist last code).length_le

/-- An instruction that is not kept is the reverse of one that is. -/
theorem mem_thin {last i : Instruction} {code : List Instruction} (h : i ∈ code) :
    i ∈ thin last code ∨ ∃ j ∈ last :: thin last code, isReversedMove j i := by
  induction code generalizing last with
  | nil => cases h
  | cons first rest ih =>
    rw [thin]
    cases hr : isReversedMove last first with
    | true =>
      rcases List.mem_cons.1 h with rfl | h
      · exact .inr ⟨last, List.mem_cons_self, hr⟩
      · exact ih h
    | false =>
      rcases List.mem_cons.1 h with rfl | h
      · exact .inl List.mem_cons_self
      · rcases @ih first h with h | ⟨j, hj, hi⟩
        · exact .inl (List.mem_cons_of_mem first h)
        · exact .inr ⟨j, List.mem_cons_of_mem last hj, hi⟩

theorem filterMap_thin {α : Type} {f : Instruction → Option α}
    (hf : ∀ i : Instruction, i.op = .mov → f i = none) (last : Instruction)
    (code : List Instruction) : (thin last code).filterMap f = code.filterMap f := by
  induction code generalizing last with
  | nil => rfl
  | cons i rest ih =>
    rw [thin]
    split
    · next hr => rw [ih last, List.filterMap_cons_none (hf i (isReversedMove_op hr).2)]
    · rw [List.filterMap_cons, List.filterMap_cons, ih i]

theorem labelNames_thin (last : Instruction) (code : List Instruction) :
    labelNames (thin last code) = labelNames code :=
  filterMap_thin (fun i hi => by simp [Instruction.label?, hi]) last code

theorem settle_thin (waiting : Nat) (last : Instruction) (code : List Instruction) :
    settle waiting (thin last code) = settle waiting code := by
  induction code generalizing waiting last with
  | nil => rfl
  | cons i rest ih =>
    rw [thin]
    split
    · next hr =>
      rw [ih, settle_cons, (isReversedMove_op hr).2]
      rfl
    · simp only [settle_cons, ih]

section

variable {last i : Instruction} {code : List Instruction} {position : Nat}

theorem kept_zero : kept last code 0 = 0 := by
  rw [kept, List.take_zero, thin, List.length_nil]

theorem kept_le (last : Instruction) (code : List Instruction) (position : Nat) :
    kept last code position ≤ position :=
  Nat.le_trans (thin_length_le _ _) (List.length_take_le _ _)

theorem kept_of_length_le (h : code.length ≤ position) :
    kept last code position = (thin last code).length := by
  rw [kept, List.take_of_length_le h]

theorem drop_kept (last : Instruction) (code : List Instruction) (position : Nat) :
    (thin last code).drop (kept last code position) =
      thin (lastKept last (code.take position)) (code.drop position) := by
  have h := thin_append last (code.take position) (code.drop position)
  rw [List.take_append_drop] at h
  rw [h, kept, List.drop_left]

theorem drop_of_getElem? (h : code[position]? = some i) :
    code.drop position = i :: code.drop (position + 1) := by
  obtain ⟨hp, rfl⟩ := List.getElem?_eq_some_iff.1 h
  exact List.drop_eq_getElem_cons hp

theorem getElem?_kept (h : code[position]? = some i)
    (hr : isReversedMove (lastKept last (code.take position)) i = false) :
    (thin last code)[kept last code position]? = some i := by
  rw [← List.head?_drop, drop_kept, drop_of_getElem? h, thin, hr]
  rfl

theorem kept_succ (h : code[position]? = some i)
    (hr : isReversedMove (lastKept last (code.take position)) i = false) :
    kept last code (position + 1) = kept last code position + 1 := by
  rw [kept, List.take_add_one, h, thin_append, List.length_append, kept, Option.toList_some, thin, hr]
  rfl

theorem lastKept_succ (h : code[position]? = some i)
    (hr : isReversedMove (lastKept last (code.take position)) i = false) :
    lastKept last (code.take (position + 1)) = i := by
  rw [List.take_add_one, h, lastKept_append, Option.toList_some, lastKept, hr]
  rfl

theorem kept_succ_of_reversed (h : code[position]? = some i)
    (hr : isReversedMove (lastKept last (code.take position)) i) :
    kept last code (position + 1) = kept last code position := by
  rw [kept, List.take_add_one, h, thin_append, List.length_append, kept, Option.toList_some, thin,
    if_pos hr]
  rfl

theorem lastKept_succ_of_reversed (h : code[position]? = some i)
    (hr : isReversedMove (lastKept last (code.take position)) i) :
    lastKept last (code.take (position + 1)) = lastKept last (code.take position) := by
  rw [List.take_add_one, h, lastKept_append, Option.toList_some, lastKept, if_pos hr]
  rfl

theorem getElem?_kept_of_length_le (h : code.length ≤ position) :
    (thin last code)[kept last code position]? = none := by
  rw [kept_of_length_le h]
  exact List.getElem?_eq_none (Nat.le_refl _)

theorem lastKept_mem (last : Instruction) (code : List Instruction) :
    lastKept last code ∈ last :: code := by
  induction code generalizing last with
  | nil => exact List.mem_singleton_self last
  | cons i rest ih =>
    rw [lastKept]
    split
    · rcases List.mem_cons.1 (ih last) with h | h
      · exact List.mem_cons.2 (.inl h)
      · exact List.mem_cons_of_mem _ (List.mem_cons_of_mem _ h)
    · exact List.mem_cons_of_mem _ (ih i)

end

namespace Compile

variable {callable : String → Prop} {exit : Option String} {d n d' n' : Nat}
  {code body : List Instruction}

theorem jumpNames_thin (last : Instruction) (code : List Instruction) :
    jumpNames (thin last code) = jumpNames code :=
  filterMap_thin (fun i hi => by simp [jumpTarget?, hi]) last code

theorem Emitted.of_reversed_store {last : Instruction} {address : Int64}
    (hl : Emitted callable d last) (h : isReversedMove last (.mov acc (.heap address))) :
    last = .mov (.heap address) acc := by
  have hlast := (isReversedMove_op h).1
  cases hl with
  | constant ho => cases ho <;> simp [isReversedMove, Instruction.mov, same, Operand.same] at h
  | @load k hk =>
    have hcell : Int64.ofNat k = address := by
      simpa [isReversedMove, Instruction.mov, same, Operand.same, acc] using h
    rw [hcell]
  | store hk => simp [isReversedMove, Instruction.mov, same, Operand.same, acc] at h
  | _ => cases hlast

theorem Emitted.of_reversed_load {last : Instruction} {address : Int64}
    (hl : Emitted callable d last) (h : isReversedMove last (.mov (.heap address) acc)) :
    last = .mov acc (.heap address) := by
  have hlast := (isReversedMove_op h).1
  cases hl with
  | constant ho => cases ho <;> simp [isReversedMove, Instruction.mov, same, Operand.same, acc] at h
  | load hk => simp [isReversedMove, Instruction.mov, same, Operand.same, acc] at h
  | @store k hk =>
    have hcell : Int64.ofNat k = address := by
      simpa [isReversedMove, Instruction.mov, same, Operand.same, acc] using h
    rw [hcell]
  | _ => cases hlast

theorem Emitted.not_reversed_constant {last : Instruction} {o : Operand}
    (hl : Emitted callable d last) (ho : Constant o) : isReversedMove last (.mov o acc) = false := by
  apply Bool.eq_false_iff.2
  intro h
  have hlast := (isReversedMove_op h).1
  cases hl with
  | constant ho' =>
    cases ho <;> simp [isReversedMove, Instruction.mov, same, Operand.same, acc] at h
  | load hk => cases ho <;> simp [isReversedMove, Instruction.mov, same, Operand.same, acc] at h
  | store hk => cases ho <;> simp [isReversedMove, Instruction.mov, same, Operand.same, acc] at h
  | _ => cases hlast

theorem Tidy.thin (h : Tidy callable d body) (name : String) :
    Tidy callable d (thin (.define name) body) where
  emitted i hi := h.emitted i ((thin_sublist _ _).subset hi)
  settles := (settle_thin 0 _ _).trans h.settles
  labels := by
    rw [labelNames_thin]
    exact h.labels
  resolved := by
    rw [labelNames_thin, jumpNames_thin]
    exact h.resolved
  uses k hk := by
    have hdropped {i : Instruction} (hi : i ∈ body)
        (hi' : i ∉ BlueCode.thin (.define name) body) :
        ∃ j ∈ BlueCode.thin (.define name) body, isReversedMove j i := by
      obtain ⟨j, hj, hr⟩ := (mem_thin hi).resolve_left hi'
      rcases List.mem_cons.1 hj with rfl | hj
      · cases (isReversedMove_op hr).1
      · exact ⟨j, hj, hr⟩
    by_contra hnot
    obtain ⟨hstore, hload⟩ := not_or.1 hnot
    rcases h.uses k hk with hu | hu
    · obtain ⟨j, hj, hr⟩ := hdropped hu hstore
      exact hload ((h.emitted j ((thin_sublist _ _).subset hj)).of_reversed_store hr ▸ hj)
    · obtain ⟨j, hj, hr⟩ := hdropped hu hload
      exact hstore ((h.emitted j ((thin_sublist _ _).subset hj)).of_reversed_load hr ▸ hj)

/-- Code in which no push is followed by a pop, even with other such code before it. -/
structure Apart (code : List Instruction) : Prop where
  separated : Separated code
  head : ∀ i ∈ code.head?, i.op ≠ .pop

theorem Apart.append {first rest : List Instruction} (hf : Apart first) (hr : Apart rest) :
    Apart (first ++ rest) where
  separated := List.isChain_append.2 ⟨hf.separated, hr.separated, fun _ _ i hi _ => hr.head i hi⟩
  head i hi := by
    rw [List.head?_append] at hi
    rcases Option.or_eq_some_iff.1 hi with hi | ⟨-, hi⟩
    · exact hf.head i hi
    · exact hr.head i hi

theorem Apart.nil : Apart [] :=
  ⟨.nil, fun _ hi => nomatch hi⟩

theorem Apart.cons {i : Instruction} {rest : List Instruction} (hi : i.op ≠ .pop)
    (hr : Apart rest) : Apart (i :: rest) where
  separated := List.isChain_cons.2 ⟨fun j hj _ => hr.head j hj, hr.separated⟩
  head j hj := by
    cases hj
    exact hi

theorem Apart.singleton {i : Instruction} (hi : i.op ≠ .pop) : Apart [i] :=
  .cons hi .nil

theorem ExprCode.last (h : ExprCode callable d code) :
    ∃ before i, code = before ++ [i] ∧ i.op ≠ .push := by
  cases h with
  | constant ho => exact ⟨[], _, rfl, by simp [Instruction.mov]⟩
  | load hk => exact ⟨[], _, rfl, by simp [Instruction.mov]⟩
  | store hc hk => exact ⟨_, _, rfl, by simp [Instruction.mov]⟩
  | @operation op left right hop _ _ =>
    refine ⟨left ++ .push acc :: right ++ [.pop (.reg .rb)], _, (List.append_cons ..), ?_⟩
    rintro rfl
    simp [Opcode.isArithmetic, Opcode.isComparison] at hop
  | call hargs hn => exact ⟨_, _, rfl, by simp [Instruction.call]⟩

theorem ExprCode.apart (h : ExprCode callable d code) : Apart code := by
  induction h with
  | constant ho => exact .singleton (by simp [Instruction.mov])
  | load hk => exact .singleton (by simp [Instruction.mov])
  | store _ hk ih => exact ih.append (.singleton (by simp [Instruction.mov]))
  | @operation op left right hop _ hr ihl ihr =>
    obtain ⟨before, i, rfl, hi⟩ := hr.last
    have hmiddle : Apart (.push acc :: (before ++ [i])) := .cons (by simp [Instruction.push]) ihr
    have hnot : op ≠ .pop := by
      rintro rfl
      simp [Opcode.isArithmetic, Opcode.isComparison] at hop
    have hfront := ihl.append hmiddle
    -- The pop comes after the last instruction of the right operand, which is no push.
    refine ⟨List.isChain_append.2 ⟨hfront.separated, ?_, ?_⟩, ?_⟩
    · exact List.isChain_cons.2 ⟨fun _ _ hp => absurd hp (by decide), List.isChain_singleton _⟩
    · intro last hlast j _ hp
      rw [← List.cons_append, ← List.append_assoc, List.getLast?_concat] at hlast
      cases hlast
      exact absurd hp hi
    · intro j hj
      rw [List.head?_append_of_ne_nil _ (by simp)] at hj
      exact hfront.head j hj
  | @call args name _ _ ih =>
    have hargs : Apart args.flatten := by
      clear * - ih
      induction args with
      | nil => exact .nil
      | cons arg args ihl =>
        rw [List.flatten_cons]
        exact (ih arg List.mem_cons_self).append (ihl fun a ha => ih a (List.mem_cons_of_mem arg ha))
    exact hargs.append (.singleton (by simp [Instruction.call]))

theorem StmtCode.apart (h : StmtCode callable exit d n code d' n') : Apart code := by
  have hjump (label : String) : (Instruction.jump label).op ≠ .pop := by simp [Instruction.jump]
  have hjumpIfNot (label : String) : (Instruction.jumpIfNot acc label).op ≠ .pop := by
    simp [Instruction.jumpIfNot]
  have hlabel (label : String) : (Instruction.label label).op ≠ .pop := by simp [Instruction.label]
  induction h with
  | nil => exact .nil
  | append _ _ ihf ihr => exact ihf.append ihr
  | expr he => exact he.apart
  | declare => exact .singleton (by simp [Instruction.mov])
  | ret => exact .singleton (by simp [Instruction.ret])
  | branch ht _ ih =>
    exact (ht.apart.append (.cons (hjumpIfNot _) ih)).append (.singleton (hlabel _))
  | branchElse ht _ _ ihf ihs =>
    refine ((ht.apart.append (.cons (hjumpIfNot _) ihf)).append ?_).append (.singleton (hlabel _))
    exact .cons (hjump _) (.cons (hlabel _) ihs)
  | loop ht _ ih =>
    apply (Apart.append (.cons (hlabel _) ht.apart) (.cons (hjumpIfNot _) ih)).append
    exact .cons (hjump _) (.singleton (hlabel _))
  | leave => exact .singleton (hjump _)

end Compile

namespace Block

def thinned (b : Block) : Block :=
  ⟨b.name, thin (.define b.name) b.body⟩

/-- Functions are thinned one by one, since no marker is removed. -/
theorem thin_flatMap_code (last : Instruction) (blocks : List Block) :
    thin last (blocks.flatMap code) = (blocks.map thinned).flatMap code := by
  induction blocks generalizing last with
  | nil => rfl
  | cons b blocks ih =>
    have hdefine : isReversedMove last (.define b.name) = false :=
      isReversedMove_eq_false (by simp [Instruction.define])
    rw [List.flatMap_cons, List.map_cons, List.flatMap_cons, ← ih (lastKept (.define b.name) b.body),
      code, List.cons_append, thin, if_neg (Bool.eq_false_iff.1 hdefine), thin_append]
    rfl

theorem apart_flatMap_code {blocks : List Block} (h : ∀ b ∈ blocks, Compile.Apart b.body) :
    Compile.Apart (blocks.flatMap code) := by
  induction blocks with
  | nil => exact .nil
  | cons b blocks ih =>
    obtain ⟨hb, hrest⟩ := List.forall_mem_cons.1 h
    have hcode : Compile.Apart b.code := .cons (by simp [Instruction.define]) hb
    exact hcode.append (ih hrest)

/-- The peephole pass thins the code of every function. -/
theorem optimize_flatMap_code {blocks : List Block} (h : ∀ b ∈ blocks, Compile.Apart b.body) :
    optimize (blocks.flatMap code) = (blocks.map thinned).flatMap code :=
  (optimize_eq_thin (apart_flatMap_code h).separated).trans (thin_flatMap_code .ret blocks)

end Block

end BlueCode
