import BlueCode.Proofs.Emission
import BlueCode.Proofs.InstructionForm

namespace BlueCode

open Compile

namespace Routine

variable {name : String} {body : List Instruction} {i : Instruction} {r r' : Routine} {line : Nat}

theorem mark_eq_ok (h : r.mark i = .ok r') :
    (i.op = .label → i.target ∉ r.labels) ∧ r'.frameSize = r.frameSize := by
  unfold mark at h
  split at h
  · split at h
    · cases h
    · next hnew =>
      cases h
      exact ⟨fun _ => hnew, rfl⟩
  · next hop =>
    cases h
    exact ⟨fun he => absurd he hop, rfl⟩

theorem reserve_eq_ok {operand : Option Operand} (h : r.reserve line operand = .ok r') :
    operand ≠ some (.heap Int64.maxValue) := by
  rintro rfl
  simp [reserve] at h

theorem Loadable.add (hb : Loadable body) (hi : i.op ≠ .define)
    (h : (ofBody name body).add line i = .ok r) :
    Loadable (body ++ [i]) ∧ r = ofBody name (body ++ [i]) := by
  have hadd := h
  obtain ⟨marked, hm, h⟩ := bind_eq_ok.1 h
  obtain ⟨first, hs, h⟩ := bind_eq_ok.1 h
  obtain ⟨second, hd, -⟩ := bind_eq_ok.1 h
  have hload : Loadable (body ++ [i]) := by
    constructor
    case markerless =>
      intro j hj
      rcases List.mem_append.1 hj with hj | hj
      · exact hb.markerless j hj
      · exact List.mem_singleton.1 hj ▸ hi
    case labels =>
      rw [labelNames, List.filterMap_append]
      by_cases hop : i.op = .label
      · have hlast : i.label? = some i.target := if_pos hop
        have hnew := (mark_eq_ok hm).1 hop
        rw [mem_ofBody_labels] at hnew
        rw [List.filterMap_cons_some hlast, List.filterMap_nil, ← List.concat_eq_append]
        exact List.Nodup.concat hnew hb.labels
      · have hlast : i.label? = none := if_neg hop
        rw [List.filterMap_cons_none hlast, List.filterMap_nil, List.append_nil]
        exact hb.labels
    case addresses =>
      intro j hj
      rcases List.mem_append.1 hj with hj | hj
      · exact hb.addresses j hj
      · exact List.mem_singleton.1 hj ▸ ⟨reserve_eq_ok hs, reserve_eq_ok hd⟩
  rw [add_eq_extend hload line] at hadd
  exact ⟨hload, (Except.ok.inj hadd).symm⟩

end Routine

namespace Image

namespace Builder

/-- The functions that have been read, the last one being the one under construction. -/
inductive Built : Builder → List Block → Prop where
  | empty : Built .empty []
  | current {done : List Block} {name : String} {body : List Instruction} :
      ((done ++ [Block.mk name body]).map Block.name).Nodup →
      (∀ b ∈ done ++ [Block.mk name body], Routine.Loadable b.body) →
      Built ⟨ofBlocks done, some (.ofBody name body)⟩ (done ++ [⟨name, body⟩])

variable {b b' : Builder} {blocks : List Block} {i : Instruction}

theorem Built.finish_eq (h : Built b blocks) : b.finish = ofBlocks blocks := by
  cases h with
  | empty => rfl
  | current =>
    rw [ofBlocks_concat]
    simp only [finish, Block.routine, Routine.ofBody_name]

theorem Built.names (h : Built b blocks) : (blocks.map Block.name).Nodup := by
  cases h with
  | empty => exact List.nodup_nil
  | current hd _ => exact hd

theorem Built.loadable (h : Built b blocks) : ∀ block ∈ blocks, Routine.Loadable block.body := by
  cases h with
  | empty => exact fun _ hb => nomatch hb
  | current _ hl => exact hl

theorem Built.define (h : Built b blocks) {name : String} {line : Nat}
    (ha : b.add line (.define name) = .ok b') : Built b' (blocks ++ [⟨name, []⟩]) := by
  have htarget : (Instruction.define name).target = name := rfl
  rw [add, if_pos (show (Instruction.define name).op = .define from rfl), htarget] at ha
  split at ha
  · cases ha
  · next hnew =>
    cases ha
    rw [h.finish_eq] at hnew ⊢
    rw [mem_ofBlocks h.names] at hnew
    change Built ⟨_, some (.ofBody name [])⟩ _
    refine .current ?_ ?_
    · rw [List.map_append, List.map_singleton, ← List.concat_eq_append]
      refine List.Nodup.concat (fun hm => hnew ?_) h.names
      exact List.mem_map.1 hm
    · intro block hb
      rcases List.mem_append.1 hb with hb | hb
      · exact h.loadable block hb
      · rw [List.mem_singleton.1 hb]
        exact ⟨List.forall_mem_nil _, List.nodup_nil, List.forall_mem_nil _⟩

theorem Built.add (h : Built b blocks) {line : Nat} (hi : i.op ≠ .define)
    (ha : b.add line i = .ok b') :
    ∃ blocks', Built b' blocks' ∧ blocks'.flatMap Block.code = blocks.flatMap Block.code ++ [i] := by
  rw [Builder.add, if_neg hi] at ha
  cases h with
  | empty => cases ha
  | @current done name body hd hl =>
    obtain ⟨r, hr, hb⟩ := bind_eq_ok.1 ha
    cases hb
    have hbody : Routine.Loadable body := hl ⟨name, body⟩ (by simp)
    obtain ⟨hload, rfl⟩ := hbody.add hi hr
    refine ⟨done ++ [⟨name, body ++ [i]⟩], .current ?_ ?_, by simp [Block.code]⟩
    · rw [List.map_append] at hd ⊢
      exact hd
    · intro block hb
      rcases List.mem_append.1 hb with hb | hb
      · exact hl block (List.mem_append_left _ hb)
      · exact List.mem_singleton.1 hb ▸ hload

theorem Built.addLine (h : Built b blocks) {line : Line}
    (hs : ∀ i, line.content = .ok i → i.Formed) (ha : b.addLine line = .ok b') :
    ∃ i blocks', line.content = .ok i ∧ Built b' blocks' ∧
      blocks'.flatMap Block.code = blocks.flatMap Block.code ++ [i] := by
  obtain ⟨i, hi, ha⟩ := bind_eq_ok.1 ha
  by_cases hop : i.op = .define
  · obtain ⟨name, rfl⟩ := (hs i hi).define_eq hop
    exact ⟨_, _, hi, h.define ha, by simp [Block.code]⟩
  · obtain ⟨blocks', hb, hcode⟩ := h.add hop ha
    exact ⟨i, blocks', hi, hb, hcode⟩

theorem Built.addLines (h : Built b blocks) {lines : List Line}
    (hs : ∀ line ∈ lines, ∀ i, line.content = .ok i → i.Formed)
    (ha : lines.foldlM Builder.addLine b = .ok b') :
    ∃ code blocks', lines.map Line.content = code.map .ok ∧ Built b' blocks' ∧
      blocks'.flatMap Block.code = blocks.flatMap Block.code ++ code := by
  induction lines generalizing b blocks with
  | nil =>
    cases ha
    exact ⟨[], blocks, rfl, h, (List.append_nil _).symm⟩
  | cons line lines ih =>
    obtain ⟨hline, hlines⟩ := List.forall_mem_cons.1 hs
    rw [List.foldlM_cons] at ha
    obtain ⟨next, hn, ha⟩ := bind_eq_ok.1 ha
    obtain ⟨i, blocks', hi, hb, hcode⟩ := h.addLine hline hn
    obtain ⟨code, blocks'', hc, hb', hcode'⟩ := ih hb hlines ha
    refine ⟨i :: code, blocks'', ?_, hb', ?_⟩
    · rw [List.map_cons, List.map_cons, hi, hc]
    · rw [hcode', hcode, List.append_assoc, List.singleton_append]

end Builder

theorem exists_blocks_of_lines {lines : List Line} {image : Image}
    (h : ofLines lines = .ok image)
    (hs : ∀ line ∈ lines, ∀ i, line.content = .ok i → i.Formed) :
    ∃ blocks, lines.map Line.content = (blocks.flatMap Block.code).map .ok ∧
      (blocks.map Block.name).Nodup ∧ (∀ b ∈ blocks, Routine.Loadable b.body) ∧
      image = ofBlocks blocks := by
  obtain ⟨b, hb, hi⟩ := bind_eq_ok.1 h
  cases hi
  obtain ⟨code, blocks, hc, hbuilt, hcode⟩ := Builder.Built.addLines .empty hs hb
  refine ⟨blocks, ?_, hbuilt.names, hbuilt.loadable, hbuilt.finish_eq⟩
  rw [hc, hcode]
  rfl

theorem exists_blocks {code : List Instruction} {image : Image}
    (h : ofInstructions code = .ok image) (hs : ∀ i ∈ code, i.Formed) :
    ∃ blocks, code = blocks.flatMap Block.code ∧ (blocks.map Block.name).Nodup ∧
      (∀ b ∈ blocks, Routine.Loadable b.body) ∧ image = ofBlocks blocks := by
  have hok : Function.Injective (Except.ok : Instruction → Except LoadError Instruction) :=
    fun _ _ he => Except.ok.inj he
  obtain ⟨blocks, hc, hd, hl, rfl⟩ := exists_blocks_of_lines h fun line hline i hi => by
    have hmem : line.content ∈ (numbered code).map Line.content := List.mem_map_of_mem hline
    rw [content_numbered, hi] at hmem
    exact hs i ((List.mem_map_of_injective hok).1 hmem)
  rw [content_numbered] at hc
  exact ⟨blocks, (List.map_injective_iff.2 hok) hc, hd, hl, rfl⟩

end Image

namespace Text

theorem mem_of_mem_trim {c : Char} {cs : List Char} (h : c ∈ trim cs) : c ∈ cs := by
  rw [trim, List.mem_reverse] at h
  have hfront := (List.dropWhile_sublist _).subset h
  rw [List.mem_reverse] at hfront
  exact (List.dropWhile_sublist _).subset hfront

end Text

namespace Loader

theorem mem_of_mem_uncomment {c : Char} {inString : Bool} {cs : List Char}
    (h : c ∈ uncomment inString cs) : c ∈ cs := by
  induction cs generalizing inString with
  | nil => exact h
  | cons d cs ih =>
    rw [uncomment] at h
    split at h
    · exact (List.mem_cons.1 h).elim (· ▸ List.mem_cons_self) fun h => List.mem_cons_of_mem d (ih h)
    · split at h
      · cases h
      · exact (List.mem_cons.1 h).elim (· ▸ List.mem_cons_self) fun h => List.mem_cons_of_mem d (ih h)

/-- A word of a line: what stands between its quotes has no quote itself. -/
structure Token (cs word : List Char) : Prop where
  subset : word ⊆ cs
  quoted : ∀ inner, quoted? word = some inner → '"' ∉ inner

theorem quoted?_eq_some {word inner : List Char} (h : quoted? word = some inner) :
    word = '"' :: inner ++ ['"'] := by
  unfold quoted? at h
  split at h
  · next rest =>
    split at h
    · next hlast =>
      cases h
      obtain ⟨ys, rfl⟩ := List.getLast?_eq_some_iff.1 hlast
      simp
    · cases h
  · cases h

theorem token_of_mem_words {cs word : List Char} (h : word ∈ words cs) : Token cs word := by
  induction cs using words.induct with
  | case1 =>
    rw [words] at h
    cases h
  | case2 c rest hblank ih =>
    rw [words, if_pos hblank] at h
    exact ⟨fun _ hd => List.mem_cons_of_mem c ((ih h).subset hd), (ih h).quoted⟩
  | case3 c rest hblank hquote body ih =>
    rw [words, if_neg hblank, if_pos hquote] at h
    rcases List.mem_cons.1 h with rfl | h
    · have hbody : ∀ d ∈ body, d ≠ '"' := fun d hd => by
        simpa using List.mem_takeWhile_imp hd
      constructor
      · intro d hd
        simp only [List.cons_append, List.mem_cons, List.mem_append, List.not_mem_nil,
          or_false] at hd
        rcases hd with rfl | hd | rfl
        · exact List.mem_cons_self
        · exact List.mem_cons_of_mem c ((List.takeWhile_sublist _).subset hd)
        · exact List.mem_cons_of_mem c hquote.2
      · intro inner hinner hmem
        have he := quoted?_eq_some hinner
        rw [List.cons_append, List.cons_append, List.cons.injEq, List.append_left_inj] at he
        rw [← he.2] at hmem
        exact hbody '"' hmem rfl
    · refine ⟨fun d hd => ?_, (ih h).quoted⟩
      exact List.mem_cons_of_mem c ((List.drop_sublist _ _).subset ((ih h).subset hd))
  | case4 c rest hblank hquote body ih =>
    rw [words, if_neg hblank, if_neg hquote] at h
    rcases List.mem_cons.1 h with rfl | h
    · constructor
      · intro d hd
        rcases List.mem_cons.1 hd with rfl | hd
        · exact List.mem_cons_self
        · exact List.mem_cons_of_mem c ((List.takeWhile_sublist _).subset hd)
      · intro inner hinner
        -- A quote that opens this word is not closed in the line.
        have he := quoted?_eq_some hinner
        rw [List.cons_append, List.cons.injEq] at he
        have hclosed : '"' ∈ rest.takeWhile (!Text.isBlank ·) := by
          rw [he.2]
          simp
        exact absurd ⟨he.1, (List.takeWhile_sublist _).subset hclosed⟩ hquote
    · refine ⟨fun d hd => ?_, (ih h).quoted⟩
      exact List.mem_cons_of_mem c ((List.drop_sublist _ _).subset ((ih h).subset hd))

theorem number?_legible {word : List Char} {o : Operand} (h : number? word = some o) :
    (∀ s, o ≠ .name s) ∧ o.Legible := by
  unfold number? at h
  split at h
  · split at h
    · split at h
      · cases h
        exact ⟨fun _ he => (nomatch he), trivial⟩
      · obtain ⟨x, hx, rfl⟩ := Option.map_eq_some_iff.1 h
        exact ⟨fun _ he => (nomatch he), (Option.filter_eq_some_iff.1 hx).2⟩
    · cases h
  · cases h

theorem operand?_legible {cs word : List Char} {o : Operand} (hw : Token cs word)
    (hn : '\n' ∉ cs) (h : operand? word = some o) : (∀ s, o ≠ .name s) ∧ o.Legible := by
  simp only [operand?] at h
  split at h
  · cases h
    exact ⟨fun _ he => (nomatch he), trivial⟩
  split at h
  · cases h
    exact ⟨fun _ he => (nomatch he), trivial⟩
  split at h
  · cases h
    exact ⟨fun _ he => (nomatch he), trivial⟩
  split at h
  · obtain ⟨address, ha, rfl⟩ := Option.map_eq_some_iff.1 h
    exact ⟨fun _ he => (nomatch he), of_decide_eq_true (Option.filter_eq_some_iff.1 ha).2⟩
  split at h
  · next inner hinner =>
    cases h
    refine ⟨fun _ he => (nomatch he), ?_, ?_⟩
    · rw [String.toList_ofList]
      exact hw.quoted inner hinner
    · rw [String.toList_ofList]
      intro hm
      refine hn (hw.subset ?_)
      rw [quoted?_eq_some hinner]
      simp [hm]
  · exact number?_legible h

theorem Slot.read?_legible {slot : Slot} {cs word : List Char} {o : Operand} (hw : Token cs word)
    (hn : '\n' ∉ cs) (h : slot.read? word = some o) : slot.accepts o = true ∧ o.Legible := by
  cases slot with
  | name =>
    rw [read?] at h
    split at h
    · next hword =>
      cases h
      refine ⟨rfl, ?_⟩
      rw [Operand.Legible, String.toList_ofList]
      exact hword
    · cases h
  | readable =>
    obtain ⟨hname, hl⟩ := operand?_legible hw hn h
    cases o with
    | name s => exact absurd rfl (hname s)
    | _ => exact ⟨rfl, hl⟩
  | writable =>
    obtain ⟨ho, hwritable⟩ := Option.filter_eq_some_iff.1 h
    obtain ⟨hname, hl⟩ := operand?_legible hw hn ho
    cases o with
    | name s => exact absurd rfl (hname s)
    | _ => exact ⟨hwritable, hl⟩

theorem operands_legible {line : Nat} {slots : List Slot} {ws : List (List Char)}
    {os : List Operand} {cs : List Char} (hn : '\n' ∉ cs) (hw : ∀ w ∈ ws, Token cs w)
    (hl : ws.length = slots.length) (h : operands line slots ws = .ok os) :
    List.Forall₂ (fun slot o => slot.accepts o = true) slots os ∧ ∀ o ∈ os, o.Legible := by
  induction slots generalizing ws os with
  | nil =>
    cases List.length_eq_zero_iff.1 hl
    cases h
    exact ⟨.nil, fun _ ho => nomatch ho⟩
  | cons slot slots ih =>
    cases ws with
    | nil => cases hl
    | cons w ws =>
      obtain ⟨hfirst, hrest⟩ := List.forall_mem_cons.1 hw
      rw [operands] at h
      split at h
      · next o ho =>
        cases hos : operands line slots ws with
        | error e =>
          rw [hos] at h
          cases h
        | ok others =>
          rw [hos] at h
          cases h
          obtain ⟨haccepts, hlegible⟩ := ih hrest (Nat.succ.inj hl) hos
          obtain ⟨ha, hlo⟩ := Slot.read?_legible hfirst hn ho
          exact ⟨.cons ha haccepts, List.forall_mem_cons.2 ⟨hlo, hlegible⟩⟩
      · cases h

theorem arrange_shaped {op : Opcode} {os : List Operand}
    (ha : List.Forall₂ (fun slot o => slot.accepts o = true) (slots op) os)
    (hl : ∀ o ∈ os, o.Legible) : (arrange op os).Shaped := by
  have hlength := ha.length_eq
  have hop : (arrange op os).op = op := by
    unfold arrange
    split
    · rfl
    · split
      · next hpop => exact hpop.symm
      · rfl
    · rfl
  have hoperands : (arrange op os).operands = os := by
    match os, hlength with
    | [], _ => rfl
    | [o], _ =>
      rw [arrange]
      split <;> rfl
    | [_, _], _ => rfl
    | _ :: _ :: _ :: _, hlength =>
      have hslots : (slots op).length ≤ 2 := by cases op <;> simp [slots]
      simp only [List.length_cons] at hlength
      omega
  refine ⟨?_, ?_, ?_⟩
  · rw [hop, hoperands]
  · rw [hop, hoperands]
    exact ha
  · rw [hoperands]
    exact hl

theorem instruction_shaped {n : Nat} {cs : List Char} {i : Instruction} (hn : '\n' ∉ cs)
    (h : instruction n cs = .ok i) : i.Shaped := by
  unfold instruction at h
  split at h
  · next rest =>
    simp only at h
    split at h
    · next hword =>
      cases h
      refine ⟨rfl, .cons rfl .nil, fun o ho => ?_⟩
      rw [List.mem_singleton.1 ho, Operand.Legible, String.toList_ofList]
      exact hword
    · cases h
  · split at h
    · cases h
    · next mnemonic args hwords =>
      split at h
      · cases h
      · next op hop =>
        split at h
        · next hlen =>
          cases hos : operands n (slots op) args with
          | error e =>
            rw [hos] at h
            cases h
          | ok os =>
            rw [hos] at h
            cases h
            have hargs : ∀ w ∈ args, Token cs w := fun w hw =>
              token_of_mem_words (hwords ▸ List.mem_cons_of_mem mnemonic hw)
            obtain ⟨haccepts, hlegible⟩ := operands_legible hn hargs hlen hos
            exact arrange_shaped haccepts hlegible
        · cases h

theorem lines_shaped {text : String} : ∀ line ∈ lines text, ∀ i, line.content = .ok i →
    i.Shaped := by
  intro line hline i hi
  obtain ⟨⟨raw, number⟩, hraw, hl⟩ := List.mem_filterMap.1 hline
  have hnewline : '\n' ∉ raw :=
    Text.newline_notMem_of_mem_lines (List.fst_mem_of_mem_zipIdx hraw)
  change line? number raw = some line at hl
  unfold line? at hl
  split at hl
  · cases hl
  · cases hl
    refine instruction_shaped (fun hm => hnewline ?_) hi
    exact mem_of_mem_uncomment (Text.mem_of_mem_trim hm)

end Loader

/-- Text that loads describes functions with different names and labels, in the form that belongs to
each operation. -/
theorem exists_blocks_of_load {text : String} {image : Image} (h : load text = .ok image) :
    ∃ blocks, (∀ i ∈ blocks.flatMap Block.code, i.Shaped) ∧ (blocks.map Block.name).Nodup ∧
      (∀ b ∈ blocks, Routine.Loadable b.body) ∧ image = .ofBlocks blocks := by
  obtain ⟨blocks, hc, hd, hl, rfl⟩ := Image.exists_blocks_of_lines h fun line hline i hi =>
    (Loader.lines_shaped line hline i hi).formed
  refine ⟨blocks, fun i hi => ?_, hd, hl, rfl⟩
  have hmem : Except.ok i ∈ (Loader.lines text).map Image.Line.content := by
    rw [hc]
    exact List.mem_map_of_mem hi
  obtain ⟨line, hline, hcontent⟩ := List.mem_map.1 hmem
  exact Loader.lines_shaped line hline i hcontent

end BlueCode
