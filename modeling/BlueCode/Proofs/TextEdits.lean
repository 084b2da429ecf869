import BlueCode.Proofs.LineLayout

namespace BlueCode

open Compile

namespace Loader

open Text

def IsGap (cs : List Char) : Prop :=
  ∀ c ∈ cs, c = ' ' ∨ c = '\t'

/-- The word is a register, the stack pointer or the top of the stack, in any case. -/
def IsRegister (w : List Char) : Prop :=
  String.ofList (w.map Char.toLower) ∈
    ["ra", "rb", "rc", "rd", "re", "rf", "rg", "rh", "rsp", "[rsp]"]

/-- The word that follows the others is a mnemonic, or an operand whose case does not matter: a
register where no name is expected. -/
inductive Caseless : List (List Char) → List Char → Prop where
  | mnemonic {w : List Char} {op : Opcode} :
      Opcode.ofMnemonic? (String.ofList (w.map Char.toLower)) = some op → Caseless [] w
  | register {m w : List Char} {args : List (List Char)} {op : Opcode} {slot : Slot} :
      Opcode.ofMnemonic? (String.ofList (m.map Char.toLower)) = some op →
      (slots op)[args.length]? = some slot → slot ≠ .name → IsRegister w → Caseless (m :: args) w

/-- An edit within a line that does not change what the line says. -/
inductive LineEdit : List Char → List Char → Prop where
  /-- Spaces and tabs before, between and after the words. -/
  | space {front back gap remark : List Char} {us vs : List (List Char)} :
      Written us front → Written vs back → Apart front back → IsRemark remark → IsGap gap →
      LineEdit (front ++ back ++ remark) (front ++ (gap ++ back) ++ remark)
  /-- Spaces and tabs between the marker of a function and its name. -/
  | marker {front back gap : List Char} : (∀ c ∈ front, isBlank c = true) → IsGap gap →
      LineEdit (front ++ '-' :: '-' :: back) (front ++ '-' :: '-' :: (gap ++ back))
  /-- Another case of a mnemonic or a register. -/
  | recase {front w w' back remark : List Char} {us vs : List (List Char)} :
      Written us front → Written vs back → (∀ c ∈ front.getLast?, ¬Plain c) →
      (∀ c ∈ back.head?, isBlank c = true) → IsRemark remark → Caseless us w →
      w'.map Char.toLower = w.map Char.toLower →
      LineEdit (front ++ (w ++ back) ++ remark) (front ++ (w' ++ back) ++ remark)
  | comment (raw text : List Char) : LineEdit raw (raw ++ ';' :: text)
  | carriageReturn (raw : List Char) : LineEdit raw (raw ++ ['\r'])

/-- An edit of one line of a text, or of lines that are blank or hold a comment only. -/
inductive LinesEdit : List (List Char) → List (List Char) → Prop where
  | edit {before after : List (List Char)} {raw raw' : List Char} :
      LineEdit raw raw' → LinesEdit (before ++ raw :: after) (before ++ raw' :: after)
  | insert {before after : List (List Char)} {raw : List Char} :
      Consists raw [] → LinesEdit (before ++ after) (before ++ raw :: after)
  | remove {before after : List (List Char)} {raw : List Char} :
      Consists raw [] → LinesEdit (before ++ raw :: after) (before ++ after)

/-- An edit of a text, line by line. -/
def TextEdit (text text' : String) : Prop :=
  LinesEdit (Text.lines text.toList) (Text.lines text'.toList)

def crlf (cs : List Char) : List Char :=
  cs.flatMap fun c => if c = '\n' then ['\r', '\n'] else [c]

theorem operand?_of_map_toLower {w w' : List Char} (hw : IsRegister w)
    (he : w'.map Char.toLower = w.map Char.toLower) : operand? w' = operand? w := by
  have hregister (h : String.ofList (w.map Char.toLower) ≠ "rsp")
      (h' : String.ofList (w.map Char.toLower) ≠ "[rsp]") :
      ∃ r, Register.ofName? (String.ofList (w.map Char.toLower)) = some r := by
    rw [IsRegister] at hw
    generalize String.ofList (w.map Char.toLower) = lower at hw h h'
    simp only [List.mem_cons, List.not_mem_nil, or_false] at hw
    rcases hw with rfl | rfl | rfl | rfl | rfl | rfl | rfl | rfl | rfl | rfl
    case inr.inr.inr.inr.inr.inr.inr.inr.inl => exact absurd rfl h
    case inr.inr.inr.inr.inr.inr.inr.inr.inr => exact absurd rfl h'
    all_goals exact ⟨_, rfl⟩
  simp only [operand?, he]
  split
  · rfl
  · next h =>
    split
    · rfl
    · next h' =>
      obtain ⟨r, hr⟩ := hregister h h'
      rw [hr]

theorem operands_recase {n : Nat} {slots : List Slot} {slot : Slot} {args rest : List (List Char)}
    {w w' : List Char} {os : List Operand} (hslot : slots[args.length]? = some slot)
    (hread : slot.read? w' = slot.read? w) (h : operands n slots (args ++ w :: rest) = .ok os) :
    operands n slots (args ++ w' :: rest) = .ok os := by
  induction args generalizing slots os with
  | nil =>
    cases slots with
    | nil => cases hslot
    | cons first slots =>
      cases hslot
      rw [List.nil_append, operands] at h ⊢
      rw [hread]
      split at h
      · exact h
      · cases h
  | cons arg args ih =>
    cases slots with
    | nil => cases hslot
    | cons first slots =>
      rw [List.cons_append, operands] at h ⊢
      split at h
      · cases hos : operands n slots (args ++ w :: rest) with
        | error e =>
          rw [hos] at h
          cases h
        | ok others =>
          rw [hos] at h
          rw [ih hslot hos]
          exact h
      · cases h

theorem Reads.recase {us vs : List (List Char)} {w w' : List Char} {i : Instruction}
    (hc : Caseless us w) (he : w'.map Char.toLower = w.map Char.toLower)
    (h : Reads (us ++ w :: vs) i) : Reads (us ++ w' :: vs) i := by
  cases hc with
  | @mnemonic _ op hop =>
    cases h with
    | marker => exact absurd rfl (mnemonic_head_ne_dash hop _)
    | spaced => exact absurd rfl (mnemonic_head_ne_dash hop _)
    | operation hop' hlen hos => exact .operation (he ▸ hop') hlen hos
  | @register m _ args op slot hop hslot hname hw =>
    have hread : slot.read? w' = slot.read? w := by
      have hoperand := operand?_of_map_toLower hw he
      cases slot with
      | readable => exact hoperand
      | writable => exact congrArg (Option.filter (·.isWritable)) hoperand
      | name => exact absurd rfl hname
    generalize hws : m :: args ++ w :: vs = ws at h
    cases h with
    | marker =>
      obtain ⟨rfl, -⟩ := List.cons.inj hws
      exact absurd rfl (mnemonic_head_ne_dash hop _)
    | spaced =>
      obtain ⟨rfl, -⟩ := List.cons.inj hws
      exact absurd rfl (mnemonic_head_ne_dash hop _)
    | operation hop' hlen hos =>
      obtain ⟨rfl, rfl⟩ := List.cons.inj hws
      cases hop.symm.trans hop'
      exact .operation hop (by simpa using hlen) fun n => operands_recase hslot hread (hos n)

/-- The second line is silent if the first one is, and else holds the same instruction. -/
structure Keeps (raw raw' : List Char) : Prop where
  silent : body raw = [] → body raw' = []
  holds : ∀ i, (∀ n, instruction n (body raw) = .ok i) → ∀ n, instruction n (body raw') = .ok i

theorem Keeps.of_body_eq {raw raw' : List Char} (h : body raw' = body raw) : Keeps raw raw' where
  silent hb := h.trans hb
  holds i hi n := by rw [h, hi n]

theorem Keeps.of_consists {raw raw' : List Char} {ws ws' : List (List Char)}
    (h : Consists raw ws) (h' : Consists raw' ws') (hnil : ws = [] → ws' = [])
    (hr : ∀ i, Reads ws i → Reads ws' i) : Keeps raw raw' where
  silent hb := by
    have hempty : ws = [] := by rw [← h.words_eq, (body_eq_nil_iff.1 hb).words_eq]
    exact body_eq_nil_iff.2 (hnil hempty ▸ h')
  holds i hi := h'.instruction_iff.2 (hr i (h.instruction_iff.1 hi))

theorem Consists.comment {raw : List Char} {ws : List (List Char)} (h : Consists raw ws)
    (text : List Char) : Consists (raw ++ ';' :: text) ws := by
  obtain ⟨cs, remark, rfl, hw, hr⟩ := h
  refine ⟨cs, remark ++ ';' :: text, List.append_assoc .., hw, ?_⟩
  cases remark with
  | nil => exact .comment text
  | cons c remark => exact hr

theorem IsGap.blank {gap : List Char} (h : IsGap gap) : ∀ c ∈ gap, isBlank c = true := by
  intro c hc
  rcases h c hc with rfl | rfl <;> decide

theorem Apart.gap {front back gap : List Char} (h : Apart front back) (hg : IsGap gap) :
    Apart front (gap ++ back) := by
  cases gap with
  | nil => exact h
  | cons c gap => exact .inr (by simpa using hg.blank c List.mem_cons_self)

/-- A word whose case does not matter is no string, whatever its case is. -/
theorem Caseless.plain {us : List (List Char)} {w w' : List Char} (h : Caseless us w)
    (he : w'.map Char.toLower = w.map Char.toLower) : w' ≠ [] ∧ ∀ c ∈ w', Plain c := by
  have hlower : ∃ lower : String, String.ofList (w.map Char.toLower) = lower ∧
      lower.toList ≠ [] ∧ ∀ c ∈ lower.toList, Plain c := by
    cases h with
    | @mnemonic _ op hop =>
      obtain ⟨-, hm⟩ := mnemonic_of_ofMnemonic? hop
      exact ⟨_, hm ▸ String.ofList_toList, plain_mnemonic op⟩
    | register _ _ _ hw =>
      have hall : ∀ lower ∈ ["ra", "rb", "rc", "rd", "re", "rf", "rg", "rh", "rsp", "[rsp]"],
          lower.toList ≠ [] ∧ (lower.toList.all fun c => decide (Plain c)) = true := by decide
      obtain ⟨hne, hplain⟩ := hall _ hw
      exact ⟨_, rfl, hne, Plain.of_all hplain⟩
  obtain ⟨lower, hl, hne, hplain⟩ := hlower
  have hw' : w'.map Char.toLower = lower.toList := by rw [he, ← hl, String.toList_ofList]
  refine ⟨?_, plain_of_map_toLower hw' hplain⟩
  rintro rfl
  exact hne hw'.symm

/-- The line of an accepted text says the same after an edit. -/
theorem LineEdit.keeps {raw raw' : List Char} (h : LineEdit raw raw')
    (hw : ∃ ws, Consists raw ws) : Keeps raw raw' := by
  cases h with
  | @space front back gap remark us vs hf hb ha hr hg =>
    have hfirst : Consists (front ++ back ++ remark) (us ++ vs) :=
      ⟨_, remark, rfl, hf.append hb ha, hr⟩
    have hsecond : Consists (front ++ (gap ++ back) ++ remark) (us ++ vs) :=
      ⟨_, remark, rfl, hf.append (.blanks_append hg.blank hb) (ha.gap hg), hr⟩
    exact .of_consists hfirst hsecond id fun _ => id
  | @marker front back gap hf hg =>
    have hdash (cs : List Char) : uncomment false ('-' :: '-' :: cs) =
        '-' :: '-' :: uncomment false cs := uncomment_plain plain_marker cs
    obtain ⟨rest, hbody, hrest⟩ := exists_trim_marked hf (uncomment false back)
    obtain ⟨rest', hbody', hrest'⟩ := exists_trim_marked hf (uncomment false (gap ++ back))
    rw [uncomment_blanks hg.blank, trim_blanks hg.blank, ← hrest] at hrest'
    rw [← hdash, ← uncomment_blanks hf] at hbody hbody'
    constructor
    · intro hnone
      cases hbody.symm.trans hnone
    · intro i hi n
      have hi := hi n
      rw [body, hbody] at hi
      rw [body, hbody']
      simp only [instruction] at hi ⊢
      rw [hrest']
      split at hi
      · next hword =>
        rw [if_pos hword]
        exact hi
      · cases hi
  | @recase front w w' back remark us vs hf hb hlast hhead hr hc he =>
    obtain ⟨hne, hplain⟩ := hc.plain rfl
    obtain ⟨hne', hplain'⟩ := hc.plain he
    have hfirst : Consists (front ++ (w ++ back) ++ remark) (us ++ w :: vs) :=
      ⟨_, remark, rfl, hf.append (.plain hne hplain hhead hb) (.inl hlast), hr⟩
    have hsecond : Consists (front ++ (w' ++ back) ++ remark) (us ++ w' :: vs) :=
      ⟨_, remark, rfl, hf.append (.plain hne' hplain' hhead hb) (.inl hlast), hr⟩
    exact .of_consists hfirst hsecond (by simp) fun _ => .recase hc he
  | comment _ text =>
    obtain ⟨ws, hws⟩ := hw
    exact .of_consists hws (hws.comment text) id fun _ => id
  | carriageReturn => exact .of_body_eq (body_concat_blank (by decide) raw)

theorem Keeps.writes {raw raw' : List Char} {rest : List (List Char)} {code : List Instruction}
    (hk : Keeps raw raw') (h : Writes (raw :: rest) code) : Writes (raw' :: rest) code := by
  cases h with
  | silent hb h => exact .silent (hk.silent hb) h
  | line hi h => exact .line (hk.holds _ hi) h

theorem Writes.consists {raws : List (List Char)} {code : List Instruction} (h : Writes raws code)
    (hn : ∀ raw ∈ raws, '\n' ∉ raw) : ∀ raw ∈ raws, ∃ ws, Consists raw ws := by
  induction h with
  | nil => exact List.forall_mem_nil _
  | silent hb _ ih =>
    obtain ⟨-, hn⟩ := List.forall_mem_cons.1 hn
    exact List.forall_mem_cons.2 ⟨⟨[], body_eq_nil_iff.1 hb⟩, ih hn⟩
  | line hi _ ih =>
    obtain ⟨hraw, hn⟩ := List.forall_mem_cons.1 hn
    exact List.forall_mem_cons.2 ⟨exists_consists hraw (hi 0), ih hn⟩

/-- After an edit the lines hold the same instructions. -/
theorem LinesEdit.writes {raws raws' : List (List Char)} {code : List Instruction}
    (h : LinesEdit raws raws') (hn : ∀ raw ∈ raws, '\n' ∉ raw) (hw : Writes raws code) :
    Writes raws' code := by
  have hconsists := hw.consists hn
  cases h with
  | @edit before after raw raw' he =>
    obtain ⟨first, rest, rfl, hf, hr⟩ := hw.of_append
    have hk := he.keeps (hconsists raw (by simp))
    exact hf.append (hk.writes hr)
  | insert hs =>
    obtain ⟨first, rest, rfl, hf, hr⟩ := hw.of_append
    exact hf.append (.silent (body_eq_nil_iff.2 hs) hr)
  | remove hs =>
    obtain ⟨first, rest, rfl, hf, hr⟩ := hw.of_append
    cases hr with
    | silent _ hr => exact hf.append hr
    | line hi _ => exact absurd (body_eq_nil_iff.2 hs) (ne_nil_of_instruction (hi 0))

theorem lines_crlf (cs : List Char) :
    List.Forall₂ (fun raw raw' => raw' = raw ∨ raw' = raw ++ ['\r']) (Text.lines cs)
      (Text.lines (crlf cs)) := by
  induction cs with
  | nil => exact .cons (.inl rfl) .nil
  | cons c cs ih =>
    have hcrlf : crlf (c :: cs) = (if c = '\n' then ['\r', '\n'] else [c]) ++ crlf cs :=
      List.flatMap_cons
    rw [hcrlf, Text.lines]
    split
    · exact .cons (.inr rfl) ih
    · next hc =>
      rw [List.singleton_append, Text.lines, if_neg hc]
      generalize Text.lines cs = raws, Text.lines (crlf cs) = raws' at ih
      cases ih with
      | nil => exact .cons (.inl rfl) .nil
      | cons hfirst hrest =>
        exact .cons (hfirst.imp (congrArg (c :: ·)) (congrArg (c :: ·))) hrest

theorem Writes.crlf {raws raws' : List (List Char)} {code : List Instruction}
    (hl : List.Forall₂ (fun raw raw' => raw' = raw ∨ raw' = raw ++ ['\r']) raws raws')
    (h : Writes raws code) : Writes raws' code := by
  induction hl generalizing code with
  | nil => exact h
  | @cons raw raw' _ _ hfirst _ ih =>
    have hk : Keeps raw raw' := by
      rcases hfirst with rfl | rfl
      · exact .of_body_eq rfl
      · exact .of_body_eq (body_concat_blank (by decide) raw)
    have hmoved := hk.writes h
    cases hmoved with
    | silent hb hrest => exact .silent hb (ih hrest)
    | line hi hrest => exact .line hi (ih hrest)

end Loader

open Loader

/-- A text that loads has the same image after any number of edits of its layout, and with other line
ends. All its lines consist of words, between which such edits are made. -/
theorem load_of_edits {text : String} {image : Image} (h : load text = .ok image) :
    (∀ text', Relation.ReflTransGen TextEdit text text' → load text' = .ok image) ∧
      load (String.ofList (crlf text.toList)) = .ok image ∧
      ∀ raw ∈ Text.lines text.toList, ∃ ws, Consists raw ws := by
  refine ⟨?_, ?_, ?_⟩
  · intro text' he
    induction he with
    | refl => exact h
    | tail _ hedit ih =>
      exact load_of_writes ih fun _ hw =>
        hedit.writes (fun _ => Text.newline_notMem_of_mem_lines) hw
  · apply load_of_writes h
    intro code hw
    rw [String.toList_ofList]
    exact hw.crlf (lines_crlf text.toList)
  · obtain ⟨blocks, hw, -⟩ := load_eq_ok_iff.1 h
    exact hw.consists fun _ => Text.newline_notMem_of_mem_lines

theorem load_of_edits_push :
    ∃ image, load "--f\npush ra" = .ok image ∧
      Relation.ReflTransGen TextEdit "--f\npush ra" "--f; five\n\nPUSH\t RA" ∧
      load "--f; five\n\nPUSH\t RA" = .ok image := by
  have ends : ∀ c ∈ ([] : List Char).head?, Text.isBlank c = true := fun _ hc => nomatch hc
  have next : ∀ c ∈ [' ', 'r', 'a'].head?, Text.isBlank c = true := by
    rintro c ⟨⟩
    decide
  have push {back : List Char} (h : ∀ c ∈ back, Text.isBlank c = true) :
      Written [['P', 'U', 'S', 'H']] ('P' :: 'U' :: 'S' :: 'H' :: back) :=
    @Written.plain ['P', 'U', 'S', 'H'] _ _ (by simp) (Text.Plain.of_all (by decide))
      (fun c hc => h c (List.mem_of_mem_head? hc)) (.blanks h)
  have operand : Written [['r', 'a']] [' ', 'r', 'a'] := .blank (by decide)
    (@Written.plain ['r', 'a'] _ _ (by simp) (Text.Plain.of_all (by decide)) ends .nil)
  have first : TextEdit "--f\npush ra" "--f; five\npush ra" :=
    @LinesEdit.edit [] ["push ra".toList] _ _ (.comment "--f".toList " five".toList)
  have second : TextEdit "--f; five\npush ra" "--f; five\n\npush ra" :=
    @LinesEdit.insert ["--f; five".toList] ["push ra".toList] [] ⟨[], [], rfl, .nil, .nil⟩
  have third : TextEdit "--f; five\n\npush ra" "--f; five\n\nPUSH ra" :=
    @LinesEdit.edit ["--f; five".toList, []] [] _ _
      (@LineEdit.recase [] ['p', 'u', 's', 'h'] ['P', 'U', 'S', 'H'] [' ', 'r', 'a'] [] _ _ .nil
        operand (fun _ hc => nomatch hc) next .nil (@Caseless.mnemonic _ .push (by decide))
        (by decide))
  have fourth : TextEdit "--f; five\n\nPUSH ra" "--f; five\n\nPUSH\t ra" :=
    @LinesEdit.edit ["--f; five".toList, []] [] _ _
      (@LineEdit.space ['P', 'U', 'S', 'H'] [' ', 'r', 'a'] ['\t'] [] _ _
        (push (List.forall_mem_nil _)) operand (.inr next) .nil (by simp [IsGap]))
  have register : Caseless [['P', 'U', 'S', 'H']] ['r', 'a'] :=
    @Caseless.register _ _ [] .push .readable (by decide) rfl (by decide)
      (by rw [IsRegister]; decide)
  have blanks : ∀ c ∈ ['\t', ' '], Text.isBlank c = true := List.all_eq_true.1 (by decide)
  have fifth : TextEdit "--f; five\n\nPUSH\t ra" "--f; five\n\nPUSH\t RA" :=
    @LinesEdit.edit ["--f; five".toList, []] [] _ _
      (@LineEdit.recase ['P', 'U', 'S', 'H', '\t', ' '] ['r', 'a'] ['R', 'A'] [] [] _ []
        (push blanks) .nil (by rintro c ⟨⟩; decide) ends .nil register (by decide))
  have edits := Relation.ReflTransGen.single first |>.tail second |>.tail third |>.tail fourth
    |>.tail fifth
  have loads : (load "--f\npush ra").isOk = true := by decide +kernel
  cases h : load "--f\npush ra" with
  | error e =>
    rw [h] at loads
    cases loads
  | ok image => exact ⟨image, rfl, edits, (load_of_edits h).1 _ edits⟩

end BlueCode
