import BlueCode.Proofs.OperandText

namespace BlueCode

namespace Text

def spaced (ws : List (List Char)) : List Char :=
  ws.flatMap fun w => ' ' :: w

@[simp] theorem spaced_nil : spaced [] = [] := rfl

@[simp] theorem spaced_cons (w : List Char) (ws : List (List Char)) :
    spaced (w :: ws) = ' ' :: (w ++ spaced ws) := rfl

theorem spaced_append (ws vs : List (List Char)) :
    spaced (ws ++ vs) = spaced ws ++ spaced vs :=
  List.flatMap_append

theorem lines_append_newline (first rest : List Char) :
    lines (first ++ '\n' :: rest) = lines first ++ lines rest := by
  induction first with
  | nil => simp [lines]
  | cons c first ih =>
    rw [List.cons_append, lines, lines, ih]
    split
    · rfl
    · cases hl : lines first with
      | nil => exact absurd hl (lines_ne_nil first)
      | cons line others => rfl

theorem lines_of_newline_notMem {line : List Char} (h : '\n' ∉ line) : lines line = [line] := by
  induction line with
  | nil => rfl
  | cons c line ih =>
    simp only [List.mem_cons, not_or] at h
    rw [lines, if_neg (fun e => h.1 e.symm), ih h.2]

theorem dropWhile_of_head {p : Char → Bool} {cs : List Char} (h : ∀ c ∈ cs.head?, p c = false) :
    cs.dropWhile p = cs := by
  cases cs with
  | nil => rfl
  | cons c cs => simp [h c rfl]

theorem trim_eq_self {cs : List Char} (hf : ∀ c ∈ cs.head?, isBlank c = false)
    (hl : ∀ c ∈ cs.getLast?, isBlank c = false) : trim cs = cs := by
  have reversed : ∀ c ∈ cs.reverse.head?, isBlank c = false := by
    rwa [List.head?_reverse]
  rw [trim, dropWhile_of_head hf, dropWhile_of_head reversed, List.reverse_reverse]

theorem trim_line {w : List Char} {ws : List (List Char)} (hw : Lexeme w)
    (hws : ∀ v ∈ ws, Lexeme v) : trim (w ++ spaced ws) = w ++ spaced ws := by
  apply trim_eq_self
  · obtain ⟨c, rest, rfl, hc⟩ := hw.head_visible
    simpa using hc
  · cases ws using List.reverseRecOn with
    | nil =>
      obtain ⟨c, init, rfl, hc⟩ := hw.last_visible
      simpa using hc
    | append_singleton ws v =>
      obtain ⟨c, init, rfl, hc⟩ := (hws v (by simp)).last_visible
      have last : w ++ spaced (ws ++ [init ++ [c]]) = (w ++ spaced ws ++ ' ' :: init) ++ [c] := by
        simp [spaced_append]
      rw [last, List.getLast?_concat]
      rintro d ⟨⟩
      exact hc

end Text

namespace Loader

open Text

theorem uncomment_plain {w : List Char} (h : ∀ c ∈ w, Plain c) (cs : List Char) :
    uncomment false (w ++ cs) = w ++ uncomment false cs := by
  induction w with
  | nil => rfl
  | cons c w ih =>
    obtain ⟨-, quote, comment⟩ := h c List.mem_cons_self
    rw [List.cons_append, uncomment, if_neg quote, if_neg (fun e => comment e.1),
      ih fun d hd => h d (List.mem_cons_of_mem c hd)]
    rfl

theorem uncomment_string {s : List Char} (h : '"' ∉ s) (cs : List Char) :
    uncomment true (s ++ '"' :: cs) = s ++ '"' :: uncomment false cs := by
  induction s with
  | nil => simp [uncomment]
  | cons c s ih =>
    simp only [List.mem_cons, not_or] at h
    rw [List.cons_append, uncomment, if_neg (fun e => h.1 e.symm),
      if_neg (fun e => Bool.noConfusion e.2), ih h.2]
    rfl

/-- No word contains the start of a comment. -/
theorem uncomment_lexeme {w : List Char} (h : Lexeme w) (cs : List Char) :
    uncomment false (w ++ cs) = w ++ uncomment false cs := by
  cases h with
  | plain _ hc => exact uncomment_plain hc cs
  | @quoted s hq _ =>
    simp only [List.cons_append, List.append_assoc, List.nil_append]
    rw [uncomment, if_pos rfl]
    exact congrArg ('"' :: ·) (uncomment_string hq cs)

theorem uncomment_spaced {ws : List (List Char)} (h : ∀ w ∈ ws, Lexeme w) :
    uncomment false (spaced ws) = spaced ws := by
  induction ws with
  | nil => rfl
  | cons w ws ih =>
    rw [spaced_cons, uncomment, if_neg (by decide), if_neg (by decide),
      uncomment_lexeme (h w List.mem_cons_self), ih fun v hv => h v (List.mem_cons_of_mem w hv)]

theorem words_blank {c : Char} (h : isBlank c = true) (cs : List Char) :
    words (c :: cs) = words cs := by
  rw [words, if_pos h]

theorem takeWhile_append_of_forall {p : Char → Bool} {w cs : List Char} (hw : ∀ c ∈ w, p c = true)
    (hcs : ∀ c ∈ cs.head?, p c = false) : (w ++ cs).takeWhile p = w := by
  rw [List.takeWhile_append_of_pos hw]
  cases cs with
  | nil => simp
  | cons c cs => simp [hcs c rfl]

theorem words_quoted {s : List Char} (h : '"' ∉ s) (cs : List Char) :
    words ('"' :: (s ++ '"' :: cs)) = ('"' :: s ++ ['"']) :: words cs := by
  have body : (s ++ '"' :: cs).takeWhile (· != '"') = s := by
    refine takeWhile_append_of_forall (fun d hd => ?_) (by simp)
    simpa using fun e : d = '"' => h (e ▸ hd)
  have rest : (s ++ '"' :: cs).drop (s.length + 1) = cs := by
    rw [List.drop_append, List.drop_eq_nil_of_le (by omega)]
    simp
  rw [words, if_neg (by decide), if_pos ⟨rfl, by simp⟩]
  simp only [body, rest]

theorem words_lexeme {w : List Char} (h : Lexeme w) {cs : List Char}
    (hcs : ∀ c ∈ cs.head?, isBlank c = true) : words (w ++ cs) = w :: words cs := by
  cases h with
  | plain hw hc =>
    obtain ⟨c, w, rfl⟩ := List.exists_cons_of_ne_nil hw
    obtain ⟨visible, quote, -⟩ := hc c List.mem_cons_self
    have body : (w ++ cs).takeWhile (!isBlank ·) = w :=
      takeWhile_append_of_forall (fun d hd => by simp [(hc d (List.mem_cons_of_mem c hd)).1])
        fun d hd => by simp [hcs d hd]
    rw [List.cons_append, words, if_neg (by simp [visible]), if_neg (fun e => quote e.1)]
    simp only [body, List.drop_left]
  | @quoted s hq _ =>
    simp only [List.cons_append, List.append_assoc, List.nil_append]
    exact words_quoted hq cs

theorem words_spaced {ws : List (List Char)} (h : ∀ w ∈ ws, Lexeme w) :
    words (spaced ws) = ws := by
  induction ws with
  | nil => simp [words]
  | cons w ws ih =>
    have next : ∀ c ∈ (spaced ws).head?, isBlank c = true := by
      cases ws with
      | nil => simp
      | cons v ws =>
        intro c hc
        cases hc
        decide
    rw [spaced_cons, words_blank (by decide), words_lexeme (h w List.mem_cons_self) next,
      ih fun v hv => h v (List.mem_cons_of_mem w hv)]

theorem words_line {w : List Char} {ws : List (List Char)} (hw : Lexeme w)
    (hws : ∀ v ∈ ws, Lexeme v) : words (w ++ spaced ws) = w :: ws := by
  rw [← words_blank (show isBlank ' ' = true by decide), ← spaced_cons]
  exact words_spaced fun v hv => (List.mem_cons.1 hv).elim (fun e => e ▸ hw) (hws v)

theorem body_line {w : List Char} {ws : List (List Char)} (hw : Lexeme w)
    (hws : ∀ v ∈ ws, Lexeme v) : body (w ++ spaced ws) = w ++ spaced ws := by
  rw [body, uncomment_lexeme hw, uncomment_spaced hws, trim_line hw hws]

theorem line?_line {w : List Char} {ws : List (List Char)} (hw : Lexeme w)
    (hws : ∀ v ∈ ws, Lexeme v) (n : Nat) :
    line? n (w ++ spaced ws) = some ⟨n, instruction n (w ++ spaced ws)⟩ := by
  obtain ⟨c, rest, rfl, -⟩ := hw.head_visible
  rw [line?, body_line hw hws, if_neg (by simp)]

theorem line?_define {name : List Char} (h : isWord name = true) (n : Nat) :
    line? n (Opcode.marker.toList ++ name) = some ⟨n, .ok (.define (String.ofList name))⟩ := by
  have marker : Lexeme (Opcode.marker.toList ++ name) := by
    have dash : ∀ c ∈ Opcode.marker.toList, Plain c := Plain.of_all (by decide)
    refine .plain (by simp [Opcode.marker]) fun c hc => ?_
    rcases List.mem_append.1 hc with hc | hc
    · exact dash c hc
    · exact .of_isWordPart (isWordPart_of_isWord h c hc)
  have whole := @line?_line _ [] marker (by simp) n
  have trimmed : trim name = name := by
    simpa using @trim_line _ [] (Lexeme.word h) (by simp)
  rw [spaced_nil, List.append_nil] at whole
  rw [whole]
  show some (Image.Line.mk n (instruction n ('-' :: '-' :: name))) = _
  simp only [instruction, trimmed, h, if_true]

theorem lexeme_mnemonic (op : Opcode) : Lexeme op.mnemonic.toList := by
  cases op with
  | arith op => cases op <;> exact .of_all (by decide) (by decide)
  | compare op => cases op <;> exact .of_all (by decide) (by decide)
  | _ => exact .of_all (by decide) (by decide)

theorem mnemonic_eq_cons {op : Opcode} (h : op ≠ .define) :
    ∃ c rest, op.mnemonic.toList = c :: rest ∧ c ≠ '-' := by
  cases op with
  | arith op => cases op <;> exact ⟨_, _, rfl, by decide⟩
  | compare op => cases op <;> exact ⟨_, _, rfl, by decide⟩
  | define => exact absurd rfl h
  | _ => exact ⟨_, _, rfl, by decide⟩

theorem mnemonic_toLower (op : Opcode) :
    op.mnemonic.toList.map Char.toLower = op.mnemonic.toList := by
  cases op with
  | arith op => cases op <;> decide
  | compare op => cases op <;> decide
  | _ => decide

theorem line?_operation {op : Opcode} (hop : op ≠ .define) {ws : List (List Char)}
    (hws : ∀ w ∈ ws, Lexeme w) (hlen : ws.length = (slots op).length) (n : Nat) :
    line? n (op.mnemonic.toList ++ spaced ws) =
      some ⟨n, (operands n (slots op) ws).map (arrange op)⟩ := by
  rw [line?_line (lexeme_mnemonic op) hws, instruction]
  · rw [words_line (lexeme_mnemonic op) hws]
    simp only [mnemonic_toLower, String.ofList_toList, Opcode.ofMnemonic?_mnemonic hop, hlen,
      if_true]
  · intro rest heq
    obtain ⟨c, tail, hm, hc⟩ := mnemonic_eq_cons hop
    rw [hm] at heq
    exact hc (List.cons.inj heq).1

end Loader

namespace Instruction

def operands (i : Instruction) : List Operand :=
  i.src.toList ++ i.dst.toList

theorem operandChars_eq (o : Option Operand) :
    operandChars o = Text.spaced (o.toList.map Operand.chars) := by
  cases o with
  | none => rfl
  | some o => simp [operandChars]

theorem chars_define {i : Instruction} (h : i.op = .define) :
    i.chars = Opcode.marker.toList ++ i.target.toList := by
  simp [chars, h]

theorem chars_eq {i : Instruction} (h : i.op ≠ .define) :
    i.chars = i.op.mnemonic.toList ++ Text.spaced (i.operands.map Operand.chars) := by
  rw [operands, List.map_append, Text.spaced_append, ← operandChars_eq, ← operandChars_eq,
    ← List.append_assoc]
  unfold chars
  split
  · next hop => exact absurd hop h
  · rfl

theorem newline_notMem {i : Instruction} (hop : i.op ≠ .define)
    (h : ∀ o ∈ i.operands, Text.Lexeme o.chars) : '\n' ∉ i.chars := by
  rw [chars_eq hop]
  intro hm
  rcases List.mem_append.1 hm with hm | hm
  · exact (Loader.lexeme_mnemonic i.op).newline_notMem hm
  · simp only [Text.spaced, List.flatMap_map, List.mem_flatMap, List.mem_cons] at hm
    obtain ⟨o, ho, hblank | hm⟩ := hm
    · exact absurd hblank (by decide)
    · exact (h o ho).newline_notMem hm

theorem define_newline_notMem {name : String} (h : Text.isWord name.toList = true) :
    '\n' ∉ (define name).chars := by
  rw [chars_define rfl]
  intro hm
  rcases List.mem_append.1 hm with hm | hm
  · exact absurd hm (by decide)
  · exact (Text.Lexeme.word h).newline_notMem hm

theorem line?_chars {i : Instruction} (hop : i.op ≠ .define)
    (h : ∀ o ∈ i.operands, Text.Lexeme o.chars)
    (hlen : i.operands.length = (Loader.slots i.op).length) (n : Nat) :
    Loader.line? n i.chars =
      some ⟨n, (Loader.operands n (Loader.slots i.op) (i.operands.map Operand.chars)).map
        (Loader.arrange i.op)⟩ := by
  have lexemes : ∀ w ∈ i.operands.map Operand.chars, Text.Lexeme w := by
    intro w hw
    obtain ⟨o, ho, rfl⟩ := List.mem_map.1 hw
    exact h o ho
  rw [chars_eq hop, Loader.line?_operation hop lexemes (by rw [List.length_map, hlen])]

end Instruction

namespace Loader

theorem lines_toList_assemble (code : List Instruction) :
    Text.lines (assemble code).toList = (code.flatMap fun i => Text.lines i.chars) ++ [[]] := by
  rw [assemble, String.toList_ofList]
  induction code with
  | nil => rfl
  | cons i code ih =>
    rw [List.flatMap_cons, List.flatMap_cons, List.append_assoc, List.singleton_append,
      Text.lines_append_newline, ih, List.append_assoc]

def linesFrom (n : Nat) (raws : List (List Char)) : List Image.Line :=
  (raws.zipIdx n).filterMap fun (raw, number) => line? number raw

theorem linesFrom_cons (n : Nat) (raw : List Char) (raws : List (List Char)) :
    linesFrom n (raw :: raws) = (line? n raw).toList ++ linesFrom (n + 1) raws := by
  simp only [linesFrom, List.zipIdx_cons, List.filterMap_cons]
  cases line? n raw <;> rfl

theorem linesFrom_append (n : Nat) (first rest : List (List Char)) :
    linesFrom n (first ++ rest) = linesFrom n first ++ linesFrom (n + first.length) rest := by
  rw [linesFrom, List.zipIdx_append, List.filterMap_append, linesFrom, linesFrom]

theorem lines_assemble_eq (code : List Instruction) :
    lines (assemble code) = linesFrom 1 (code.flatMap fun i => Text.lines i.chars) := by
  have hlines : lines (assemble code) = linesFrom 1 (Text.lines (assemble code).toList) := rfl
  rw [hlines, lines_toList_assemble, linesFrom_append, linesFrom_cons]
  exact List.append_nil _

/-- The loader reads the lines of assembled code one by one. -/
theorem lines_assemble {code : List Instruction} (h : ∀ i ∈ code, '\n' ∉ i.chars)
    {content : Nat → Instruction → Except LoadError Instruction}
    (hline : ∀ i ∈ code, ∀ n, line? n i.chars = some ⟨n, content n i⟩) :
    lines (assemble code) = (code.zipIdx 1).map fun (i, n) => ⟨n, content n i⟩ := by
  have single : (code.flatMap fun i => Text.lines i.chars) = code.map Instruction.chars := by
    rw [List.map_eq_flatMap]
    exact List.flatMap_congr fun i hi => Text.lines_of_newline_notMem (h i hi)
  rw [lines_assemble_eq, single]
  clear h single
  generalize 1 = start
  induction code generalizing start with
  | nil => rfl
  | cons i code ih =>
    rw [List.map_cons, linesFrom_cons, hline i List.mem_cons_self,
      ih (fun j hj => hline j (List.mem_cons_of_mem i hj)) (start + 1), List.zipIdx_cons]
    rfl

end Loader

end BlueCode
