import BlueCode.Proofs.LineContents

namespace BlueCode

open Compile

namespace Text

theorem plain_of_toLower {c : Char} (h : Plain c.toLower) : Plain c := by
  by_cases hu : c.isUpper = true
  · exact .of_isWordPart (by simp [isWordPart, Char.isAlphanum, Char.isAlpha, hu])
  · rwa [Char.toLower_eq_of_not_isUpper hu] at h

theorem plain_of_map_toLower {w lower : List Char} (he : w.map Char.toLower = lower)
    (h : ∀ c ∈ lower, Plain c) : ∀ c ∈ w, Plain c :=
  fun _ hc => plain_of_toLower (h _ (he ▸ List.mem_map_of_mem hc))

end Text

namespace Decimal

open Text (Plain plain_of_map_toLower)

variable {cs : List Char}

theorem plain_of_splitSign (h : ∀ c ∈ (splitSign cs).2, Plain c) : ∀ c ∈ cs, Plain c := by
  unfold splitSign at h
  split at h
  · exact List.forall_mem_cons.2 ⟨by decide, h⟩
  · exact List.forall_mem_cons.2 ⟨by decide, h⟩
  · exact h

theorem plain_of_readInt? {n : Int} (h : readInt? cs = some n) : ∀ c ∈ cs, Plain c := by
  apply plain_of_splitSign
  rw [readInt?] at h
  generalize splitSign cs = signed at h ⊢
  obtain ⟨negative, digits⟩ := signed
  obtain ⟨_, hd, -⟩ := Option.map_eq_some_iff.1 h
  rw [readNat?] at hd
  split at hd
  · next hall => exact fun c hc => .of_isDigit (List.all_eq_true.1 hall.2 c hc)
  · cases hd

theorem plain_of_readInt64? {n : Int64} (h : readInt64? cs = some n) : ∀ c ∈ cs, Plain c := by
  unfold readInt64? at h
  split at h
  · next hn => exact plain_of_readInt? hn
  · cases h

theorem plain_of_readExponent? {n : Int} (h : readExponent? cs = some n) : ∀ c ∈ cs, Plain c := by
  cases cs with
  | nil => exact List.forall_mem_nil _
  | cons c cs =>
    rw [readExponent?] at h
    split at h
    · next he =>
      apply List.forall_mem_cons.2 ⟨_, plain_of_readInt? h⟩
      rcases he with rfl | rfl <;> decide
    · cases h

theorem plain_of_dropWhile (h : ∀ c ∈ cs.dropWhile Char.isDigit, Plain c) :
    ∀ c ∈ cs, Plain c := by
  rw [← List.takeWhile_append_dropWhile (p := Char.isDigit) (l := cs)]
  exact List.forall_mem_append.2 ⟨fun c hc => .of_isDigit (List.mem_takeWhile_imp hc), h⟩

theorem plain_of_readUnsigned? {x : Float} (h : readUnsigned? cs = some x) :
    ∀ c ∈ cs, Plain c := by
  apply plain_of_dropWhile
  simp only [readUnsigned?] at h
  split at h
  · next _ _ _ _ hexponent =>
    split at hexponent
    · next rest he =>
      rw [he]
      apply List.forall_mem_cons.2 ⟨by decide, plain_of_dropWhile (plain_of_readExponent? hexponent)⟩
    · exact plain_of_readExponent? hexponent
  · cases h

/-- The names of the values that are no numbers are made of letters. -/
theorem plain_of_readFloat? {x : Float} (h : readFloat? cs = some x) : ∀ c ∈ cs, Plain c := by
  apply plain_of_splitSign
  rw [readFloat?] at h
  generalize splitSign cs = signed at h ⊢
  obtain ⟨negative, unsigned⟩ := signed
  obtain ⟨magnitude, hm, -⟩ := Option.map_eq_some_iff.1 h
  split at hm
  · next hname =>
    rcases hname with hname | hname
    · exact plain_of_map_toLower hname (Plain.of_all (by decide))
    · exact plain_of_map_toLower hname (Plain.of_all (by decide))
  split at hm
  · next hname => exact plain_of_map_toLower hname (Plain.of_all (by decide))
  · exact plain_of_readUnsigned? hm

end Decimal

namespace Loader

open Text

theorem words_blanks {front : List Char} (h : ∀ c ∈ front, isBlank c = true) (cs : List Char) :
    words (front ++ cs) = words cs := by
  induction front with
  | nil => rfl
  | cons c front ih =>
    obtain ⟨hc, hfront⟩ := List.forall_mem_cons.1 h
    rw [List.cons_append, words_blank hc, ih hfront]

theorem words_of_blanks {cs : List Char} (h : ∀ c ∈ cs, isBlank c = true) : words cs = [] := by
  rw [← List.append_nil cs, words_blanks h, words]

theorem drop_string {s : List Char} (h : '"' ∉ s) (cs : List Char) :
    (s ++ '"' :: cs).drop (((s ++ '"' :: cs).takeWhile (· != '"')).length + 1) = cs := by
  have hbody : (s ++ '"' :: cs).takeWhile (· != '"') = s := takeWhile_append_of_forall
    (fun d hd => by simpa using fun e : d = '"' => h (e ▸ hd)) (by simp)
  rw [hbody, List.drop_append, List.drop_eq_nil_of_le (by omega)]
  simp

theorem exists_run (rest : List Char) : ∃ run after,
    rest.drop (rest.takeWhile (!isBlank ·)).length = after ∧ rest = run ++ after ∧
    (∀ d ∈ run, isBlank d = false) ∧ ∀ d ∈ after.head?, isBlank d = true := by
  have hsplit : rest.takeWhile (!isBlank ·) ++ rest.dropWhile (!isBlank ·) = rest :=
    List.takeWhile_append_dropWhile
  refine ⟨_, rest.dropWhile (!isBlank ·), ?_, hsplit.symm, ?_, ?_⟩
  · have hdrop := congrArg (List.drop (rest.takeWhile (!isBlank ·)).length) hsplit
    rw [List.drop_left] at hdrop
    exact hdrop.symm
  · intro d hd
    simpa using List.mem_takeWhile_imp hd
  · have hnot := List.head?_dropWhile_not (!isBlank ·) rest
    intro d hd
    rw [Option.mem_def.1 hd] at hnot
    simpa using hnot

theorem words_run {c : Char} {run cs : List Char} (hc : ¬isBlank c = true)
    (hrun : ∀ d ∈ run, isBlank d = false) (hcs : ∀ d ∈ cs.head?, isBlank d = true)
    (hq : ¬(c = '"' ∧ '"' ∈ run ++ cs)) : words (c :: (run ++ cs)) = (c :: run) :: words cs := by
  have hbody : (run ++ cs).takeWhile (!isBlank ·) = run :=
    takeWhile_append_of_forall (fun d hd => by simp [hrun d hd]) fun d hd => by simp [hcs d hd]
  rw [words, if_neg hc, if_neg hq]
  simp only [hbody, List.drop_left]

theorem words_concat_blank {c : Char} (h : isBlank c = true) (cs : List Char) :
    words (cs ++ [c]) = words cs := by
  have hquote : c ≠ '"' := ne_of_isBlank h (by decide)
  induction cs using words.induct with
  | case1 => rw [List.nil_append, words_blank h]
  | case2 d rest hblank ih => rw [List.cons_append, words_blank hblank, words_blank hblank, ih]
  | case3 d rest hblank hq body ih =>
    obtain ⟨rfl, hmem⟩ := hq
    obtain ⟨s, after, rfl, hs⟩ := List.eq_append_cons_of_mem hmem
    rw [drop_string hs] at ih
    rw [List.cons_append, List.append_assoc, List.cons_append, words_quoted hs, words_quoted hs, ih]
  | case4 d rest hblank hq body ih =>
    have hopen : ¬(d = '"' ∧ '"' ∈ rest ++ [c]) := by
      rintro ⟨hd, hmem⟩
      rcases List.mem_append.1 hmem with hmem | hmem
      · exact hq ⟨hd, hmem⟩
      · exact hquote (List.mem_singleton.1 hmem).symm
    obtain ⟨run, after, hdrop, he, hrun, hafter⟩ := exists_run rest
    rw [show rest.drop body.length = after from hdrop] at ih
    subst he
    have hnext : ∀ e ∈ (after ++ [c]).head?, isBlank e = true := by
      cases after with
      | nil =>
        rintro e ⟨⟩
        exact h
      | cons _ _ => exact hafter
    rw [List.append_assoc] at hopen
    rw [List.cons_append, List.append_assoc, words_run hblank hrun hnext hopen,
      words_run hblank hrun hafter hq, ih]

theorem words_append_blanks {back : List Char} (h : ∀ c ∈ back, isBlank c = true)
    (cs : List Char) : words (cs ++ back) = words cs := by
  induction back using List.reverseRecOn with
  | nil => rw [List.append_nil]
  | append_singleton back c ih =>
    obtain ⟨hback, hc⟩ := List.forall_mem_append.1 h
    rw [← List.append_assoc, words_concat_blank (hc c (List.mem_singleton_self c)), ih hback]

theorem words_trim (cs : List Char) : words (trim cs) = words cs := by
  obtain ⟨front, back, hfront, hback, he⟩ := exists_trim cs
  calc words (trim cs) = words (front ++ (trim cs ++ back)) := by
        rw [words_blanks hfront, words_append_blanks hback]
    _ = words cs := by rw [← List.append_assoc, ← he]

/-- The characters consist of the words, in this order, and of blanks. Only a string may be followed
by something else than a blank. -/
inductive Written : List (List Char) → List Char → Prop where
  | nil : Written [] []
  | blank {c : Char} {ws : List (List Char)} {cs : List Char} :
      isBlank c = true → Written ws cs → Written ws (c :: cs)
  | plain {w : List Char} {ws : List (List Char)} {cs : List Char} :
      w ≠ [] → (∀ c ∈ w, Plain c) → (∀ c ∈ cs.head?, isBlank c = true) → Written ws cs →
      Written (w :: ws) (w ++ cs)
  | quoted {s : List Char} {ws : List (List Char)} {cs : List Char} :
      '"' ∉ s → Written ws cs → Written (('"' :: s ++ ['"']) :: ws) ('"' :: s ++ ['"'] ++ cs)

/-- No word goes on from the first characters to the others. -/
def Apart (cs back : List Char) : Prop :=
  (∀ c ∈ cs.getLast?, ¬Plain c) ∨ ∀ c ∈ back.head?, isBlank c = true

theorem Apart.of_append {first cs back : List Char} (h : Apart (first ++ cs) back) :
    Apart cs back := by
  cases cs with
  | nil => exact .inl (by simp)
  | cons c cs =>
    apply h.imp_left
    intro hlast d hd
    exact hlast d (by rw [List.getLast?_append_of_ne_nil _ (List.cons_ne_nil c cs)]; exact hd)

theorem Apart.head_blank {w back : List Char} (h : Apart w back) (hw : w ≠ [])
    (hc : ∀ c ∈ w, Plain c) : ∀ c ∈ back.head?, isBlank c = true := by
  apply h.resolve_left
  intro hlast
  exact hlast _ (List.getLast?_eq_some_getLast hw) (hc _ (List.getLast_mem hw))

def IsRemark (cs : List Char) : Prop :=
  ∀ c ∈ cs.head?, c = ';'

/-- The line consists of the words in some layout, and perhaps of a comment. -/
def Consists (raw : List Char) (ws : List (List Char)) : Prop :=
  ∃ cs remark, raw = cs ++ remark ∧ Written ws cs ∧ IsRemark remark

theorem uncomment_blank {c : Char} (h : isBlank c = true) (cs : List Char) :
    uncomment false (c :: cs) = c :: uncomment false cs := by
  have hquote : c ≠ '"' := ne_of_isBlank h (by decide)
  have hmark : c ≠ ';' := ne_of_isBlank h (by decide)
  rw [uncomment, if_neg hquote, if_neg fun he => hmark he.1]

theorem uncomment_blanks {front : List Char} (h : ∀ c ∈ front, isBlank c = true)
    (cs : List Char) : uncomment false (front ++ cs) = front ++ uncomment false cs := by
  induction front with
  | nil => rfl
  | cons c front ih =>
    obtain ⟨hc, hfront⟩ := List.forall_mem_cons.1 h
    rw [List.cons_append, uncomment_blank hc, ih hfront, List.cons_append]

theorem exists_uncomment (inString : Bool) (raw : List Char) :
    ∃ remark, IsRemark remark ∧ raw = uncomment inString raw ++ remark := by
  induction raw generalizing inString with
  | nil => exact ⟨[], by simp [IsRemark], rfl⟩
  | cons c raw ih =>
    rw [uncomment]
    split
    · obtain ⟨remark, hr, he⟩ := ih (!inString)
      exact ⟨remark, hr, congrArg (c :: ·) he⟩
    · split
      · next hmark => exact ⟨c :: raw, by simp [IsRemark, hmark.1], rfl⟩
      · obtain ⟨remark, hr, he⟩ := ih inString
        exact ⟨remark, hr, congrArg (c :: ·) he⟩

theorem uncomment_remark {remark : List Char} (h : IsRemark remark) :
    uncomment false remark = [] := by
  cases remark with
  | nil => rfl
  | cons c remark => simp [uncomment, h c rfl]

namespace Written

variable {ws vs : List (List Char)} {cs back : List Char}

theorem words_eq (h : Written ws cs) : words cs = ws := by
  induction h with
  | nil => rw [words]
  | blank hc _ ih => rw [words_blank hc, ih]
  | plain hw hc hcs _ ih => rw [words_lexeme (.plain hw hc) hcs, ih]
  | quoted hs _ ih =>
    simp only [List.cons_append, List.append_assoc, List.nil_append]
    rw [words_quoted hs, ih]
    rfl

theorem uncomment_eq (h : Written ws cs) {remark : List Char} (hr : IsRemark remark) :
    uncomment false (cs ++ remark) = cs := by
  induction h with
  | nil => exact uncomment_remark hr
  | blank hc _ ih => rw [List.cons_append, uncomment_blank hc, ih]
  | plain hw hc hcs _ ih => rw [List.append_assoc, uncomment_plain hc, ih]
  | quoted hs _ ih =>
    simp only [List.cons_append, List.append_assoc, List.nil_append]
    rw [uncomment, if_pos rfl]
    exact congrArg ('"' :: ·) ((uncomment_string hs _).trans (by rw [ih]))

theorem blanks_append {front : List Char} (hf : ∀ c ∈ front, isBlank c = true)
    (h : Written ws cs) : Written ws (front ++ cs) := by
  induction front with
  | nil => exact h
  | cons c front ih =>
    obtain ⟨hc, hfront⟩ := List.forall_mem_cons.1 hf
    exact .blank hc (ih hfront)

theorem blanks (h : ∀ c ∈ cs, isBlank c = true) : Written [] cs := by
  have hwritten := blanks_append h .nil
  rwa [List.append_nil] at hwritten

theorem append (h : Written ws cs) (h' : Written vs back) (ha : Apart cs back) :
    Written (ws ++ vs) (cs ++ back) := by
  induction h with
  | nil => exact h'
  | @blank c _ cs hc _ ih => exact .blank hc (ih (@Apart.of_append [c] _ _ ha))
  | @plain w _ cs hw hc hcs _ ih =>
    rw [List.append_assoc]
    apply Written.plain hw hc _ (ih ha.of_append)
    cases cs with
    | nil =>
      rw [List.append_nil] at ha
      exact ha.head_blank hw hc
    | cons c cs => exact hcs
  | @quoted s _ cs hs _ ih =>
    rw [List.append_assoc]
    exact .quoted hs (ih ha.of_append)

theorem of_words (h : ∀ w ∈ words cs, Lexeme w) : Written (words cs) cs := by
  induction cs using words.induct with
  | case1 =>
    rw [words]
    exact .nil
  | case2 c rest hblank ih =>
    rw [words_blank hblank] at h ⊢
    exact .blank hblank (ih h)
  | case3 c rest hblank hq body ih =>
    obtain ⟨rfl, hmem⟩ := hq
    obtain ⟨s, after, rfl, hs⟩ := List.eq_append_cons_of_mem hmem
    rw [drop_string hs] at ih
    rw [words_quoted hs] at h ⊢
    have hwritten := Written.quoted hs (ih fun w hw => h w (List.mem_cons_of_mem _ hw))
    simp only [List.cons_append, List.append_assoc, List.nil_append] at hwritten ⊢
    exact hwritten
  | case4 c rest hblank hq body ih =>
    obtain ⟨run, after, hdrop, he, hrun, hafter⟩ := exists_run rest
    rw [show rest.drop body.length = after from hdrop] at ih
    subst he
    rw [words_run hblank hrun hafter hq] at h ⊢
    have hrest := ih fun w hw => h w (List.mem_cons_of_mem _ hw)
    have hword : Lexeme (c :: run) := h _ List.mem_cons_self
    rw [← List.cons_append]
    generalize hw : c :: run = word at hword ⊢
    cases hword with
    | plain hne hc => exact .plain hne hc hafter hrest
    | @quoted s =>
      -- Such a word would be closed within the line.
      obtain ⟨hc, rfl⟩ := List.cons.inj hw
      exact absurd ⟨hc, by simp⟩ hq

theorem forall_blank (h : Written [] cs) : ∀ c ∈ cs, isBlank c = true := by
  generalize hws : ([] : List (List Char)) = ws at h
  induction h with
  | nil => exact List.forall_mem_nil _
  | blank hc _ ih => exact List.forall_mem_cons.2 ⟨hc, ih hws⟩
  | plain => cases hws
  | quoted => cases hws

theorem exists_rest {w : List Char} (h : Written (w :: ws) cs) : ∃ front rest,
    (∀ c ∈ front, isBlank c = true) ∧ cs = front ++ (w ++ rest) ∧ Written ws rest := by
  generalize hws : w :: ws = vs at h
  induction h with
  | nil => cases hws
  | @blank c _ cs hc _ ih =>
    obtain ⟨front, rest, hfront, rfl, hrest⟩ := ih hws
    exact ⟨c :: front, rest, List.forall_mem_cons.2 ⟨hc, hfront⟩, rfl, hrest⟩
  | plain _ _ _ hrest =>
    cases hws
    exact ⟨[], _, List.forall_mem_nil _, rfl, hrest⟩
  | quoted _ hrest =>
    cases hws
    exact ⟨[], _, List.forall_mem_nil _, rfl, hrest⟩

end Written

/-- The instruction that words write. The name of a function may stand apart from its marker. -/
inductive Reads : List (List Char) → Instruction → Prop where
  | marker {name : List Char} : isWord name = true →
      Reads ['-' :: '-' :: name] (.define (String.ofList name))
  | spaced {name : List Char} : isWord name = true →
      Reads [['-', '-'], name] (.define (String.ofList name))
  | operation {m : List Char} {args : List (List Char)} {op : Opcode} {os : List Operand} :
      Opcode.ofMnemonic? (String.ofList (m.map Char.toLower)) = some op →
      args.length = (slots op).length → (∀ n, operands n (slots op) args = .ok os) →
      Reads (m :: args) (arrange op os)

theorem operands_line {n : Nat} {slots : List Slot} {ws : List (List Char)} {os : List Operand}
    (h : operands n slots ws = .ok os) (m : Nat) : operands m slots ws = .ok os := by
  have hagree := agree_operands n m slots ws
  rw [h] at hagree
  obtain ⟨os', hos, rfl⟩ := hagree.exists_ok
  exact hos

theorem plain_marker : ∀ c ∈ ['-', '-'], Plain c := Plain.of_all (by decide)

theorem plain_marked {name : List Char} (h : isWord name = true) :
    ∀ c ∈ ['-', '-'] ++ name, Plain c :=
  List.forall_mem_append.2
    ⟨plain_marker, fun c hc => .of_isWordPart (isWordPart_of_isWord h c hc)⟩

theorem trim_word {name : List Char} (h : isWord name = true) : trim name = name := by
  have htrim := @trim_line name [] (.word h) (List.forall_mem_nil _)
  rwa [spaced_nil, List.append_nil] at htrim

theorem reads_of_instruction {n : Nat} {cs : List Char} {i : Instruction}
    (h : instruction n (trim cs) = .ok i) : Reads (words cs) i := by
  rw [← words_trim]
  generalize trim cs = cs at h
  simp only [instruction] at h
  split at h
  · next rest =>
    split at h
    · next hword =>
      cases h
      obtain ⟨front, back, hfront, hback, he⟩ := exists_trim rest
      generalize trim rest = name at hword he
      subst he
      have hnone := words_of_blanks hback
      have hnext : ∀ c ∈ back.head?, isBlank c = true :=
        fun c hc => hback c (List.mem_of_mem_head? hc)
      cases front with
      | nil =>
        have hone := words_lexeme (.plain (by simp) (plain_marked hword)) hnext
        rw [hnone] at hone
        exact hone ▸ .marker hword
      | cons c front =>
        have hname : words (name ++ back) = [name] := by
          rw [words_lexeme (.word hword) hnext, hnone]
        have hgap : ∀ d ∈ (c :: front ++ (name ++ back)).head?, isBlank d = true := by
          simpa using hfront c List.mem_cons_self
        have hmarker := words_lexeme (.plain (by simp) plain_marker) hgap
        rw [words_blanks hfront, hname, ← List.append_assoc (c :: front)] at hmarker
        exact hmarker ▸ .spaced hword
    · cases h
  · split at h
    · cases h
    · next m args hwords =>
      split at h
      · cases h
      · next op hop =>
        split at h
        · next hlen =>
          cases hos : operands n (slots op) args with
          | error e =>
            rw [hos] at h
            cases h
          | ok os =>
            rw [hos] at h
            cases h
            rw [hwords]
            exact .operation hop hlen (operands_line hos)
        · cases h

theorem mnemonic_of_ofMnemonic? {w : List Char} {op : Opcode}
    (h : Opcode.ofMnemonic? (String.ofList w) = some op) :
    op ≠ .define ∧ w = op.mnemonic.toList := by
  rw [Opcode.ofMnemonic?] at h
  have hname := List.find?_some h
  have hmem := List.mem_of_find?_eq_some h
  rw [beq_iff_eq] at hname
  constructor
  · rintro rfl
    exact absurd hmem (by decide)
  · rw [hname, String.toList_ofList]

theorem plain_mnemonic (op : Opcode) :
    op.mnemonic.toList ≠ [] ∧ ∀ c ∈ op.mnemonic.toList, Plain c := by
  cases op with
  | arith op => cases op <;> exact ⟨by decide, Plain.of_all (by decide)⟩
  | compare op => cases op <;> exact ⟨by decide, Plain.of_all (by decide)⟩
  | _ => exact ⟨by decide, Plain.of_all (by decide)⟩

theorem mnemonic_head_ne_dash {m : List Char} {op : Opcode}
    (h : Opcode.ofMnemonic? (String.ofList (m.map Char.toLower)) = some op) (rest : List Char) :
    m ≠ '-' :: rest := by
  rintro rfl
  obtain ⟨hop, he⟩ := mnemonic_of_ofMnemonic? h
  obtain ⟨c, tail, hm, hc⟩ := mnemonic_eq_cons hop
  rw [hm] at he
  exact hc (List.cons.inj he).1.symm

theorem exists_trim_marked {front : List Char} (h : ∀ c ∈ front, isBlank c = true)
    (cs : List Char) :
    ∃ rest, trim (front ++ '-' :: '-' :: cs) = '-' :: '-' :: rest ∧ trim rest = trim cs := by
  let rest := (cs.reverse.dropWhile isBlank).reverse
  refine ⟨rest, ?_, ?_⟩
  · have hdash : isBlank '-' = false := by decide
    rw [trim_blanks h, trim, List.dropWhile_cons_of_neg (by simp [hdash]), List.reverse_cons,
      List.reverse_cons, List.append_assoc, List.dropWhile_append]
    split
    · next hempty =>
      have hnone : rest = [] := by simpa [rest] using hempty
      rw [hnone]
      rfl
    · rw [List.reverse_append]
      rfl
  · have hsplit : cs = rest ++ (cs.reverse.takeWhile isBlank).reverse := by
      rw [← List.reverse_append, List.takeWhile_append_dropWhile, List.reverse_reverse]
    conv_rhs => rw [hsplit]
    rw [trim_append_blanks fun c hc => List.mem_takeWhile_imp (List.mem_reverse.1 hc)]

theorem instruction_marked {front cs : List Char} (h : ∀ c ∈ front, isBlank c = true)
    (hword : isWord (trim cs) = true) (n : Nat) :
    instruction n (trim (front ++ '-' :: '-' :: cs)) =
      .ok (.define (String.ofList (trim cs))) := by
  obtain ⟨rest, hmarked, hrest⟩ := exists_trim_marked h cs
  rw [hmarked, instruction, hrest, if_pos hword]

/-- What words write does not depend on their layout. -/
theorem instruction_of_reads {ws : List (List Char)} {cs : List Char} {i : Instruction}
    (h : Written ws cs) (hr : Reads ws i) (n : Nat) : instruction n (trim cs) = .ok i := by
  cases hr with
  | @marker name hword =>
    obtain ⟨front, back, hfront, rfl, hback⟩ := h.exists_rest
    have htrim : trim (name ++ back) = name := by
      rw [trim_append_blanks hback.forall_blank]
      exact trim_word hword
    have hmarked := instruction_marked hfront (htrim.symm ▸ hword) n
    rw [htrim] at hmarked
    exact hmarked
  | @spaced name hword =>
    obtain ⟨front, rest, hfront, rfl, hrest⟩ := h.exists_rest
    obtain ⟨gap, back, hgap, rfl, hback⟩ := hrest.exists_rest
    have htrim : trim (gap ++ (name ++ back)) = name := by
      rw [trim_blanks hgap, trim_append_blanks hback.forall_blank]
      exact trim_word hword
    have hmarked := instruction_marked hfront (htrim.symm ▸ hword) n
    rw [htrim] at hmarked
    exact hmarked
  | @operation m args op os hop hlen hos =>
    have hwords : words (trim cs) = m :: args := by rw [words_trim, h.words_eq]
    have hhead : ∀ rest, trim cs ≠ '-' :: '-' :: rest := by
      intro rest he
      rw [he, words, if_neg (by decide), if_neg (by simp)] at hwords
      exact mnemonic_head_ne_dash hop _ (List.cons.inj hwords).1.symm
    rw [instruction]
    · rw [hwords]
      simp only [hop, hlen, if_true, hos]
      rfl
    · exact hhead

theorem lexeme_of_map_toLower {w : List Char} {lower : String}
    (he : String.ofList (w.map Char.toLower) = lower) (hne : lower.toList ≠ [])
    (h : ∀ c ∈ lower.toList, Plain c) : Lexeme w := by
  have hlower : w.map Char.toLower = lower.toList := by rw [← he, String.toList_ofList]
  refine .plain ?_ (plain_of_map_toLower hlower h)
  rintro rfl
  exact hne hlower.symm

theorem lexeme_of_mnemonic {m : List Char} {op : Opcode}
    (h : Opcode.ofMnemonic? (String.ofList (m.map Char.toLower)) = some op) : Lexeme m := by
  obtain ⟨-, he⟩ := mnemonic_of_ofMnemonic? h
  obtain ⟨hne, hplain⟩ := plain_mnemonic op
  exact lexeme_of_map_toLower (he ▸ String.ofList_toList) hne hplain

theorem lexeme_of_number? {w : List Char} {o : Operand} (h : number? w = some o) : Lexeme w := by
  cases w with
  | nil => cases h
  | cons c w =>
    apply Lexeme.plain (List.cons_ne_nil c w)
    rw [number?] at h
    split at h
    · split at h
      · next hn => exact Decimal.plain_of_readInt64? hn
      · obtain ⟨x, hx, -⟩ := Option.map_eq_some_iff.1 h
        exact Decimal.plain_of_readFloat? (Option.filter_eq_some_iff.1 hx).1
    · cases h

theorem bracketed?_eq_some {w inner : List Char} (h : bracketed? w = some inner) :
    w = '[' :: inner ++ [']'] := by
  unfold bracketed? at h
  split at h
  · split at h
    · next hlast =>
      cases h
      obtain ⟨ys, rfl⟩ := List.getLast?_eq_some_iff.1 hlast
      simp
    · cases h
  · cases h

theorem lexeme_of_operand? {cs w : List Char} {o : Operand} (ht : Token cs w) (hn : '\n' ∉ cs)
    (h : operand? w = some o) : Lexeme w := by
  simp only [operand?] at h
  split at h
  · next hlower => exact lexeme_of_map_toLower hlower (by decide) (Plain.of_all (by decide))
  split at h
  · next hlower => exact lexeme_of_map_toLower hlower (by decide) (Plain.of_all (by decide))
  split at h
  · next r hr =>
    have hname := List.find?_some hr
    rw [beq_iff_eq] at hname
    apply lexeme_of_map_toLower hname.symm
    · cases r <;> decide
    · cases r <;> exact Plain.of_all (by decide)
  split at h
  · next inner hinner =>
    obtain ⟨address, ha, -⟩ := Option.map_eq_some_iff.1 h
    have hplain := Decimal.plain_of_readInt64? (Option.filter_eq_some_iff.1 ha).1
    rw [bracketed?_eq_some hinner]
    apply Lexeme.plain (by simp)
    simp only [List.cons_append, List.forall_mem_cons, List.forall_mem_append]
    exact ⟨by decide, hplain, by decide, List.forall_mem_nil _⟩
  split at h
  · next inner hinner =>
    have hw := quoted?_eq_some hinner
    have hmem : inner ⊆ w := by
      rw [hw]
      intro c hc
      simp [hc]
    rw [hw]
    exact .quoted (ht.quoted inner hinner) fun hm => hn (ht.subset (hmem hm))
  · exact lexeme_of_number? h

theorem lexeme_of_read? {slot : Slot} {cs w : List Char} {o : Operand} (ht : Token cs w)
    (hn : '\n' ∉ cs) (h : slot.read? w = some o) : Lexeme w := by
  cases slot with
  | name =>
    rw [Slot.read?] at h
    split at h
    · next hword => exact .word hword
    · cases h
  | readable => exact lexeme_of_operand? ht hn h
  | writable => exact lexeme_of_operand? ht hn (Option.filter_eq_some_iff.1 h).1

theorem lexeme_of_operands {n : Nat} {slots : List Slot} {ws : List (List Char)}
    {os : List Operand} {cs : List Char} (hn : '\n' ∉ cs) (ht : ∀ w ∈ ws, Token cs w)
    (hl : ws.length = slots.length) (h : operands n slots ws = .ok os) : ∀ w ∈ ws, Lexeme w := by
  induction slots generalizing ws os with
  | nil =>
    cases List.length_eq_zero_iff.1 hl
    exact List.forall_mem_nil _
  | cons slot slots ih =>
    cases ws with
    | nil => exact List.forall_mem_nil _
    | cons w ws =>
      obtain ⟨hfirst, hrest⟩ := List.forall_mem_cons.1 ht
      rw [operands] at h
      split at h
      · next o ho =>
        apply List.forall_mem_cons.2 ⟨lexeme_of_read? hfirst hn ho, _⟩
        cases hos : operands n slots ws with
        | error e =>
          rw [hos] at h
          cases h
        | ok others => exact ih hrest (Nat.succ.inj hl) hos
      · cases h

theorem lexeme_of_reads {cs : List Char} {i : Instruction} (hn : '\n' ∉ cs)
    (h : Reads (words cs) i) : ∀ w ∈ words cs, Lexeme w := by
  have ht : ∀ w ∈ words cs, Token cs w := fun w hw => token_of_mem_words hw
  generalize words cs = ws at h ht
  cases h with
  | marker hword => exact List.forall_mem_singleton.2 (.plain (by simp) (plain_marked hword))
  | spaced hword =>
    exact List.forall_mem_cons.2
      ⟨.plain (by simp) plain_marker, List.forall_mem_singleton.2 (.word hword)⟩
  | @operation m args op os hop hlen hos =>
    apply List.forall_mem_cons.2 ⟨_, lexeme_of_operands hn
      (fun w hw => ht w (List.mem_cons_of_mem m hw)) hlen (hos 0)⟩
    exact lexeme_of_mnemonic hop

theorem IsRemark.nil : IsRemark [] := fun _ hc => nomatch hc

theorem IsRemark.comment (text : List Char) : IsRemark (';' :: text) := by
  rintro c ⟨⟩
  rfl

theorem Consists.words_eq {raw : List Char} {ws : List (List Char)} (h : Consists raw ws) :
    words (body raw) = ws := by
  obtain ⟨cs, remark, rfl, hw, hr⟩ := h
  rw [body, hw.uncomment_eq hr, words_trim, hw.words_eq]

theorem body_eq_nil_iff {raw : List Char} : body raw = [] ↔ Consists raw [] := by
  constructor
  · intro h
    obtain ⟨remark, hr, he⟩ := exists_uncomment false raw
    obtain ⟨front, back, hfront, hback, hu⟩ := exists_trim (uncomment false raw)
    have hnone : trim (uncomment false raw) = [] := h
    rw [hnone, List.append_nil] at hu
    have hblanks : ∀ c ∈ uncomment false raw, isBlank c = true :=
      hu ▸ List.forall_mem_append.2 ⟨hfront, hback⟩
    exact ⟨_, remark, he, .blanks hblanks, hr⟩
  · rintro ⟨cs, remark, rfl, hw, hr⟩
    have hblanks := @trim_append_blanks [] _ hw.forall_blank
    rw [body, hw.uncomment_eq hr]
    exact hblanks

theorem Consists.instruction_iff {raw : List Char} {ws : List (List Char)} (h : Consists raw ws)
    {i : Instruction} : (∀ n, instruction n (body raw) = .ok i) ↔ Reads ws i := by
  constructor
  · intro hi
    have hreads := reads_of_instruction (hi 0)
    rwa [← words_trim, show trim (uncomment false raw) = body raw from rfl, h.words_eq] at hreads
  · intro hreads
    obtain ⟨cs, remark, rfl, hw, hr⟩ := h
    rw [body, hw.uncomment_eq hr]
    exact instruction_of_reads hw hreads

/-- A line that is accepted consists of words, whatever it looks like. -/
theorem exists_consists {n : Nat} {raw : List Char} (hn : '\n' ∉ raw) {i : Instruction}
    (h : instruction n (body raw) = .ok i) : ∃ ws, Consists raw ws := by
  obtain ⟨remark, hr, he⟩ := exists_uncomment false raw
  have hnewline : '\n' ∉ uncomment false raw := fun hm => hn (mem_of_mem_uncomment hm)
  exact ⟨_, _, remark, he, .of_words (lexeme_of_reads hnewline (reads_of_instruction h)), hr⟩

end Loader

end BlueCode
