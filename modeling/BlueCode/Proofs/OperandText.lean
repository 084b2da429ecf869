import Mathlib
import BlueCode.Image.Loader

namespace BlueCode

namespace Text

/-- Whether a character can stand anywhere in a word that is no string. -/
def Plain (c : Char) : Prop :=
  isBlank c = false ∧ c ≠ '"' ∧ c ≠ ';'

instance : DecidablePred Plain :=
  fun c => inferInstanceAs (Decidable (isBlank c = false ∧ c ≠ '"' ∧ c ≠ ';'))

theorem Plain.of_all {w : List Char} (h : (w.all fun c => decide (Plain c)) = true) :
    ∀ c ∈ w, Plain c :=
  fun c hc => of_decide_eq_true (List.all_eq_true.1 h c hc)

theorem isBlank_eq_false {c : Char} (hl : 32 < c.toNat) (hh : c.toNat < 127) :
    isBlank c = false := by
  simp only [isBlank, blankRanges, List.any_cons, List.any_nil, Bool.or_false,
    Bool.or_eq_false_iff, Bool.and_eq_false_iff, decide_eq_false_iff_not]
  omega

theorem isWordPart_range {c : Char} (h : isWordPart c = true) :
    48 ≤ c.toNat ∧ c.toNat ≤ 122 := by
  simp only [isWordPart, Char.isAlphanum, Char.isAlpha, Char.isUpper, Char.isLower, Char.isDigit,
    Bool.or_eq_true, Bool.and_eq_true, decide_eq_true_eq, beq_iff_eq, ge_iff_le,
    UInt32.le_iff_toNat_le] at h
  have upper : 'A'.val.toNat = 65 ∧ 'Z'.val.toNat = 90 := by decide
  have lower : 'a'.val.toNat = 97 ∧ 'z'.val.toNat = 122 := by decide
  have digit : '0'.val.toNat = 48 ∧ '9'.val.toNat = 57 := by decide
  have value : c.toNat = c.val.toNat := rfl
  rcases h with ((h | h) | h) | rfl
  · omega
  · omega
  · omega
  · decide

theorem Plain.of_isWordPart {c : Char} (h : isWordPart c = true) : Plain c := by
  obtain ⟨hl, hh⟩ := isWordPart_range h
  refine ⟨isBlank_eq_false (by omega) (by omega), ?_, ?_⟩
  · rintro rfl
    exact absurd h (by decide)
  · rintro rfl
    exact absurd h (by decide)

theorem isWordPart_of_isDigit {c : Char} (h : c.isDigit = true) : isWordPart c = true := by
  simp [isWordPart, Char.isAlphanum, h]

theorem Plain.of_isDigit {c : Char} (h : c.isDigit = true) : Plain c :=
  .of_isWordPart (isWordPart_of_isDigit h)

theorem isWordPart_of_isWord {cs : List Char} (h : isWord cs = true) :
    ∀ c ∈ cs, isWordPart c = true := by
  cases cs with
  | nil => exact absurd h Bool.false_ne_true
  | cons c cs =>
    simp only [isWord, Bool.and_eq_true, List.all_eq_true] at h
    obtain ⟨start, rest⟩ := h
    intro d hd
    rcases List.mem_cons.1 hd with rfl | hd
    · simp only [isWordStart, Bool.or_eq_true] at start
      rcases start with start | start
      · simp [isWordPart, Char.isAlphanum, start]
      · simp [isWordPart, start]
    · exact rest d hd

theorem isWord_append {w cs : List Char} (h : isWord w = true)
    (hcs : ∀ c ∈ cs, isWordPart c = true) : isWord (w ++ cs) = true := by
  cases w with
  | nil => exact absurd h Bool.false_ne_true
  | cons c w =>
    simp only [isWord, Bool.and_eq_true] at h
    simp only [List.cons_append, isWord, List.all_append, Bool.and_eq_true, List.all_eq_true]
    exact ⟨h.1, List.all_eq_true.1 h.2, hcs⟩

/-- A word as it stands in a line. -/
inductive Lexeme : List Char → Prop where
  | plain {w : List Char} (hw : w ≠ []) (hc : ∀ c ∈ w, Plain c) : Lexeme w
  | quoted {s : List Char} (hq : '"' ∉ s) (hn : '\n' ∉ s) : Lexeme ('"' :: s ++ ['"'])

theorem Lexeme.of_all {w : List Char} (hw : w ≠ [])
    (h : (w.all fun c => decide (Plain c)) = true) : Lexeme w :=
  .plain hw (Plain.of_all h)

theorem Lexeme.word {w : List Char} (h : isWord w = true) : Lexeme w := by
  refine .plain ?_ fun c hc => .of_isWordPart (isWordPart_of_isWord h c hc)
  rintro rfl
  exact absurd h Bool.false_ne_true

theorem Lexeme.newline_notMem {w : List Char} (h : Lexeme w) : '\n' ∉ w := by
  cases h with
  | plain _ hc => exact fun hm => absurd (hc _ hm) (by decide)
  | quoted _ hn =>
    simp only [List.cons_append, List.mem_cons, List.mem_append, List.not_mem_nil, or_false,
      not_or]
    exact ⟨by decide, hn, by decide⟩

theorem Lexeme.head_visible {w : List Char} (h : Lexeme w) :
    ∃ c rest, w = c :: rest ∧ isBlank c = false := by
  cases h with
  | plain hw hc =>
    obtain ⟨c, rest, rfl⟩ := List.exists_cons_of_ne_nil hw
    exact ⟨c, rest, rfl, (hc c List.mem_cons_self).1⟩
  | quoted => exact ⟨'"', _, rfl, by decide⟩

theorem Lexeme.last_visible {w : List Char} (h : Lexeme w) :
    ∃ c init, w = init ++ [c] ∧ isBlank c = false := by
  cases h with
  | plain hw hc =>
    exact ⟨w.getLast hw, w.dropLast, (List.dropLast_concat_getLast hw).symm,
      (hc _ (List.getLast_mem hw)).1⟩
  | @quoted s => exact ⟨'"', '"' :: s, rfl, by decide⟩

end Text

namespace Decimal

theorem forall_mem_intChars (n : Int) : ∀ c ∈ intChars n, c.isDigit = true ∨ c = '-' := by
  intro c hc
  unfold intChars at hc
  split at hc
  · rcases List.mem_cons.1 hc with rfl | hc
    · exact .inr rfl
    · exact .inl (isDigit_of_mem_toDigits hc)
  · exact .inl (isDigit_of_mem_toDigits hc)

theorem intChars_ne_nil (n : Int) : intChars n ≠ [] := by
  unfold intChars
  split
  · exact List.cons_ne_nil _ _
  · exact Nat.toDigits_ne_nil

def IsFloatChar (c : Char) : Prop :=
  c.isDigit = true ∨ c ∈ ['-', '+', '.', 'e', 'N', 'a', 'i', 'n', 'f']

instance : DecidablePred IsFloatChar :=
  fun c => inferInstanceAs (Decidable (c.isDigit = true ∨ _))

theorem IsFloatChar.of_all {w : List Char} (h : (w.all fun c => decide (IsFloatChar c)) = true) :
    ∀ c ∈ w, IsFloatChar c :=
  fun c hc => of_decide_eq_true (List.all_eq_true.1 h c hc)

theorem IsFloatChar.plain {c : Char} (h : IsFloatChar c) : Text.Plain c := by
  rcases h with h | h
  · exact .of_isDigit h
  · exact Text.Plain.of_all (by decide) c h

theorem Magnitude.isDigit_of_mem_shortest {m : Magnitude} {tie : Tie} {c : Char}
    (h : c ∈ (m.shortest tie).digits) : c.isDigit = true := by
  simp only [shortest, List.mem_reverse] at h
  exact isDigit_of_mem_toDigits (List.mem_reverse.1 ((List.dropWhile_sublist _).mem h))

namespace Layout

variable {l : Layout} {d : Digits}

theorem isFloatChar_of_mem_positional (hd : ∀ c ∈ d.digits, c.isDigit = true) :
    ∀ c ∈ l.positional d, IsFloatChar c := by
  have zero : IsFloatChar '0' := .inl (by decide)
  have point : IsFloatChar '.' := .inr (by decide)
  intro c hc
  unfold positional at hc
  split at hc
  · simp only [List.mem_cons, List.mem_append, List.cons_append, List.mem_replicate] at hc
    rcases hc with rfl | rfl | ⟨-, rfl⟩ | hc
    · exact zero
    · exact point
    · exact zero
    · exact .inl (hd c hc)
  · simp only at hc
    split at hc
    · simp only [List.mem_append, List.mem_replicate] at hc
      rcases hc with (hc | ⟨-, rfl⟩) | hc
      · exact .inl (hd c hc)
      · exact zero
      · split at hc
        · simp only [List.mem_cons, List.not_mem_nil, or_false] at hc
          rcases hc with rfl | rfl
          · exact point
          · exact zero
        · exact absurd hc List.not_mem_nil
    · simp only [List.mem_append, List.mem_cons] at hc
      rcases hc with hc | rfl | hc
      · exact .inl (hd c (List.mem_of_mem_take hc))
      · exact point
      · exact .inl (hd c (List.mem_of_mem_drop hc))

theorem isFloatChar_of_mem_scientific (hd : ∀ c ∈ d.digits, c.isDigit = true) :
    ∀ c ∈ l.scientific d, IsFloatChar c := by
  intro c hc
  simp only [scientific, List.mem_append, List.mem_cons] at hc
  rcases hc with hc | rfl | hc
  · split at hc
    · next first second rest heq =>
      rw [heq] at hd
      rcases List.mem_cons.1 hc with rfl | hc
      · exact .inl (hd _ List.mem_cons_self)
      · rcases List.mem_cons.1 hc with rfl | hc
        · exact .inr (by decide)
        · exact .inl (hd c (List.mem_cons_of_mem _ hc))
    · exact .inl (hd c hc)
  · exact .inr (by decide)
  · have digits : ∀ c ∈ Nat.toDigits 10 d.lead.natAbs, IsFloatChar c :=
      fun c hc => .inl (isDigit_of_mem_toDigits hc)
    split at hc
    · rcases List.mem_cons.1 hc with rfl | hc
      · exact .inr (by decide)
      · exact digits c hc
    · split at hc
      · rcases List.mem_cons.1 hc with rfl | hc
        · exact .inr (by decide)
        · exact digits c hc
      · exact digits c hc

theorem isFloatChar_of_mem_magnitude {m : Magnitude} :
    ∀ c ∈ l.magnitude m, IsFloatChar c := by
  intro c hc
  have digits : ∀ c ∈ (m.shortest l.tie).digits, c.isDigit = true :=
    fun c hc => m.isDigit_of_mem_shortest hc
  simp only [magnitude] at hc
  split at hc
  · exact isFloatChar_of_mem_positional digits c hc
  · exact isFloatChar_of_mem_scientific digits c hc

theorem isFloatChar_of_mem_chars {x : Float} : ∀ c ∈ l.chars x, IsFloatChar c := by
  intro c hc
  simp only [chars] at hc
  split at hc
  · exact .of_all (by decide) c hc
  · have unsigned : ∀ c ∈ (if x.isInf = true then ['i', 'n', 'f']
        else if (Magnitude.ofBits x.toBits.toNat).mantissa = 0 then l.positional ⟨['0'], 0⟩
        else l.magnitude (Magnitude.ofBits x.toBits.toNat)), IsFloatChar c := by
      intro c hc
      split at hc
      · exact .of_all (by decide) c hc
      · split at hc
        · exact isFloatChar_of_mem_positional (by simp) c hc
        · exact isFloatChar_of_mem_magnitude c hc
    split at hc
    · exact unsigned c hc
    · rcases List.mem_cons.1 hc with rfl | hc
      · exact .inr (by decide)
      · exact unsigned c hc

theorem mark_mem_literal {x : Float} (hn : x.isNaN = false) (hi : x.isInf = false) :
    '.' ∈ literal.chars x ∨ 'e' ∈ literal.chars x := by
  have positional (d : Digits) : '.' ∈ literal.positional d := by
    unfold positional
    split
    · simp
    · simp only
      split <;> simp [literal]
  have scientific (d : Digits) : 'e' ∈ literal.scientific d := by
    simp [Layout.scientific]
  have magnitude (m : Magnitude) : '.' ∈ literal.magnitude m ∨ 'e' ∈ literal.magnitude m := by
    simp only [Layout.magnitude]
    split
    · exact .inl (positional _)
    · exact .inr (scientific _)
  have unsigned : '.' ∈ (if (Magnitude.ofBits x.toBits.toNat).mantissa = 0
        then literal.positional ⟨['0'], 0⟩ else literal.magnitude (Magnitude.ofBits x.toBits.toNat)) ∨
      'e' ∈ (if (Magnitude.ofBits x.toBits.toNat).mantissa = 0
        then literal.positional ⟨['0'], 0⟩ else literal.magnitude (Magnitude.ofBits x.toBits.toNat)) := by
    split
    · exact .inl (positional _)
    · exact magnitude _
  simp only [chars, hn, hi, Bool.false_eq_true, if_false]
  split
  · exact unsigned
  · exact unsigned.imp (List.mem_cons_of_mem _) (List.mem_cons_of_mem _)

theorem literal_chars_ne_nil (x : Float) : literal.chars x ≠ [] := by
  intro h
  by_cases hn : x.isNaN = true
  · simp only [chars, hn, if_true] at h
    exact List.cons_ne_nil _ _ h
  · by_cases hi : x.isInf = true
    · simp only [chars, hn, hi, if_true] at h
      split at h
      · exact absurd h (by decide)
      · split at h
        · exact List.cons_ne_nil _ _ h
        · exact List.cons_ne_nil _ _ h
    · rcases mark_mem_literal (eq_false_of_ne_true hn) (eq_false_of_ne_true hi) with hm | hm
      · exact List.ne_nil_of_mem hm h
      · exact List.ne_nil_of_mem hm h

end Layout

theorem isNaN_of_isFinite {x : Float} (h : x.isFinite = true) :
    x.isNaN = false ∧ x.isInf = false := by
  change x.toModel.unpack.isFinite = true at h
  change x.toModel.unpack.isNaN = false ∧ x.toModel.unpack.isInf = false
  cases hu : x.toModel.unpack with
  | notANumber => simp [hu, Float.Model.UnpackedFloat.isFinite] at h
  | infinity => simp [hu, Float.Model.UnpackedFloat.isFinite] at h
  | zero => exact ⟨rfl, rfl⟩
  | finite => exact ⟨rfl, rfl⟩

theorem forall_isDigit_of_readNat? {cs : List Char} {n : Nat} (h : readNat? cs = some n) :
    cs ≠ [] ∧ ∀ c ∈ cs, c.isDigit = true := by
  unfold readNat? at h
  split at h
  · next hc => exact ⟨hc.1, List.all_eq_true.1 hc.2⟩
  · exact absurd h (by simp)

theorem splitSign_eq (cs : List Char) :
    cs = (splitSign cs).2 ∨ cs = '-' :: (splitSign cs).2 ∨ cs = '+' :: (splitSign cs).2 := by
  unfold splitSign
  split
  · exact .inr (.inl rfl)
  · exact .inr (.inr rfl)
  · exact .inl rfl

theorem readInt64?_eq_none {cs : List Char} {c : Char} (hc : c ∈ cs) (hd : c.isDigit = false)
    (hm : c ≠ '-') (hp : c ≠ '+') : readInt64? cs = none := by
  have rest : c ∈ (splitSign cs).2 := by
    rcases splitSign_eq cs with h | h | h
    · exact h ▸ hc
    · exact (List.mem_cons.1 (h ▸ hc)).resolve_left hm
    · exact (List.mem_cons.1 (h ▸ hc)).resolve_left hp
  have digits : readNat? (splitSign cs).2 = none := by
    cases hr : readNat? (splitSign cs).2 with
    | none => rfl
    | some n => exact absurd ((forall_isDigit_of_readNat? hr).2 c rest) (by simp [hd])
  simp [readInt64?, readInt?, digits]

theorem readUnsigned?_cons {c : Char} {rest : List Char} {x : Float}
    (h : readUnsigned? (c :: rest) = some x) : c.isDigit = true ∨ c = '.' := by
  by_cases hd : c.isDigit = true
  · exact .inl hd
  · by_cases hp : c = '.'
    · exact .inr hp
    · exact absurd h (by simp [readUnsigned?, hd, hp, readNat?])

theorem readFloat?_cons {c : Char} {rest : List Char} {x : Float}
    (h : readFloat? (c :: rest) = some x) (hx : x.isFinite = true) :
    c.isDigit = true ∨ c = '-' ∨ c = '+' ∨ c = '.' := by
  by_cases hm : c = '-'
  · exact .inr (.inl hm)
  by_cases hp : c = '+'
  · exact .inr (.inr (.inl hp))
  have sign : splitSign (c :: rest) = (false, c :: rest) := by
    unfold splitSign
    split
    · next heq => exact absurd (List.cons.inj heq).1 hm
    · next heq => exact absurd (List.cons.inj heq).1 hp
    · rfl
  simp only [readFloat?, sign, Bool.false_eq_true, if_false, Option.map_id'] at h
  split at h
  · cases h
    exact absurd hx (by decide)
  · split at h
    · cases h
      exact absurd hx (by decide)
    · rcases readUnsigned?_cons h with hd | hpoint
      · exact .inl hd
      · exact .inr (.inr (.inr hpoint))

end Decimal

namespace Operand

/-- Whether the text of an operand can be read at all. -/
def Legible : Operand → Prop
  | heap address => 0 ≤ address
  | float x => x.isFinite = true
  | str s => '"' ∉ s.toList ∧ '\n' ∉ s.toList
  | name s => Text.isWord s.toList = true
  | reg _ | stackPointer | stackTop | int _ => True

instance : DecidablePred Legible
  | heap address => inferInstanceAs (Decidable (0 ≤ address))
  | float x => inferInstanceAs (Decidable (x.isFinite = true))
  | str s => inferInstanceAs (Decidable ('"' ∉ s.toList ∧ '\n' ∉ s.toList))
  | name s => inferInstanceAs (Decidable (Text.isWord s.toList = true))
  | reg _ | stackPointer | stackTop | int _ => isTrue trivial

/-- Floating-point numbers may be infinite here: what counts is the form of the word. -/
theorem lexeme_float (x : Float) : Text.Lexeme (float x).chars :=
  .plain (Decimal.Layout.literal_chars_ne_nil x)
    fun c hc => (Decimal.Layout.isFloatChar_of_mem_chars c hc).plain

theorem lexeme_int (n : Int64) : Text.Lexeme (int n).chars := by
  refine .plain (Decimal.intChars_ne_nil _) fun c hc => ?_
  rcases Decimal.forall_mem_intChars _ c hc with hd | rfl
  · exact .of_isDigit hd
  · decide

theorem lexeme_heap (address : Int64) : Text.Lexeme (heap address).chars := by
  refine .plain (List.cons_ne_nil _ _) fun c hc => ?_
  simp only [chars, List.cons_append, List.mem_cons, List.mem_append, List.not_mem_nil,
    or_false] at hc
  rcases hc with rfl | hc | rfl
  · decide
  · rcases Decimal.forall_mem_intChars _ c hc with hd | rfl
    · exact .of_isDigit hd
    · decide
  · decide

theorem Legible.lexeme {o : Operand} (h : o.Legible) : Text.Lexeme o.chars := by
  cases o with
  | reg r => cases r <;> exact .of_all (by decide) (by decide)
  | stackPointer => exact .of_all (by decide) (by decide)
  | stackTop => exact .of_all (by decide) (by decide)
  | heap address => exact lexeme_heap address
  | int n => exact lexeme_int n
  | float x => exact lexeme_float x
  | str s => exact .quoted h.1 h.2
  | name s => exact .word h

end Operand

namespace Loader

theorem ofName?_eq_none {cs : List Char} (h : cs.head? ≠ some 'r') :
    Register.ofName? (String.ofList cs) = none := by
  rw [Register.ofName?, List.find?_eq_none]
  intro r _ heq
  have name : r.name.toList = cs := by
    rw [eq_of_beq heq, String.toList_ofList]
  apply h
  rw [← name]
  cases r <;> rfl

/-- A word that does not start like a register is a heap cell, a string or a number. -/
theorem operand?_eq {word : List Char} (hr : (word.map Char.toLower).head? ≠ some 'r')
    (hs : word.map Char.toLower ≠ "[rsp]".toList) :
    operand? word =
      match bracketed? word with
      | some inner => ((Decimal.readInt64? inner).filter (0 ≤ ·)).map .heap
      | none =>
        match quoted? word with
        | some inner => some (.str (String.ofList inner))
        | none => number? word := by
  have pointer : String.ofList (word.map Char.toLower) ≠ "rsp" := by
    intro heq
    apply hr
    rw [← String.toList_ofList (l := word.map Char.toLower), heq]
    rfl
  have top : String.ofList (word.map Char.toLower) ≠ "[rsp]" := by
    intro heq
    apply hs
    rw [← heq, String.toList_ofList]
  exact (if_neg pointer).trans ((if_neg top).trans (ofName?_eq_none hr ▸ rfl))

theorem toLower_of_isDigit {c : Char} (h : c.isDigit = true) : c.toLower = c := by
  have range := Char.isDigit_iff_toNat.1 h
  have nine : '9'.toNat = 57 := by decide
  unfold Char.toLower
  rw [dif_neg]
  intro hu
  have upper := UInt32.le_iff_toNat_le.1 hu.1
  have first : 'A'.val.toNat = 65 := by decide
  have value : c.toNat = c.val.toNat := rfl
  omega

theorem operand?_eq_number? {word : List Char}
    (h : ∀ c ∈ word.head?, Decimal.IsFloatChar c) : operand? word = number? word := by
  cases word with
  | nil => decide
  | cons c rest =>
    have first : c.toLower ≠ 'r' ∧ c.toLower ≠ '[' ∧ c ≠ '[' ∧ c ≠ '"' := by
      rcases h c rfl with hd | hm
      · rw [toLower_of_isDigit hd]
        refine ⟨?_, ?_, ?_, ?_⟩ <;> (rintro rfl; exact absurd hd (by decide))
      · simp only [List.mem_cons, List.not_mem_nil, or_false] at hm
        rcases hm with rfl | rfl | rfl | rfl | rfl | rfl | rfl | rfl | rfl <;> decide
    obtain ⟨register, pointer, bracket, quote⟩ := first
    rw [operand?_eq]
    · have bracketed : bracketed? (c :: rest) = none := by
        unfold bracketed?
        split
        · next heq => exact absurd (List.cons.inj heq).1 bracket
        · rfl
      have quoted : quoted? (c :: rest) = none := by
        unfold quoted?
        split
        · next heq => exact absurd (List.cons.inj heq).1 quote
        · rfl
      simp only [bracketed, quoted]
    · exact fun heq => register (Option.some.inj heq)
    · exact fun heq => pointer (List.cons.inj heq).1

theorem operand?_float (x : Float) :
    operand? (Operand.float x).chars = number? (Operand.float x).chars :=
  operand?_eq_number? fun c hc =>
    Decimal.Layout.isFloatChar_of_mem_chars c (List.mem_of_mem_head? hc)

theorem number?_int (n : Int64) : number? (Operand.int n).chars = some (.int n) := by
  cases hw : Decimal.intChars n.toInt with
  | nil => exact absurd hw (Decimal.intChars_ne_nil _)
  | cons c rest =>
    have first : c.isDigit = true ∨ c = '-' :=
      Decimal.forall_mem_intChars n.toInt c (hw ▸ List.mem_cons_self)
    have read := Decimal.readInt64?_intChars n
    rw [hw] at read
    simp only [Operand.chars, hw, number?, read]
    exact if_pos (first.imp_right .inl)

theorem number?_float {x : Float} (hx : x.isFinite = true)
    (hread : Decimal.readFloat? (Decimal.Layout.literal.chars x) = some x) :
    number? (Operand.float x).chars = some (.float x) := by
  obtain ⟨hn, hi⟩ := Decimal.isNaN_of_isFinite hx
  have noInt : Decimal.readInt64? (Decimal.Layout.literal.chars x) = none := by
    rcases Decimal.Layout.mark_mem_literal hn hi with hm | hm
    · exact Decimal.readInt64?_eq_none hm (by decide) (by decide) (by decide)
    · exact Decimal.readInt64?_eq_none hm (by decide) (by decide) (by decide)
  cases hw : Decimal.Layout.literal.chars x with
  | nil => exact absurd hw (Decimal.Layout.literal_chars_ne_nil x)
  | cons c rest =>
    rw [hw] at hread noInt
    simp only [Operand.chars, hw, number?, noInt, hread, Option.filter_some, hx, if_true,
      Option.map_some]
    exact if_pos (Decimal.readFloat?_cons hread hx)

theorem operand?_heap (address : Int64) :
    operand? (Operand.heap address).chars = if 0 ≤ address then some (.heap address) else none := by
  have inner : bracketed? (Operand.heap address).chars =
      some (Decimal.intChars address.toInt) := by
    simp [bracketed?, Operand.chars]
  rw [operand?_eq]
  · simp only [inner, Decimal.readInt64?_intChars, Option.filter_some, decide_eq_true_eq]
    split
    · rfl
    · rfl
  · simp [Operand.chars]
  · intro heq
    cases hw : Decimal.intChars address.toInt with
    | nil => exact absurd hw (Decimal.intChars_ne_nil _)
    | cons c rest =>
      simp only [Operand.chars, hw, List.cons_append, List.map_cons] at heq
      have lower : c.toLower = 'r' := (List.cons.inj (List.cons.inj heq).2).1
      rcases Decimal.forall_mem_intChars address.toInt c (hw ▸ List.mem_cons_self) with hd | rfl
      · rw [toLower_of_isDigit hd] at lower
        exact absurd (lower ▸ hd) (by decide)
      · exact absurd lower (by decide)

/-- What an operand that is no name is written as, is read as that operand. -/
theorem operand?_chars {o : Operand} (h : o.Legible) (hname : ∀ s, o ≠ .name s)
    (hread : ∀ x, o = .float x →
      Decimal.readFloat? (Decimal.Layout.literal.chars x) = some x) :
    operand? o.chars = some o := by
  cases o with
  | reg r => cases r <;> decide
  | stackPointer => decide
  | stackTop => decide
  | heap address => rw [operand?_heap, if_pos (show 0 ≤ address from h)]
  | int n =>
    rw [operand?_eq_number?, number?_int]
    intro c hc
    rcases Decimal.forall_mem_intChars n.toInt c (List.mem_of_mem_head? hc) with hd | rfl
    · exact .inl hd
    · exact .inr (by decide)
  | float x => rw [operand?_float, number?_float h (hread x rfl)]
  | str s =>
    have inner : quoted? (Operand.str s).chars = some s.toList := by
      simp [quoted?, Operand.chars]
    have bracketed : bracketed? (Operand.str s).chars = none := rfl
    rw [operand?_eq]
    · simp only [bracketed, inner, String.ofList_toList]
    · simp [Operand.chars]
    · intro heq
      exact absurd (List.cons.inj heq).1 (by decide)
  | name s => exact absurd rfl (hname s)

end Loader

end BlueCode
