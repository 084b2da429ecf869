import BlueCode.Json.Printer
import BlueCode.Json.Reader
import BlueCode.Proofs.DecimalText

namespace BlueCode.Json

open Decimal (IsDigits)

namespace Lexer

variable {w f e cs rest : List Char}

/-- The whole part of a number: a zero, or digits that do not start with one. -/
def Whole (w : List Char) : Prop :=
  w = ['0'] ∨ IsDigits w ∧ w.head? ≠ some '0'

inductive Fraction : List Char → Prop where
  | none : Fraction []
  | digits {ds : List Char} : IsDigits ds → Fraction ('.' :: ds)

inductive Exponent : List Char → Prop where
  | none : Exponent []
  | minus {ds : List Char} : IsDigits ds → Exponent ('e' :: '-' :: ds)
  | plus {ds : List Char} : IsDigits ds → Exponent ('e' :: '+' :: ds)

inductive Unsigned : List Char → Prop where
  | mk {w f e : List Char} : Whole w → Fraction f → Exponent e → Unsigned (w ++ f ++ e)

inductive Numeral : List Char → Prop where
  | plain {cs : List Char} : Unsigned cs → Numeral cs
  | minus {cs : List Char} : Unsigned cs → Numeral ('-' :: cs)

def Stops (rest : List Char) : Prop :=
  ∀ c ∈ rest.head?, c.isDigit = false ∧ c ≠ '.' ∧ c ≠ 'e' ∧ c ≠ 'E'

theorem digits_append (hd : IsDigits w) (hr : ∀ c ∈ rest.head?, c.isDigit = false) :
    digits (w ++ rest) = some (w, rest) := by
  have found : (w ++ rest).takeWhile Char.isDigit = w :=
    Loader.takeWhile_append_of_forall hd.2 hr
  have behind : (w ++ rest).dropWhile Char.isDigit = rest := by
    rw [List.dropWhile_append_of_pos hd.2, Text.dropWhile_of_head hr]
  rw [digits, found, behind]
  split
  · next hnil => exact absurd rfl hd.1
  · rfl

theorem whole_append (hw : Whole w) (hr : ∀ c ∈ rest.head?, c.isDigit = false) :
    whole (w ++ rest) = some (w, rest) := by
  rcases hw with rfl | ⟨hd, hz⟩
  · rfl
  · obtain ⟨c, v, rfl⟩ := List.exists_cons_of_ne_nil hd.1
    rw [List.cons_append, whole, ← List.cons_append]
    · exact digits_append hd hr
    · rintro tail ⟨⟩
      exact hz rfl

theorem Fraction.head (hf : Fraction f) (hr : ∀ c ∈ rest.head?, c.isDigit = false) :
    ∀ c ∈ (f ++ rest).head?, c.isDigit = false := by
  cases hf with
  | none => exact hr
  | digits =>
    rintro c ⟨⟩
    decide

theorem Exponent.head (he : Exponent e) (hr : Stops rest) :
    ∀ c ∈ (e ++ rest).head?, c.isDigit = false ∧ c ≠ '.' := by
  cases he with
  | none => exact fun c hc => ⟨(hr c hc).1, (hr c hc).2.1⟩
  | minus =>
    rintro c ⟨⟩
    decide
  | plus =>
    rintro c ⟨⟩
    decide

theorem fraction_append (hf : Fraction f) (hr : ∀ c ∈ rest.head?, c.isDigit = false ∧ c ≠ '.') :
    fraction (f ++ rest) = some (f, rest) := by
  cases hf with
  | none =>
    rw [List.nil_append, fraction]
    rintro tail rfl
    exact (hr '.' rfl).2 rfl
  | digits hd =>
    rw [List.cons_append, fraction, digits_append hd fun c hc => (hr c hc).1]
    rfl

theorem exponent_append (he : Exponent e) (hr : Stops rest) :
    exponent (e ++ rest) = some (e, rest) := by
  cases he with
  | none =>
    cases rest with
    | nil => rfl
    | cons c rest =>
      obtain ⟨-, -, he, hE⟩ := hr c rfl
      exact if_neg (by simp [he, hE])
  | minus hd =>
    change (digits (_ ++ rest)).map _ = _
    rw [digits_append hd fun c hc => (hr c hc).1]
    rfl
  | plus hd =>
    change (digits (_ ++ rest)).map _ = _
    rw [digits_append hd fun c hc => (hr c hc).1]
    rfl

theorem unsigned_append (h : Unsigned cs) (hr : Stops rest) :
    unsigned (cs ++ rest) = some (cs, rest) := by
  obtain ⟨hw, hf, he⟩ := h
  have behind := he.head hr
  simp only [List.append_assoc, unsigned, Option.bind_eq_bind, Option.bind_some,
    whole_append hw (hf.head fun c hc => (behind c hc).1), fraction_append hf behind,
    exponent_append he hr]
  rfl

def mark? : Char → Option Token
  | '[' => some .openBracket
  | ']' => some .closeBracket
  | '{' => some .openBrace
  | '}' => some .closeBrace
  | ':' => some .colon
  | ',' => some .comma
  | _ => none

theorem tokens_mark (c : Char) {t : Token} (h : mark? c = some t) :
    tokens (c :: rest) = (tokens rest).map (t :: ·) := by
  unfold mark? at h
  split at h
  case h_7 => cases h
  all_goals
    cases h
    rw [tokens]

theorem tokens_cons {c : Char}
    (hc : c ∉ ['n', 't', 'f', '[', ']', '{', '}', ':', ',', '"', '-']) : tokens (c :: rest) =
      if isSpace c then tokens rest
      else (unsigned (c :: rest)).bind fun (found, after) =>
        (tokens after).map (.scalar (.number (String.ofList found)) :: ·) := by
  simp only [List.mem_cons, not_or] at hc
  rw [tokens]
  · congr 1
    split
    · next h => simp only [h, Option.bind_some]
    · next h => simp only [h, Option.bind_none]
  all_goals simp_all

theorem not_number_of_isSpace {c : Char} (hc : isSpace c = true) :
    c.isDigit = false ∧ c ≠ '.' ∧ c ≠ 'e' ∧ c ≠ 'E' := by
  simp only [isSpace, Bool.or_eq_true, beq_iff_eq] at hc
  rcases hc with ((rfl | rfl) | rfl) | rfl <;> decide

theorem tokens_space {c : Char} (hc : isSpace c = true) : tokens (c :: rest) = tokens rest := by
  rw [tokens_cons, if_pos hc]
  simp only [isSpace, Bool.or_eq_true, beq_iff_eq] at hc
  rcases hc with ((rfl | rfl) | rfl) | rfl <;> decide

theorem isDigit_notMem {c : Char} (hc : c.isDigit = true) :
    c ∉ ['n', 't', 'f', '[', ']', '{', '}', ':', ',', '"', '-'] := by
  intro hm
  simp only [List.mem_cons, List.not_mem_nil, or_false] at hm
  rcases hm with rfl | rfl | rfl | rfl | rfl | rfl | rfl | rfl | rfl | rfl | rfl <;>
    exact absurd hc (by decide)

theorem Unsigned.head (h : Unsigned cs) : ∃ c v, cs = c :: v ∧ c.isDigit = true := by
  obtain ⟨hw, -, -⟩ := h
  rcases hw with rfl | ⟨hd, -⟩
  · exact ⟨'0', _, rfl, by decide⟩
  · obtain ⟨c, v, rfl⟩ := List.exists_cons_of_ne_nil hd.1
    exact ⟨c, _, rfl, hd.2 c List.mem_cons_self⟩

theorem tokens_numeral (h : Numeral cs) (hr : Stops rest) : tokens (cs ++ rest) =
    (tokens rest).map (.scalar (.number (String.ofList cs)) :: ·) := by
  cases h with
  | plain h =>
    obtain ⟨c, v, rfl, hc⟩ := h.head
    have hspace : isSpace c = false := by
      rw [Bool.eq_false_iff]
      exact fun hs => Bool.noConfusion (hc.symm.trans (not_number_of_isSpace hs).1)
    have hread : unsigned (c :: (v ++ rest)) = some (c :: v, rest) := unsigned_append h hr
    rw [List.cons_append, tokens_cons (isDigit_notMem hc), hspace, hread]
    rfl
  | minus h =>
    rw [List.cons_append, tokens_minus, unsigned_append h hr]
    rfl

theorem parts_char {c : Char} (hq : c ≠ '"') (hb : c ≠ '\\') (hc : ¬ c.toNat < 0x20) :
    parts (c :: rest) = (parts rest).map fun (more, after) => (.char c :: more, after) := by
  rw [parts, if_neg (by simp only [hb, hc, or_self, not_false_eq_true])]
  all_goals simp_all

theorem hexUnit?_hexPair : ∀ n < 0x20,
    hexUnit? '0' '0' (Nat.digitChar (n / 16)) (Nat.digitChar (n % 16)) = some n := by
  decide

theorem join_unit {n : Nat} (hn : n < 0xd800) (more : List Part) :
    join (.unit n :: more) = (join more).map (Char.ofNat n :: ·) := by
  rw [join.eq_def]
  dsimp only
  rw [if_neg (by omega), if_neg (by omega)]

theorem parts_escape (c : Char) (rest : List Char) : ∃ part,
    (∀ more, join (part :: more) = (join more).map (c :: ·)) ∧
    parts (escape c ++ rest) = (parts rest).map fun (more, after) => (part :: more, after) := by
  have short {d : Char} (h : shortEscape? d = some c) : ∃ part,
      (∀ more, join (part :: more) = (join more).map (c :: ·)) ∧
      parts (['\\', d] ++ rest) = (parts rest).map fun (more, after) => (part :: more, after) :=
    ⟨.char c, fun _ => rfl, parts_short h⟩
  unfold escape
  split
  case h_8 hquote hbackslash _ _ _ _ _ =>
    split
    · next hcontrol =>
      refine ⟨.unit c.toNat, fun more => ?_, parts_unit (hexUnit?_hexPair c.toNat hcontrol)⟩
      rw [join_unit (by omega), Char.ofNat_toNat]
    · next hcontrol => exact ⟨.char c, fun _ => rfl, parts_char hquote hbackslash hcontrol⟩
  all_goals exact short rfl

theorem parts_quote (s rest : List Char) : ∃ content, join content = some s ∧
    parts (s.flatMap escape ++ '"' :: rest) = some (content, rest) := by
  induction s with
  | nil => exact ⟨[], rfl, rfl⟩
  | cons c s ih =>
    obtain ⟨content, hjoin, hparts⟩ := ih
    obtain ⟨part, hpart, hescape⟩ := parts_escape c (s.flatMap escape ++ '"' :: rest)
    refine ⟨part :: content, ?_, ?_⟩
    · rw [hpart, hjoin]
      rfl
    · rw [List.flatMap_cons, List.append_assoc, hescape, hparts]
      rfl

theorem tokens_string (s : Option String) : tokens (quote s ++ rest) =
    (tokens rest).map (.scalar (.string s) :: ·) := by
  cases s with
  | none =>
    have hparts : parts ('\\' :: 'u' :: 'd' :: '8' :: '0' :: '0' :: '"' :: rest) =
        some ([.unit 0xd800], rest) := by
      rw [parts_unit (rfl : hexUnit? 'd' '8' '0' '0' = some 0xd800), parts]
      rfl
    change tokens ('"' :: '\\' :: 'u' :: 'd' :: '8' :: '0' :: '0' :: '"' :: rest) = _
    rw [tokens_quote, hparts]
    rfl
  | some s =>
    obtain ⟨content, hjoin, hparts⟩ := parts_quote s.toList rest
    rw [quote, List.append_assoc, List.cons_append, tokens_quote, List.singleton_append, hparts]
    simp only [Option.bind_some, hjoin, Option.map_some, String.ofList_toList]

theorem tokens_spaces {space : List Char} (hs : ∀ c ∈ space, isSpace c = true) :
    tokens (space ++ rest) = tokens rest := by
  induction space with
  | nil => rfl
  | cons c space ih =>
    rw [List.cons_append, tokens_space (hs c List.mem_cons_self)]
    exact ih fun d hd => hs d (List.mem_cons_of_mem c hd)

theorem isSpace_of_mem_lineBreak (style : Style) (depth : Nat) :
    ∀ c ∈ style.lineBreak depth, isSpace c = true := by
  cases style with
  | compact => exact nofun
  | pretty =>
    intro c hc
    rcases List.mem_cons.1 hc with rfl | hc
    · rfl
    · rw [List.eq_of_mem_replicate hc]
      rfl

theorem tokens_lineBreak (style : Style) (depth : Nat) :
    tokens (style.lineBreak depth ++ rest) = tokens rest :=
  tokens_spaces (isSpace_of_mem_lineBreak style depth)

theorem tokens_colon (style : Style) : tokens (style.colon ++ rest) =
    (tokens rest).map (.colon :: ·) := by
  cases style with
  | compact => exact tokens_mark ':' rfl
  | pretty =>
    change tokens (':' :: ' ' :: rest) = _
    rw [tokens_mark ':' rfl, tokens_space rfl]

theorem Stops.cons {c : Char} (hc : c.isDigit = false ∧ c ≠ '.' ∧ c ≠ 'e' ∧ c ≠ 'E') :
    Stops (c :: rest) := by
  rintro d ⟨⟩
  exact hc

theorem stops_spaces {space : List Char} (hs : ∀ c ∈ space, isSpace c = true) (h : Stops rest) :
    Stops (space ++ rest) := by
  cases space with
  | nil => exact h
  | cons c space => exact .cons (not_number_of_isSpace (hs c List.mem_cons_self))

theorem stops_items (style : Style) (depth : Nat) (items : List Json) (h : Stops rest) :
    Stops (itemChars style depth items ++ rest) := by
  cases items with
  | nil => exact h
  | cons => exact .cons (by decide)

theorem stops_fields (style : Style) (depth : Nat) (fields : List (Option String × Json))
    (h : Stops rest) : Stops (fieldChars style depth fields ++ rest) := by
  cases fields with
  | nil => exact h
  | cons => exact .cons (by decide)

end Lexer

open Json.Lexer

mutual

/-- All numbers in the document are written as documents write them. -/
def WellWritten : Json → Prop
  | number text => Numeral text.toList
  | array items => ItemsWellWritten items
  | object fields => FieldsWellWritten fields
  | _ => True

def ItemsWellWritten : List Json → Prop
  | [] => True
  | j :: rest => WellWritten j ∧ ItemsWellWritten rest

def FieldsWellWritten : List (Option String × Json) → Prop
  | [] => True
  | (_, j) :: rest => WellWritten j ∧ FieldsWellWritten rest

end

theorem itemsWellWritten_map {α : Type} (write : α → Json) (h : ∀ a, (write a).WellWritten)
    (as : List α) : ItemsWellWritten (as.map write) := by
  induction as with
  | nil => trivial
  | cons a as ih => exact ⟨h a, ih⟩

mutual

def tokens : Json → List Token
  | array [] => [.openBracket, .closeBracket]
  | array (first :: rest) => .openBracket :: tokens first ++ itemTokens rest ++ [.closeBracket]
  | object [] => [.openBrace, .closeBrace]
  | object ((name, value) :: rest) =>
    .openBrace :: .scalar (.string name) :: .colon :: tokens value ++ fieldTokens rest ++
      [.closeBrace]
  | j => [.scalar j]

def itemTokens : List Json → List Token
  | [] => []
  | j :: rest => .comma :: tokens j ++ itemTokens rest

def fieldTokens : List (Option String × Json) → List Token
  | [] => []
  | (name, value) :: rest =>
    .comma :: .scalar (.string name) :: .colon :: tokens value ++ fieldTokens rest

end

mutual

/-- The text of a document is split into its tokens, whatever follows. -/
theorem tokens_chars (style : Style) : ∀ (j : Json) (depth : Nat) {rest : List Char},
    j.WellWritten → Stops rest →
    Lexer.tokens (j.chars style depth ++ rest) = (Lexer.tokens rest).map (j.tokens ++ ·)
  | null, _, rest, _, _ => by
    change Lexer.tokens ('n' :: 'u' :: 'l' :: 'l' :: rest) = _
    rw [Lexer.tokens]
    rfl
  | bool true, _, rest, _, _ => by
    change Lexer.tokens ('t' :: 'r' :: 'u' :: 'e' :: rest) = _
    rw [Lexer.tokens]
    rfl
  | bool false, _, rest, _, _ => by
    change Lexer.tokens ('f' :: 'a' :: 'l' :: 's' :: 'e' :: rest) = _
    rw [Lexer.tokens]
    rfl
  | number text, _, _, hw, hr => by
    rw [chars, tokens_numeral hw hr, String.ofList_toList]
    rfl
  | string text, _, _, _, _ => tokens_string text
  | array [], _, rest, _, _ => by
    change Lexer.tokens ('[' :: ']' :: rest) = _
    rw [tokens_mark '[' rfl, tokens_mark ']' rfl, Option.map_map]
    rfl
  | array (first :: items), depth, rest, hw, hr => by
    have close : Stops (style.lineBreak depth ++ ']' :: rest) :=
      stops_spaces (isSpace_of_mem_lineBreak style depth) (.cons (by decide))
    rw [WellWritten, ItemsWellWritten] at hw
    simp only [chars, tokens, List.append_assoc, List.cons_append, List.nil_append]
    rw [tokens_mark '[' rfl, tokens_lineBreak,
      tokens_chars style first _ hw.1 (stops_items style _ items close),
      tokens_itemChars style items _ hw.2 close, tokens_lineBreak, tokens_mark ']' rfl]
    simp only [Option.map_map, Function.comp_def]
  | object [], _, rest, _, _ => by
    change Lexer.tokens ('{' :: '}' :: rest) = _
    rw [tokens_mark '{' rfl, tokens_mark '}' rfl, Option.map_map]
    rfl
  | object ((name, value) :: fields), depth, rest, hw, hr => by
    have close : Stops (style.lineBreak depth ++ '}' :: rest) :=
      stops_spaces (isSpace_of_mem_lineBreak style depth) (.cons (by decide))
    rw [WellWritten, FieldsWellWritten] at hw
    simp only [chars, tokens, List.append_assoc, List.cons_append, List.nil_append]
    rw [tokens_mark '{' rfl, tokens_lineBreak, tokens_string, tokens_colon,
      tokens_chars style value _ hw.1 (stops_fields style _ fields close),
      tokens_fieldChars style fields _ hw.2 close, tokens_lineBreak, tokens_mark '}' rfl]
    simp only [Option.map_map, Function.comp_def]

theorem tokens_itemChars (style : Style) : ∀ (items : List Json) (depth : Nat) {rest : List Char},
    ItemsWellWritten items → Stops rest → Lexer.tokens (itemChars style depth items ++ rest) =
      (Lexer.tokens rest).map (itemTokens items ++ ·)
  | [], _, rest, _, _ => by
    change Lexer.tokens rest = (Lexer.tokens rest).map id
    rw [Option.map_id, id]
  | j :: items, depth, rest, hw, hr => by
    simp only [itemChars, itemTokens, List.append_assoc, List.cons_append]
    rw [tokens_mark ',' rfl, tokens_lineBreak,
      tokens_chars style j _ hw.1 (stops_items style depth items hr),
      tokens_itemChars style items _ hw.2 hr]
    simp only [Option.map_map, Function.comp_def]

theorem tokens_fieldChars (style : Style) : ∀ (fields : List (Option String × Json)) (depth : Nat)
    {rest : List Char}, FieldsWellWritten fields → Stops rest →
    Lexer.tokens (fieldChars style depth fields ++ rest) =
      (Lexer.tokens rest).map (fieldTokens fields ++ ·)
  | [], _, rest, _, _ => by
    change Lexer.tokens rest = (Lexer.tokens rest).map id
    rw [Option.map_id, id]
  | (name, value) :: fields, depth, rest, hw, hr => by
    simp only [fieldChars, fieldTokens, List.append_assoc, List.cons_append]
    rw [tokens_mark ',' rfl, tokens_lineBreak, tokens_string, tokens_colon,
      tokens_chars style value _ hw.1 (stops_fields style depth fields hr),
      tokens_fieldChars style fields _ hw.2 hr]
    simp only [Option.map_map, Function.comp_def]

end

def State.feedAll (s : State) (ts : List Token) : Option State :=
  ts.foldlM State.feed s

theorem feedAll_firstItem (j : Json) (around : List Open) (rest : List Token) :
    State.feedAll (.firstItem around) (j.tokens ++ rest) =
      State.feedAll (.value (.array [] :: around)) (j.tokens ++ rest) := by
  have first : ∃ t ts, j.tokens = t :: ts ∧
      State.feed (.firstItem around) t = State.feed (.value (.array [] :: around)) t := by
    cases j with
    | array items => cases items <;> exact ⟨_, _, rfl, rfl⟩
    | object fields => cases fields <;> exact ⟨_, _, rfl, rfl⟩
    | _ => exact ⟨_, _, rfl, rfl⟩
  obtain ⟨t, ts, ht, hfeed⟩ := first
  rw [ht, List.cons_append, State.feedAll, State.feedAll, List.foldlM_cons, List.foldlM_cons, hfeed]

mutual

theorem feedAll_tokens : ∀ (j : Json) (around : List Open) (rest : List Token),
    State.feedAll (.value around) (j.tokens ++ rest) = State.feedAll (.complete j around) rest
  | null, around, rest => rfl
  | bool _, around, rest => rfl
  | number _, around, rest => rfl
  | string _, around, rest => rfl
  | array [], around, rest => rfl
  | array (first :: items), around, rest => calc
      State.feedAll (.value around) (tokens (array (first :: items)) ++ rest)
      = State.feedAll (.firstItem around)
          (first.tokens ++ (itemTokens items ++ .closeBracket :: rest)) := by
        simp only [tokens, List.append_assoc, List.cons_append, List.nil_append]
        rfl
    _ = State.feedAll (.value (.array [] :: around))
          (first.tokens ++ (itemTokens items ++ .closeBracket :: rest)) := feedAll_firstItem ..
    _ = State.feedAll (.afterItem [first] around) (itemTokens items ++ .closeBracket :: rest) :=
        feedAll_tokens first ..
    _ = State.feedAll (.afterItem (first :: items) around) (.closeBracket :: rest) :=
        feedAll_itemTokens items ..
  | object [], around, rest => rfl
  | object ((name, value) :: fields), around, rest => calc
      State.feedAll (.value around) (tokens (object ((name, value) :: fields)) ++ rest)
      = State.feedAll (.value (.object [] name :: around))
          (value.tokens ++ (fieldTokens fields ++ .closeBrace :: rest)) := by
        simp only [tokens, List.append_assoc, List.cons_append, List.nil_append]
        rfl
    _ = State.feedAll (.afterField [(name, value)] around)
          (fieldTokens fields ++ .closeBrace :: rest) := feedAll_tokens value ..
    _ = State.feedAll (.afterField ((name, value) :: fields) around) (.closeBrace :: rest) :=
        feedAll_fieldTokens fields ..

theorem feedAll_itemTokens : ∀ (items done : List Json) (around : List Open) (rest : List Token),
    State.feedAll (.afterItem done around) (itemTokens items ++ rest) =
      State.feedAll (.afterItem (done ++ items) around) rest
  | [], done, around, rest => by rw [itemTokens, List.append_nil, List.nil_append]
  | j :: items, done, around, rest => calc
      State.feedAll (.afterItem done around) (itemTokens (j :: items) ++ rest)
      = State.feedAll (.value (.array done :: around))
          (j.tokens ++ (itemTokens items ++ rest)) := by
        simp only [itemTokens, List.append_assoc, List.cons_append]
        rfl
    _ = State.feedAll (.afterItem (done ++ [j]) around) (itemTokens items ++ rest) :=
        feedAll_tokens j ..
    _ = State.feedAll (.afterItem (done ++ [j] ++ items) around) rest :=
        feedAll_itemTokens items ..
    _ = State.feedAll (.afterItem (done ++ j :: items) around) rest := by
        rw [List.append_assoc, List.singleton_append]

theorem feedAll_fieldTokens : ∀ (fields done : List (Option String × Json)) (around : List Open)
    (rest : List Token), State.feedAll (.afterField done around) (fieldTokens fields ++ rest) =
      State.feedAll (.afterField (done ++ fields) around) rest
  | [], done, around, rest => by rw [fieldTokens, List.append_nil, List.nil_append]
  | (name, value) :: fields, done, around, rest => calc
      State.feedAll (.afterField done around) (fieldTokens ((name, value) :: fields) ++ rest)
      = State.feedAll (.value (.object done name :: around))
          (value.tokens ++ (fieldTokens fields ++ rest)) := by
        simp only [fieldTokens, List.append_assoc, List.cons_append]
        rfl
    _ = State.feedAll (.afterField (done ++ [(name, value)]) around) (fieldTokens fields ++ rest) :=
        feedAll_tokens value ..
    _ = State.feedAll (.afterField (done ++ [(name, value)] ++ fields) around) rest :=
        feedAll_fieldTokens fields ..
    _ = State.feedAll (.afterField (done ++ (name, value) :: fields) around) rest := by
        rw [List.append_assoc, List.singleton_append]

end

/-- The text of a document reads back, also if white space follows. -/
theorem parse?_chars {j : Json} (h : j.WellWritten) (style : Style) {space : List Char}
    (hs : ∀ c ∈ space, isSpace c = true) :
    parse? (String.ofList (j.chars style 0 ++ space)) = some j := by
  have behind : Lexer.tokens space = some [] := by
    rw [← List.append_nil space, tokens_spaces hs, Lexer.tokens]
  have stops : Stops space := by
    rw [← List.append_nil space]
    exact stops_spaces hs nofun
  have split : Lexer.tokens (j.chars style 0 ++ space) = some j.tokens := by
    rw [tokens_chars style j 0 h stops, behind, Option.map_some, List.append_nil]
  have build : State.feedAll (.value []) j.tokens = some (.finished j) := by
    have hfeed := feedAll_tokens j [] []
    rw [List.append_nil] at hfeed
    exact hfeed
  rw [parse?, String.toList_ofList, split]
  dsimp only
  rw [← State.feedAll, build]

end BlueCode.Json
