import BlueCode.Token.Lexer
import BlueCode.Proofs.DecimalText

namespace BlueCode

namespace Symbol

theorem spelling_injective {s t : Symbol} (h : s.spelling = t.spelling) : s = t := by
  cases s <;> cases t <;> first
    | rfl
    | exact absurd h (by decide)

theorem head_spelling {s : Symbol} (hk : s ∉ keywords) : ∀ c ∈ s.spelling.toList.head?,
    Lexer.isSpace c = false ∧ c.isDigit = false ∧ Text.isWordStart c = false ∧ c ≠ '"' := by
  cases s <;> first
    | exact absurd (by decide) hk
    | rintro c ⟨⟩
      decide

theorem isWord_spelling {s : Symbol} (hk : s ∈ keywords) : Text.isWord s.spelling.toList = true :=
  (by decide : ∀ s ∈ keywords, Text.isWord s.spelling.toList = true) s hk

theorem ofWord_spelling {s : Symbol} (hk : s ∈ keywords) : Token.ofWord s.spelling = .symbol s :=
  (by decide : ∀ s ∈ keywords, Token.ofWord s.spelling = .symbol s) s hk

end Symbol

open Decimal (IsDigits)

namespace Lexer

/-- What pieces of a text look like. -/
inductive Pattern where
  | blanks
  | comment
  | symbol (s : Symbol)
  | float
  | int
  | str
  | word

def Pattern.Matches : Pattern → List Char → Prop
  | blanks, w => w ≠ [] ∧ ∀ c ∈ w, isSpace c = true
  | comment, w => ∃ body, w = '/' :: '/' :: body ∧ '\n' ∉ body
  | symbol s, w => w = s.spelling.toList
  | float, w => ∃ whole fraction, w = whole ++ '.' :: fraction ∧ IsDigits whole ∧ IsDigits fraction
  | int, w => IsDigits w
  | str, w => ∃ body, w = '"' :: body ++ ['"'] ∧ '"' ∉ body ∧ '\n' ∉ body
  | word, w => Text.isWord w = true

/-- Some pattern matches the word. -/
def Matched (w : List Char) : Prop :=
  ∃ p : Pattern, p.Matches w

/-- The word is the longest at the start of the text that matches a pattern. -/
structure Longest (w cs : List Char) : Prop where
  isPrefix : w <+: cs
  matched : Matched w
  length_le : ∀ v, v <+: cs → Matched v → v.length ≤ w.length

/-- The token that a word stands for, if it is not passed over. A word that is spelled as a keyword
is that keyword, and not an identifier. -/
inductive Denotes : List Char → Option Token → Prop where
  | blanks {w : List Char} : Pattern.blanks.Matches w → Denotes w none
  | comment {w : List Char} : Pattern.comment.Matches w → Denotes w none
  | symbol (s : Symbol) : Denotes s.spelling.toList (some (.symbol s))
  | float {whole fraction : List Char} : IsDigits whole → IsDigits fraction →
      Denotes (whole ++ '.' :: fraction) (some (.float
        (Decimal.nearestFloat (Nat.ofDigitChars 10 (whole ++ fraction) 0) (-fraction.length))))
  | int {w : List Char} {n : Int64} : IsDigits w → n.toInt = Nat.ofDigitChars 10 w 0 →
      Denotes w (some (.int n))
  | str {body : List Char} : '"' ∉ body → '\n' ∉ body →
      Denotes ('"' :: body ++ ['"']) (some (.str (String.ofList body)))
  | ident {w : List Char} : Text.isWord w = true → (∀ s : Symbol, s.spelling.toList ≠ w) →
      Denotes w (some (.ident (String.ofList w)))

/-- A text that starts with no piece, and what is reported of it: a string up to the end of its
line, another single character, or an integer that is too large. -/
inductive Fault : List Char → List Char → Prop where
  | char {c : Char} {rest : List Char} : (∀ v, v <+: c :: rest → ¬ Matched v) → c ≠ '"' →
      Fault (c :: rest) [c]
  | str {body rest : List Char} : (∀ v, v <+: '"' :: body ++ rest → ¬ Matched v) → '\n' ∉ body →
      (∀ c ∈ rest.head?, c = '\n') → Fault ('"' :: body ++ rest) ('"' :: body)
  | int {w rest : List Char} : Longest w (w ++ rest) → IsDigits w →
      Int64.maxValue.toInt < Nat.ofDigitChars 10 w 0 → Fault (w ++ rest) w

section Characters

variable {c : Char}

theorem isSpace_le (h : isSpace c = true) : c.toNat ≤ 32 := by
  simp only [isSpace, Bool.or_eq_true, beq_iff_eq] at h
  rcases h with (((rfl | rfl) | rfl) | rfl) | rfl <;> decide

theorem isSpace_of_isWordPart (h : Text.isWordPart c = true) : isSpace c = false := by
  have := Text.isWordPart_range h
  cases hs : isSpace c with
  | false => rfl
  | true =>
    have := isSpace_le hs
    omega

theorem isWordPart_of_isWordStart (h : Text.isWordStart c = true) : Text.isWordPart c = true :=
  Text.isWordPart_of_isWord (show Text.isWord [c] = true by simp [Text.isWord, h]) c
    List.mem_cons_self

theorem isDigit_of_isWordStart (h : Text.isWordStart c = true) : c.isDigit = false := by
  simp only [Text.isWordStart, Char.isAlpha, Char.isUpper, Char.isLower, Bool.or_eq_true,
    Bool.and_eq_true, decide_eq_true_eq, beq_iff_eq, ge_iff_le, UInt32.le_iff_toNat_le] at h
  simp only [Char.isDigit, Bool.and_eq_false_iff, decide_eq_false_iff_not, ge_iff_le,
    UInt32.le_iff_toNat_le]
  have upper : 'A'.val.toNat = 65 := by decide
  have lower : 'a'.val.toNat = 97 := by decide
  have digit : '9'.val.toNat = 57 := by decide
  rcases h with (h | h) | rfl
  · omega
  · omega
  · decide

end Characters

theorem Matched.ne_nil {w : List Char} (h : Matched w) : w ≠ [] := by
  rintro rfl
  obtain ⟨p, hp⟩ := h
  cases p with
  | blanks => exact hp.1 rfl
  | comment =>
    obtain ⟨_, he, -⟩ := hp
    cases he
  | symbol s => cases s <;> cases hp
  | float =>
    obtain ⟨whole, _, he, -, -⟩ := hp
    simp at he
  | int => exact hp.1 rfl
  | str =>
    obtain ⟨_, he, -⟩ := hp
    cases he
  | word => cases hp

theorem Longest.eq_nil_of_matched {w v cs : List Char} (h : Longest w cs) (hp : w ++ v <+: cs)
    (hv : Matched (w ++ v)) : v = [] := by
  have hle := h.length_le (w ++ v) hp hv
  rw [List.length_append] at hle
  exact List.length_eq_zero_iff.1 (by omega)

theorem Longest.not_matched_concat {w rest : List Char} (h : Longest w (w ++ rest)) {c : Char}
    (hc : c ∈ rest.head?) : ¬ Matched (w ++ [c]) := by
  intro hm
  cases rest with
  | nil => cases hc
  | cons d rest =>
    cases hc
    cases h.eq_nil_of_matched ⟨rest, List.append_assoc ..⟩ hm

theorem Longest.forall_head {w rest : List Char} (h : Longest w (w ++ rest)) {p : Char → Bool}
    (hp : ∀ c, p c = true → Matched (w ++ [c])) : ∀ c ∈ rest.head?, p c = false := by
  intro c hc
  rw [Bool.eq_false_iff]
  exact fun hs => h.not_matched_concat hc (hp c hs)

def Content.ofToken? : Option Token → Content
  | none => .skipped
  | some t => .token t

section Pieces

variable {c : Char} {w rest : List Char}

theorem piece_blanks (hc : isSpace c = true) (hw : ∀ d ∈ w, isSpace d = true)
    (hr : ∀ d ∈ rest.head?, isSpace d = false) : piece c (w ++ rest) = ⟨w.length, .skipped⟩ := by
  rw [piece, if_pos hc, Loader.takeWhile_append_of_forall hw hr]

theorem piece_comment {body : List Char} (hn : '\n' ∉ body) (hr : ∀ d ∈ rest.head?, d = '\n') :
    piece '/' ('/' :: body ++ rest) = ⟨('/' :: body).length, .skipped⟩ := by
  have stops : ('/' :: body ++ rest).takeWhile (· != '\n') = '/' :: body := by
    apply Loader.takeWhile_append_of_forall
    · intro d hd
      simp only [bne_iff_ne]
      rintro rfl
      exact (List.mem_cons.1 hd).elim (by decide) hn
    · intro d hd
      simp [hr d hd]
  rw [piece, if_neg (by decide), if_pos ⟨rfl, rfl⟩, stops]

theorem piece_isWord (hw : Text.isWord (c :: w) = true)
    (hr : ∀ d ∈ rest.head?, Text.isWordPart d = false) :
    piece c (w ++ rest) = ⟨w.length, .token (.ofWord (String.ofList (c :: w)))⟩ := by
  simp only [Text.isWord, Bool.and_eq_true, List.all_eq_true] at hw
  obtain ⟨hc, hw⟩ := hw
  have space : isSpace c = false := isSpace_of_isWordPart (isWordPart_of_isWordStart hc)
  have slash : c ≠ '/' := by
    rintro rfl
    exact absurd hc (by decide)
  simp only [piece, space, isDigit_of_isWordStart hc, hc, slash, false_and, if_false,
    Bool.false_eq_true, if_true, Loader.takeWhile_append_of_forall hw hr]

theorem piece_quote (cs : List Char) : piece '"' cs = string cs := rfl

theorem mem_str {body : List Char} (hq : '"' ∉ body) (hn : '\n' ∉ body) :
    ∀ d ∈ body, (d != '"' && d != '\n') = true := by
  intro d hd
  simp only [Bool.and_eq_true, bne_iff_ne]
  exact ⟨ne_of_mem_of_not_mem hd hq, ne_of_mem_of_not_mem hd hn⟩

theorem piece_str {body : List Char} (hq : '"' ∉ body) (hn : '\n' ∉ body) :
    piece '"' (body ++ '"' :: rest) =
      ⟨body.length + 1, .token (.str (String.ofList body))⟩ := by
  have stops : (body ++ '"' :: rest).takeWhile (fun d => d != '"' && d != '\n') = body :=
    Loader.takeWhile_append_of_forall (mem_str hq hn) (by simp)
  rw [piece_quote, string, stops, List.drop_left]
  rfl

theorem piece_open_str {body : List Char} (hq : '"' ∉ body) (hn : '\n' ∉ body)
    (hr : ∀ d ∈ rest.head?, d = '\n') :
    piece '"' (body ++ rest) = ⟨body.length, .fault⟩ := by
  have stops : (body ++ rest).takeWhile (fun d => d != '"' && d != '\n') = body := by
    apply Loader.takeWhile_append_of_forall (mem_str hq hn)
    intro d hd
    simp [hr d hd]
  rw [piece_quote, string, stops, List.drop_left]
  split
  · exact absurd (hr '"' rfl) (by decide)
  · rfl

theorem piece_digit (hc : c.isDigit = true) (cs : List Char) : piece c cs = number c cs := by
  have space : isSpace c = false := isSpace_of_isWordPart (Text.isWordPart_of_isDigit hc)
  have slash : c ≠ '/' := by
    rintro rfl
    exact absurd hc (by decide)
  simp only [piece, space, hc, slash, false_and, if_false, Bool.false_eq_true, if_true]

theorem number_int (hd : IsDigits (c :: w)) (hr : ∀ d ∈ rest.head?, d.isDigit = false)
    (hp : ∀ d after, rest = '.' :: d :: after → d.isDigit = false) :
    number c (w ++ rest) = ⟨w.length, match Decimal.readInt64? (c :: w) with
      | some n => .token (.int n)
      | none => .fault⟩ := by
  have hw : ∀ d ∈ w, d.isDigit = true := fun d hm => hd.2 d (List.mem_cons_of_mem c hm)
  have whole : (w ++ rest).takeWhile Char.isDigit = w := Loader.takeWhile_append_of_forall hw hr
  have behind : (w ++ rest).dropWhile Char.isDigit = rest := by
    rw [List.dropWhile_append_of_pos hw, Text.dropWhile_of_head hr]
  have integer : (match Decimal.readInt64? (c :: w) with
      | some n => ⟨(c :: w).length - 1, .token (.int n)⟩
      | none => ⟨(c :: w).length - 1, .fault⟩ : Piece) =
      ⟨w.length, match Decimal.readInt64? (c :: w) with
        | some n => .token (.int n)
        | none => .fault⟩ := by
    cases Decimal.readInt64? (c :: w) <;> rfl
  simp only [number, whole, behind]
  split
  · next after =>
    have none : after.takeWhile Char.isDigit = [] := by
      cases after with
      | nil => rfl
      | cons d after => simp [hp d after rfl]
    rw [none]
    exact integer
  · exact integer

theorem number_float {fraction : List Char} (hd : IsDigits (c :: w)) (hf : IsDigits fraction)
    (hr : ∀ d ∈ rest.head?, d.isDigit = false) :
    number c (w ++ '.' :: fraction ++ rest) = ⟨(w ++ '.' :: fraction).length, .token (.float
      (Decimal.nearestFloat (Nat.ofDigitChars 10 (c :: w ++ fraction) 0) (-fraction.length)))⟩ := by
  have hw : ∀ d ∈ w, d.isDigit = true := fun d hm => hd.2 d (List.mem_cons_of_mem c hm)
  have point : ∀ d ∈ ('.' :: fraction ++ rest).head?, d.isDigit = false := by
    rintro d ⟨⟩
    decide
  rw [List.append_assoc]
  have whole : (w ++ ('.' :: fraction ++ rest)).takeWhile Char.isDigit = w :=
    Loader.takeWhile_append_of_forall hw point
  have behind : (w ++ ('.' :: fraction ++ rest)).dropWhile Char.isDigit =
      '.' :: (fraction ++ rest) := by
    rw [List.dropWhile_append_of_pos hw, Text.dropWhile_of_head point]
    rfl
  have digits : (fraction ++ rest).takeWhile Char.isDigit = fraction :=
    Loader.takeWhile_append_of_forall hf.2 hr
  simp only [number, whole, behind, digits]
  split
  · next hnil => exact absurd rfl hf.1
  · rw [Decimal.readFloat?_digits hd hf]
    simp only [List.length_append, List.length_cons, Nat.add_assoc, Nat.add_comm 1]

theorem punctuation_spec (c : Char) (rest : List Char) :
    (∃ (s : Symbol) (extra : Nat), punctuation c rest = .symbol extra s ∧
      s.spelling.toList.length = extra + 1 ∧ s.spelling.toList <+: c :: rest) ∨
    punctuation c rest = ⟨0, .fault⟩ ∧
      ∀ s : Symbol, s ∉ Symbol.keywords → ¬ s.spelling.toList <+: c :: rest := by
  unfold punctuation
  split
  case h_18 =>
    refine .inr ⟨rfl, fun s hk hp => ?_⟩
    obtain ⟨tail, htail⟩ := hp
    cases s <;> first
      | exact absurd (by decide) hk
      | simp only [Symbol.spelling, String.reduceToList, List.cons_append, List.nil_append,
          List.cons.injEq] at htail
        grind
  all_goals exact .inl ⟨_, _, rfl, rfl, by simp [Symbol.spelling]⟩

theorem piece_punctuation (hspace : isSpace c = false) (hdigit : c.isDigit = false)
    (hword : Text.isWordStart c = false) (hquote : c ≠ '"')
    (hcomment : ¬ (c = '/' ∧ rest.head? = some '/')) : piece c rest = punctuation c rest := by
  simp only [piece, hspace, hdigit, hword, hquote, hcomment, if_false, Bool.false_eq_true]

/-- An operator is not read if a longer one or a comment starts at its place. -/
theorem piece_mark {s : Symbol} (hk : s ∉ Symbol.keywords)
    (hl : Longest (c :: w) (c :: w ++ rest)) (hs : s.spelling.toList = c :: w) :
    piece c (w ++ rest) = ⟨w.length, .token (.symbol s)⟩ := by
  obtain ⟨hspace, hdigit, hword, hquote⟩ := Symbol.head_spelling hk c (by simp [hs])
  cases w with
  | nil =>
    have hcomment : ¬ (c = '/' ∧ rest.head? = some '/') := by
      rintro ⟨rfl, hhead⟩
      exact hl.not_matched_concat hhead ⟨.comment, [], rfl, by simp⟩
    rw [List.nil_append, piece_punctuation hspace hdigit hword hquote hcomment]
    rcases punctuation_spec c rest with ⟨t, extra, hread, hlength, hp⟩ | ⟨-, hnone⟩
    · have hle : extra + 1 ≤ 1 := by
        rw [← hlength]
        exact hl.length_le _ hp ⟨.symbol t, rfl⟩
      obtain rfl : extra = 0 := by omega
      have same : t.spelling.toList = s.spelling.toList := by
        rw [hs, List.prefix_iff_eq_take.1 hp, hlength]
        rfl
      rw [hread, Symbol.spelling_injective (String.toList_inj.1 same)]
      rfl
    · exact absurd ⟨rest, by rw [hs]; rfl⟩ (hnone s hk)
  | cons d w =>
    cases s <;> first
      | exact absurd (by decide) hk
      | simp [Symbol.spelling] at hs
        done
      | simp only [Symbol.spelling, String.reduceToList, List.cons.injEq] at hs
        obtain ⟨rfl, rfl, rfl⟩ := hs
        rfl

end Pieces

theorem piece_longest_int {c : Char} {w rest : List Char} (hl : Longest (c :: w) (c :: w ++ rest))
    (hd : IsDigits (c :: w)) :
    piece c (w ++ rest) = ⟨w.length, match Decimal.readInt64? (c :: w) with
      | some n => .token (.int n)
      | none => .fault⟩ := by
  rw [piece_digit (hd.2 c List.mem_cons_self)]
  apply number_int hd
  · exact hl.forall_head fun d hs => ⟨.int, hd.append (by simpa using hs)⟩
  · rintro d after rfl
    rw [Bool.eq_false_iff]
    intro hs
    have point : Matched (c :: w ++ ['.', d]) :=
      ⟨.float, c :: w, [d], rfl, hd, by simp, by simpa using hs⟩
    cases hl.eq_nil_of_matched ⟨after, List.append_assoc ..⟩ point

/-- The longest word that matches is read as what it denotes. -/
theorem piece_of_longest {c : Char} {w rest : List Char} {t : Option Token}
    (hl : Longest (c :: w) (c :: w ++ rest)) (hd : Denotes (c :: w) t) :
    piece c (w ++ rest) = ⟨w.length, .ofToken? t⟩ := by
  have wordEnd (hw : Text.isWord (c :: w) = true) :
      ∀ d ∈ rest.head?, Text.isWordPart d = false :=
    hl.forall_head fun d hs => ⟨.word, Text.isWord_append hw (by simpa using hs)⟩
  generalize hword : c :: w = word at hd
  cases hd with
  | blanks hw =>
    subst hword
    obtain ⟨hc, hspace⟩ := List.forall_mem_cons.1 hw.2
    apply piece_blanks hc hspace
    refine hl.forall_head fun d hs => ⟨.blanks, by simp, ?_⟩
    exact List.forall_mem_append.2 ⟨hw.2, by simpa using hs⟩
  | comment hw =>
    subst hword
    obtain ⟨body, hbody, hn⟩ := hw
    obtain ⟨rfl, rfl⟩ := List.cons.inj hbody
    apply piece_comment hn
    intro d hd
    by_contra hne
    refine hl.not_matched_concat hd ⟨.comment, body ++ [d], rfl, ?_⟩
    simpa [hn] using Ne.symm hne
  | symbol s =>
    by_cases hk : s ∈ Symbol.keywords
    · have spelled : Text.isWord (c :: w) = true := hword ▸ Symbol.isWord_spelling hk
      rw [piece_isWord spelled (wordEnd spelled), hword, String.ofList_toList,
        Symbol.ofWord_spelling hk]
      rfl
    · exact piece_mark hk hl hword.symm
  | @float whole fraction hwhole hfraction =>
    obtain ⟨_, v, rfl⟩ := List.exists_cons_of_ne_nil hwhole.1
    obtain ⟨rfl, rfl⟩ := List.cons.inj hword
    rw [piece_digit (hwhole.2 c List.mem_cons_self)]
    apply number_float hwhole hfraction
    refine hl.forall_head fun d hs => ⟨.float, c :: v, fraction ++ [d], by simp, hwhole, ?_⟩
    exact hfraction.append (by simpa using hs)
  | int hd hn =>
    subst hword
    have fits : (Nat.ofDigitChars 10 (c :: w) 0 : Int) ≤ Int64.maxValue.toInt := by
      rw [← hn]
      exact Int64.toInt_le _
    rw [piece_longest_int hl hd, hd.readInt64?, if_pos fits, ← hn, Int64.ofInt_toInt]
    rfl
  | str hq hn =>
    obtain ⟨rfl, rfl⟩ := List.cons.inj hword
    change piece '"' (_ ++ ['"'] ++ rest) = ⟨(_ ++ ['"']).length, _⟩
    rw [List.append_assoc, List.length_append]
    exact piece_str hq hn
  | ident hw hk =>
    subst hword
    have unknown : Symbol.keywords.find? (·.spelling == String.ofList (c :: w)) = none := by
      apply List.find?_eq_none.2
      intro s _ hs
      apply hk s
      rw [eq_of_beq hs, String.toList_ofList]
    rw [piece_isWord hw (wordEnd hw), Token.ofWord, unknown]
    rfl

theorem piece_of_fault {c : Char} {rest bad : List Char} (h : Fault (c :: rest) bad) :
    piece c rest = ⟨bad.length - 1, .fault⟩ := by
  generalize htext : c :: rest = cs at h
  cases h with
  | @char d others hnone hquote =>
    obtain ⟨rfl, rfl⟩ := List.cons.inj htext
    have single (p : Pattern) : ¬ p.Matches [c] := fun hp => hnone [c] ⟨rest, rfl⟩ ⟨p, hp⟩
    have hspace : isSpace c = false := by
      rw [Bool.eq_false_iff]
      exact fun hs => single .blanks ⟨by simp, by simpa using hs⟩
    have hdigit : c.isDigit = false := by
      rw [Bool.eq_false_iff]
      exact fun hs => single .int ⟨by simp, by simpa using hs⟩
    have hword : Text.isWordStart c = false := by
      rw [Bool.eq_false_iff]
      exact fun hs => single .word (by simpa [Pattern.Matches, Text.isWord] using hs)
    have hcomment : ¬ (c = '/' ∧ rest.head? = some '/') := by
      rintro ⟨rfl, hhead⟩
      obtain ⟨after, rfl⟩ := List.head?_eq_some_iff.1 hhead
      exact hnone ['/', '/'] ⟨after, rfl⟩ ⟨.comment, [], rfl, by simp⟩
    rw [piece_punctuation hspace hdigit hword hquote hcomment]
    rcases punctuation_spec c rest with ⟨s, -, -, -, hp⟩ | ⟨hread, -⟩
    · exact absurd ⟨.symbol s, rfl⟩ (hnone _ hp)
    · exact hread
  | @str body others hnone hn hr =>
    obtain ⟨rfl, rfl⟩ := List.cons.inj htext
    refine piece_open_str (fun hq => ?_) hn hr
    obtain ⟨as, bs, rfl, has⟩ := List.eq_append_cons_of_mem hq
    refine hnone ('"' :: as ++ ['"']) ⟨bs ++ others, by simp⟩ ⟨.str, as, rfl, has, ?_⟩
    exact fun hm => hn (List.mem_append_left _ hm)
  | @int w others hl hd hn =>
    obtain ⟨d, w, rfl⟩ := List.exists_cons_of_ne_nil hd.1
    obtain ⟨rfl, rfl⟩ := List.cons.inj htext
    change piece c (w ++ others) = _
    rw [piece_longest_int hl hd, hd.readInt64?, if_neg (by omega)]
    rfl

theorem Fault.ne_nil {cs bad : List Char} (h : Fault cs bad) : bad ≠ [] := by
  cases h with
  | char => exact List.cons_ne_nil _ _
  | str => exact List.cons_ne_nil _ _
  | int _ hd => exact hd.1

theorem Fault.isPrefix {cs bad : List Char} (h : Fault cs bad) : bad <+: cs := by
  cases h with
  | char => exact ⟨_, rfl⟩
  | str => exact ⟨_, rfl⟩
  | int => exact ⟨_, rfl⟩

end Lexer

end BlueCode
