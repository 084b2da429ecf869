import Mathlib.Data.String.Lemmas
import BlueCode.Pipeline
import BlueCode.Proofs.MaximalMunch
import BlueCode.Proofs.Reading

namespace BlueCode

open Decimal (IsDigits)
open Text (byteLength)

namespace Lexer

/-- White space and comments, each comment with the end of its line. -/
inductive Filler : List Char → Prop where
  | nil : Filler []
  | blank {c : Char} {cs : List Char} : isSpace c = true → Filler cs → Filler (c :: cs)
  | comment {body cs : List Char} : '\n' ∉ body → Filler cs →
      Filler ('/' :: '/' :: body ++ '\n' :: cs)

/-- What may stand between two tokens, whatever they are. -/
structure Separator (gap : List Char) : Prop where
  spaced : ∃ c rest, gap = c :: rest ∧ isSpace c = true
  filler : Filler gap

section Filler

variable {c : Char} {w rest body gap : List Char}

theorem tokens_of_skipped (h : piece c (w ++ rest) = ⟨w.length, .skipped⟩) (start : Nat) :
    tokens start (c :: w ++ rest) = tokens (start + byteLength (c :: w)) rest := by
  rw [List.cons_append, tokens, h]
  dsimp only
  rw [List.take_left, List.drop_left]

theorem tokens_blanks (hc : isSpace c = true) (hw : ∀ d ∈ w, isSpace d = true)
    (hr : ∀ d ∈ rest.head?, isSpace d = false) (start : Nat) :
    tokens start (c :: w ++ rest) = tokens (start + byteLength (c :: w)) rest :=
  tokens_of_skipped (piece_blanks hc hw hr) start

theorem tokens_space (hc : isSpace c = true) (start : Nat) (cs : List Char) :
    tokens start (c :: cs) = tokens (start + c.utf8Size) cs := by
  obtain ⟨blanks, back, rfl, hblanks, hback⟩ := exists_span isSpace cs
  rw [← List.cons_append, tokens_blanks hc hblanks hback, Text.byteLength_cons, ← Nat.add_assoc]
  cases blanks with
  | nil => rfl
  | cons d blanks =>
    obtain ⟨hd, hblanks⟩ := List.forall_mem_cons.1 hblanks
    rw [tokens_blanks hd hblanks hback]

theorem tokens_comment (hn : '\n' ∉ body) (hr : ∀ d ∈ rest.head?, d = '\n') (start : Nat) :
    tokens start ('/' :: '/' :: body ++ rest) =
      tokens (start + byteLength ('/' :: '/' :: body)) rest :=
  tokens_of_skipped (piece_comment hn hr) start

theorem Filler.tokens_eq (h : Filler gap) (start : Nat) (rest : List Char) :
    tokens start (gap ++ rest) = tokens (start + byteLength gap) rest := by
  induction h generalizing start with
  | nil => rfl
  | blank hc _ ih =>
    rw [List.cons_append, tokens_space hc, ih, Text.byteLength_cons, Nat.add_assoc]
  | @comment body cs hn _ ih =>
    rw [List.append_assoc, tokens_comment hn (by simp), List.cons_append,
      tokens_space (by decide), ih]
    simp only [Text.byteLength_append, Text.byteLength_cons, Nat.add_assoc]

end Filler

section Words

variable {c : Char} {w v rest : List Char} {t : Token}

theorem Denotes.matched {t : Option Token} (h : Denotes w t) : Matched w := by
  cases h with
  | blanks hw => exact ⟨.blanks, hw⟩
  | comment hw => exact ⟨.comment, hw⟩
  | symbol s => exact ⟨.symbol s, rfl⟩
  | float hwhole hfraction => exact ⟨.float, _, _, rfl, hwhole, hfraction⟩
  | int hd => exact ⟨.int, hd⟩
  | str hq hn => exact ⟨.str, _, rfl, hq, hn⟩
  | ident hw => exact ⟨.word, hw⟩

theorem isSpace_of_isDigit (h : c.isDigit = true) : isSpace c = false :=
  isSpace_of_isWordPart (Text.isWordPart_of_isDigit h)

theorem isSpace_of_mem_spelling {s : Symbol} : ∀ d ∈ s.spelling.toList, isSpace d = false := by
  cases s <;> simp [Symbol.spelling, isSpace]

theorem Pattern.Matches.of_space {p : Pattern} (h : p.Matches v) (hc : isSpace c = true)
    (hm : c ∈ v) : p = .blanks ∨ p = .comment ∨ p = .str := by
  have spaceless (hno : isSpace c = false) : False := Bool.noConfusion (hno.symm.trans hc)
  cases p with
  | blanks => exact .inl rfl
  | comment => exact .inr (.inl rfl)
  | str => exact .inr (.inr rfl)
  | symbol s => exact (spaceless (isSpace_of_mem_spelling c (h ▸ hm))).elim
  | float =>
    obtain ⟨whole, fraction, rfl, hwhole, hfraction⟩ := h
    rcases List.mem_append.1 hm with hm | hm
    · exact (spaceless (isSpace_of_isDigit (hwhole.2 c hm))).elim
    · rcases List.mem_cons.1 hm with rfl | hm
      · exact (spaceless (by decide)).elim
      · exact (spaceless (isSpace_of_isDigit (hfraction.2 c hm))).elim
  | int => exact (spaceless (isSpace_of_isDigit (h.2 c hm))).elim
  | word => exact (spaceless (isSpace_of_isWordPart (Text.isWordPart_of_isWord h c hm))).elim

inductive Head : List Char → Prop where
  | str {body : List Char} : '"' ∉ body → Head ('"' :: body ++ ['"'])
  | slash : Head ['/']
  | other {d : Char} {w : List Char} : isSpace d = false → d ≠ '"' → d ≠ '/' → Head (d :: w)

theorem Head.of_isDigit (hd : IsDigits w) (rest : List Char) : Head (w ++ rest) := by
  obtain ⟨d, w, rfl⟩ := List.exists_cons_of_ne_nil hd.1
  have hdigit := hd.2 d List.mem_cons_self
  refine .other (isSpace_of_isDigit hdigit) ?_ ?_
  · rintro rfl
    cases hdigit
  · rintro rfl
    cases hdigit

theorem Head.of_isWord (hw : Text.isWord w = true) : Head w := by
  cases w with
  | nil => cases hw
  | cons d w =>
    have hpart := Text.isWordPart_of_isWord hw d List.mem_cons_self
    refine .other (isSpace_of_isWordPart hpart) ?_ ?_
    · rintro rfl
      cases hpart
    · rintro rfl
      cases hpart

theorem Denotes.head (h : Denotes w (some t)) : Head w := by
  cases h with
  | symbol s => cases s <;> first | exact .slash | exact .other (by decide) (by decide) (by decide)
  | float hwhole => exact .of_isDigit hwhole _
  | int hd => exact List.append_nil w ▸ .of_isDigit hd []
  | str hq => exact .str hq
  | ident hw => exact .of_isWord hw

theorem longest_before_space (hd : Denotes w (some t)) (hc : isSpace c = true)
    (rest : List Char) : Longest w (w ++ c :: rest) where
  isPrefix := List.prefix_append ..
  matched := hd.matched
  length_le v hv hm := by
    by_contra! hlong
    obtain ⟨tail, rfl⟩ : ∃ tail, v = w ++ c :: tail := by
      obtain ⟨more, rfl⟩ := List.prefix_of_prefix_length_le (List.prefix_append w _) hv hlong.le
      obtain ⟨after, hafter⟩ := hv
      rw [List.append_assoc, List.append_cancel_left_eq] at hafter
      cases more with
      | nil => simp at hlong
      | cons d tail => exact ⟨tail, by rw [(List.cons.inj hafter).1]⟩
    obtain ⟨p, hp⟩ := hm
    have head := hd.head
    rcases hp.of_space hc (by simp) with rfl | rfl | rfl
    · cases head with
      | str => exact absurd (hp.2 '"' (by simp)) (by decide)
      | slash => exact absurd (hp.2 '/' (by simp)) (by decide)
      | @other d _ hspace => exact absurd (hp.2 d (by simp)) (Bool.eq_false_iff.1 hspace)
    · obtain ⟨body, he, -⟩ := hp
      cases head with
      | str => cases he
      | slash =>
        cases he
        cases hc
      | other _ _ hslash => exact hslash (List.cons.inj he).1
    · obtain ⟨body, he, hq, -⟩ := hp
      cases head with
      | @str inner =>
        -- The quote that closes the token would stand inside the longer string.
        have inside : body = inner ++ '"' :: (c :: tail).dropLast := by
          have := congrArg List.dropLast (List.cons.inj he).2
          simpa [List.dropLast_append_of_ne_nil] using this.symm
        exact hq (by simp [inside])
      | slash => cases he
      | other _ hquote => exact hquote (List.cons.inj he).1

end Words

section Parts

variable {rest tail : List Char} {parts more : List Part} {start : Nat}

theorem text_append (parts more : List Part) : text (parts ++ more) = text parts ++ text more :=
  List.flatMap_append

theorem Munched.ne_nil {p : Part} (h : Munched rest (p :: parts)) : p.word ≠ [] := by
  cases h with
  | cons hl => exact hl.matched.ne_nil

theorem Munched.of_append (h : Munched rest (parts ++ more)) :
    Munched (text more ++ rest) parts ∧ Munched rest more := by
  induction parts with
  | nil => exact ⟨.nil, h⟩
  | cons p parts ih =>
    cases h with
    | cons hl hd hrest =>
      obtain ⟨hparts, hmore⟩ := ih hrest
      refine ⟨.cons ?_ hd hparts, hmore⟩
      rw [← List.append_assoc (text parts), ← text_append]
      exact hl

theorem tokens_text (h : Munched [] parts) (start : Nat) :
    tokens start (text parts) = .ok (located start parts) := by
  have munched := tokens_of_munched h start
  rw [List.append_nil, tokens] at munched
  rw [munched, Except.map, List.append_nil]

theorem map_token_located (parts : List Part) (start : Nat) :
    (located start parts).map Located.token = parts.filterMap Part.token := by
  induction parts generalizing start with
  | nil => rfl
  | cons p parts ih =>
    rw [located_cons, List.map_append, ih]
    obtain ⟨w, t⟩ := p
    cases t <;> rfl

theorem exists_first_token {t : Located} {ts : List Located} (h : located start parts = t :: ts) :
    ∃ skipped p more, parts = skipped ++ p :: more ∧ (∀ q ∈ skipped, q.token = none) ∧
      p.token = some t.token ∧ t.span.start = start + byteLength (text skipped) ∧
      t.span.stop = t.span.start + byteLength p.word ∧ ts = located t.span.stop more := by
  induction parts generalizing start with
  | nil => cases h
  | cons p parts ih =>
    obtain ⟨w, token⟩ := p
    cases token with
    | none =>
      obtain ⟨skipped, p, more, rfl, hskipped, hp, hstart, hstop, hts⟩ := ih h
      refine ⟨⟨w, none⟩ :: skipped, p, more, rfl, ?_, hp, ?_, hstop, hts⟩
      · exact List.forall_mem_cons.2 ⟨rfl, hskipped⟩
      · rw [hstart, text_cons, Text.byteLength_append, Nat.add_assoc]
    | some token =>
      cases h
      exact ⟨[], ⟨w, some token⟩, parts, rfl, List.forall_mem_nil _, rfl, rfl, rfl, rfl⟩

/-- What is passed over does not depend on what follows it, up to the next character. -/
theorem tokens_skipped_word {w : List Char} (hl : Longest w (w ++ rest)) (hd : Denotes w none)
    (hhead : tail.head? = rest.head?) (start : Nat) :
    tokens start (w ++ tail) = tokens (start + byteLength w) tail := by
  cases hd with
  | blanks hw =>
    obtain ⟨c, w, rfl⟩ := List.exists_cons_of_ne_nil hw.1
    obtain ⟨hc, hspace⟩ := List.forall_mem_cons.1 hw.2
    apply tokens_blanks hc hspace
    rw [hhead]
    refine hl.forall_head fun d hs => ⟨.blanks, by simp, ?_⟩
    exact List.forall_mem_append.2 ⟨hw.2, by simpa using hs⟩
  | comment hw =>
    obtain ⟨body, rfl, hn⟩ := hw
    apply tokens_comment hn
    intro d hd
    by_contra hne
    refine hl.not_matched_concat (hhead ▸ hd) ⟨.comment, body ++ [d], rfl, ?_⟩
    simpa [hn] using Ne.symm hne

theorem tokens_skipped (h : Munched rest parts) (hskipped : ∀ p ∈ parts, p.token = none)
    (hhead : tail.head? = rest.head?) (start : Nat) :
    tokens start (text parts ++ tail) = tokens (start + byteLength (text parts)) tail := by
  induction h generalizing start with
  | nil => rfl
  | @cons p parts hl hd _ ih =>
    obtain ⟨hp, hparts⟩ := List.forall_mem_cons.1 hskipped
    have hnext : (text parts ++ tail).head? = (text parts ++ rest).head? := by
      rw [List.head?_append, List.head?_append, hhead]
    rw [text_cons, List.append_assoc, tokens_skipped_word hl (hp ▸ hd) hnext, ih hparts,
      Text.byteLength_append, Nat.add_assoc]

end Parts

def slice (source : String) (start stop : Nat) : List Char :=
  (String.Pos.Raw.extract source ⟨start⟩ ⟨stop⟩).toList

def respaceFrom (source : String) (gap : Nat → List Char) (n : Nat) : List Located → List Char
  | [] => []
  | [t] => slice source t.span.start source.utf8ByteSize
  | t :: u :: ts =>
    slice source t.span.start t.span.stop ++ gap n ++ respaceFrom source gap (n + 1) (u :: ts)

/-- A text with other characters between its tokens. What stands before the first and after the last
token stays. -/
def respace (source : String) (gap : Nat → List Char) : List Located → String
  | [] => source
  | t :: ts => String.ofList (slice source 0 t.span.start ++ respaceFrom source gap 0 (t :: ts))

theorem utf8Len_eq_byteLength (cs : List Char) : String.utf8Len cs = byteLength cs := by
  induction cs with
  | nil => rfl
  | cons c cs ih => rw [String.utf8Len_cons, ih, Text.byteLength_cons, Nat.add_comm]

theorem slice_eq {source : String} {before word after : List Char} {start stop : Nat}
    (h : source.toList = before ++ word ++ after) (hstart : start = byteLength before)
    (hstop : stop = start + byteLength word) : slice source start stop = word := by
  have extracted := String.extract_of_valid before word after
  rw [← h, String.ofList_toList, utf8Len_eq_byteLength, utf8Len_eq_byteLength] at extracted
  rw [slice, hstop, hstart, extracted, String.toList_ofList]

section Respacing

variable {source : String} {gap : Nat → List Char} {before : List Char} {p : Part}
  {more : List Part} {t : Located} {ts : List Located}

theorem token_before_gap {w rest : List Char} {token : Token} {g : List Char}
    (hd : Denotes w (some token)) (hg : Separator g) (start : Nat) :
    tokens start (w ++ (g ++ rest)) =
      (tokens (start + byteLength w + byteLength g) rest).map
        (⟨token, ⟨start, start + byteLength w⟩⟩ :: ·) := by
  obtain ⟨c, blanks, rfl, hc⟩ := hg.spaced
  rw [List.cons_append, tokens_of_longest (longest_before_space hd hc _) hd, ← List.cons_append,
    hg.filler.tokens_eq]
  rfl

theorem tokens_respaceFrom (hg : ∀ n, Separator (gap n)) {w : List Char}
    (hm : Munched [] (⟨w, some t.token⟩ :: more)) (hs : source.toList = before ++ (w ++ text more))
    (hstart : t.span.start = byteLength before) (hstop : t.span.stop = t.span.start + byteLength w)
    (hts : ts = located t.span.stop more) (n start : Nat) :
    ∃ ts', tokens start (respaceFrom source gap n (t :: ts)) = .ok ts' ∧
      ts'.map Located.token = (t :: ts).map Located.token ∧
      (respaceFrom source gap n (t :: ts)).head? = w.head? := by
  have hne : w ≠ [] := hm.ne_nil
  induction ts generalizing before w more t n start with
  | nil =>
    have hend : source.utf8ByteSize = t.span.start + byteLength (w ++ text more) := by
      rw [← Text.byteLength_toList, hs, Text.byteLength_append, hstart]
    rw [respaceFrom, slice_eq (by rw [List.append_nil]; exact hs) hstart hend]
    refine ⟨_, tokens_text hm start, ?_, List.head?_append_of_ne_nil _ hne⟩
    have last := map_token_located more t.span.stop
    rw [← hts] at last
    rw [map_token_located]
    exact congrArg (t.token :: ·) last.symm
  | cons u us ih =>
    obtain ⟨skipped, ⟨v, token⟩, others, rfl, -, hv, hustart, hustop, hus⟩ :=
      exists_first_token hts.symm
    cases hv
    cases hm with
    | cons _ hd hmore =>
      have hnext := hmore.of_append.2
      rw [text_append, text_cons] at hs
      have hfirst : slice source t.span.start t.span.stop = w :=
        slice_eq (by rw [hs, List.append_assoc]) hstart hstop
      have hvs : source.toList = before ++ w ++ text skipped ++ (v ++ text others) := by
        rw [hs]
        simp only [List.append_assoc]
      have hvstart : u.span.start = byteLength (before ++ w ++ text skipped) := by
        simp only [Text.byteLength_append]
        omega
      obtain ⟨ts', hlex, hsame, -⟩ := ih hnext hvs hvstart hustop hus (n + 1)
        (start + byteLength w + byteLength (gap n)) hnext.ne_nil
      rw [respaceFrom, hfirst, List.append_assoc]
      refine ⟨⟨t.token, ⟨start, start + byteLength w⟩⟩ :: ts', ?_, ?_,
        List.head?_append_of_ne_nil _ hne⟩
      · rw [token_before_gap hd (hg n), hlex]
        rfl
      · rw [List.map_cons, hsame]
        rfl

/-- A text has the same tokens with other separators between them. -/
theorem lex_respaced (hg : ∀ n, Separator (gap n)) (h : lex source = .ok ts) :
    ∃ ts', lex (respace source gap ts) = .ok ts' ∧
      ts'.map Located.token = ts.map Located.token := by
  rcases lex_cases source with ⟨parts, hm, ht, hlex⟩ | ⟨_, _, _, _, _, _, hlex⟩
  · obtain rfl := Except.ok.inj (h.symm.trans hlex)
    cases hts : located 0 parts with
    | nil => exact ⟨located 0 parts, hlex, congrArg _ hts⟩
    | cons t ts =>
      obtain ⟨skipped, ⟨w, token⟩, more, rfl, hskipped, htoken, hstart, hstop, hmore⟩ :=
        exists_first_token hts
      cases htoken
      obtain ⟨hfront, hrest⟩ := hm.of_append
      rw [Nat.zero_add] at hstart
      rw [text_append, text_cons] at ht
      obtain ⟨ts', hfrom, hsame, hhead⟩ :=
        tokens_respaceFrom hg hrest ht.symm hstart hstop hmore 0 (0 + byteLength (text skipped))
      refine ⟨ts', ?_, hsame⟩
      have hfirst : slice source 0 t.span.start = text skipped :=
        slice_eq (by rw [List.nil_append]; exact ht.symm) rfl (by rw [hstart, Nat.zero_add])
      have hnext : (respaceFrom source gap 0 (t :: ts)).head? =
          (text (⟨w, some t.token⟩ :: more) ++ []).head? := by
        rw [hhead, List.append_nil, text_cons, List.head?_append_of_ne_nil _ hrest.ne_nil]
      rw [lex, respace, String.toList_ofList, hfirst, tokens_skipped hfront hskipped hnext, hfrom]
  · rw [hlex] at h
    cases h

end Respacing

end Lexer

namespace Parser

variable {s : State} {position stop stop' : Nat} {ts ts' : List Located}

/-- What an error tells besides the place in the text. -/
def unplaced (e : ParseError) : Nat × Expected × Option Token :=
  (e.position, e.expected, e.found)

theorem run_congr (h : ts'.map Located.token = ts.map Located.token) :
    (run s position stop' ts').mapError unplaced = (run s position stop ts).mapError unplaced := by
  induction ts generalizing s position stop stop' ts' with
  | nil =>
    obtain rfl := List.map_eq_nil_iff.1 h
    rw [run, run]
    cases s.finish <;> rfl
  | cons t ts ih =>
    obtain ⟨t', ts', rfl, htoken, hrest⟩ := List.map_eq_cons_iff.1 h
    rw [run, run, htoken]
    cases s.feed t.token with
    | error => rfl
    | ok next => exact ih hrest

theorem unplaced_eq {e e' : ParseError} (h : unplaced e' = unplaced e) :
    e'.code = e.code ∧ e'.message = e.message ∧ e'.position = e.position := by
  obtain ⟨position, span, expected, found⟩ := e
  obtain ⟨position', span', expected', found'⟩ := e'
  cases h
  exact ⟨rfl, rfl, rfl⟩

theorem parse_congr (h : ts'.map Located.token = ts.map Located.token) :
    (∃ p, parse ts = .ok p ∧ parse ts' = .ok p) ∨
      ∃ e e', parse ts = .error e ∧ parse ts' = .error e' ∧ unplaced e' = unplaced e := by
  have same : (parse ts').mapError unplaced = (parse ts).mapError unplaced := by
    rw [parse_eq_run, parse_eq_run]
    exact run_congr h
  cases hp : parse ts with
  | ok p =>
    cases hp' : parse ts' with
    | ok p' =>
      rw [hp, hp'] at same
      exact .inl ⟨p, rfl, congrArg _ (Except.ok.inj same)⟩
    | error e' =>
      rw [hp, hp'] at same
      cases same
  | error e =>
    cases hp' : parse ts' with
    | ok p' =>
      rw [hp, hp'] at same
      cases same
    | error e' =>
      rw [hp, hp'] at same
      exact .inr ⟨e, e', rfl, rfl, Except.error.inj same⟩

end Parser

open Lexer

/-- Other separators between the tokens of a text leave its tokens, and so they leave the program
that it writes, or else what is wrong with it. -/
theorem spacing_irrelevant {source : String} {ts : List Located} {gap : Nat → List Char}
    (h : lex source = .ok ts) (hg : ∀ n, Separator (gap n)) :
    (∃ ts', lex (respace source gap ts) = .ok ts' ∧
      ts'.map Located.token = ts.map Located.token) ∧
    ((∃ p, Program.ofSource source = .ok p ∧ Program.ofSource (respace source gap ts) = .ok p) ∨
      ∃ e e', Program.ofSource source = .error (.parse e) ∧
        Program.ofSource (respace source gap ts) = .error (.parse e') ∧
        e'.code = e.code ∧ e'.message = e.message ∧ e'.position = e.position) := by
  obtain ⟨ts', hlex, hsame⟩ := lex_respaced hg h
  refine ⟨⟨ts', hlex, hsame⟩, ?_⟩
  have first : Program.ofSource source = (parse ts).mapError .parse := by
    rw [Program.ofSource, h]
    rfl
  have second : Program.ofSource (respace source gap ts) = (parse ts').mapError .parse := by
    rw [Program.ofSource, hlex]
    rfl
  rw [first, second]
  rcases Parser.parse_congr hsame with ⟨p, hp, hp'⟩ | ⟨e, e', he, he', hunplaced⟩
  · rw [hp, hp']
    exact .inl ⟨p, rfl, rfl⟩
  · rw [he, he']
    exact .inr ⟨e, e', rfl, rfl, Parser.unplaced_eq hunplaced⟩

theorem spacing_of_comparison : ∃ ts ts', lex "x==\"//\"" = .ok ts ∧
    lex (respace "x==\"//\"" (fun _ => [' ', '/', '/', '"', '\n']) ts) = .ok ts' ∧
      ts'.map Located.token = [.ident "x", .symbol .equal, .str "//"] := by
  have hlex : lex "x==\"//\"" = .ok [⟨.ident "x", ⟨0, 1⟩⟩, ⟨.symbol .equal, ⟨1, 3⟩⟩,
      ⟨.str "//", ⟨3, 7⟩⟩] := by
    decide +kernel
  have hgap : Separator [' ', '/', '/', '"', '\n'] :=
    ⟨⟨' ', _, rfl, rfl⟩, .blank rfl (@Filler.comment ['"'] [] (by decide) .nil)⟩
  obtain ⟨⟨ts', hlex', hsame⟩, -⟩ := spacing_irrelevant hlex fun _ => hgap
  exact ⟨_, ts', hlex, hlex', hsame⟩

end BlueCode
