import BlueCode.Proofs.LongestMatch

namespace BlueCode

open Decimal (IsDigits)
open Text (byteLength)

namespace Lexer

/-- A piece of a text, and the token that it stands for, if it is not passed over. -/
structure Part where
  word : List Char
  token : Option Token

def text (parts : List Part) : List Char :=
  parts.flatMap Part.word

@[simp] theorem text_nil : text [] = [] := rfl

@[simp] theorem text_cons (p : Part) (parts : List Part) :
    text (p :: parts) = p.word ++ text parts := rfl

def located (start : Nat) : List Part → List Located
  | [] => []
  | p :: parts =>
    let stop := start + byteLength p.word
    (p.token.map fun t => ⟨t, ⟨start, stop⟩⟩).toList ++ located stop parts

theorem located_cons (p : Part) (parts : List Part) (start : Nat) : located start (p :: parts) =
    located start [p] ++ located (start + byteLength p.word) parts := by
  simp [located]

/-- Each piece is the longest that fits at its place, where `rest` follows the last one. -/
inductive Munched (rest : List Char) : List Part → Prop where
  | nil : Munched rest []
  | cons {p : Part} {parts : List Part} : Longest p.word (p.word ++ (text parts ++ rest)) →
      Denotes p.word p.token → Munched rest parts → Munched rest (p :: parts)

section Longest

variable {w v cs ds rest : List Char}

theorem Longest.of_isPrefix (h : Longest w cs) (hw : w <+: ds) (hds : ds <+: cs) : Longest w ds :=
  ⟨hw, h.matched, fun v hv hm => h.length_le v (hv.trans hds) hm⟩

theorem exists_longest (hv : v <+: cs) (hm : Matched v) :
    ∃ w rest, cs = w ++ rest ∧ Longest w cs := by
  classical
  have hp : Matched (cs.take v.length) := List.prefix_iff_eq_take.1 hv ▸ hm
  have greatest := Nat.findGreatest_spec (P := fun n => Matched (cs.take n)) hv.length_le hp
  refine ⟨_, _, (List.take_append_drop _ cs).symm, List.take_prefix _ _, greatest, ?_⟩
  intro u hu hmu
  have hpu : Matched (cs.take u.length) := List.prefix_iff_eq_take.1 hu ▸ hmu
  have hle := Nat.le_findGreatest (P := fun n => Matched (cs.take n)) hu.length_le hpu
  rw [List.length_take]
  exact Nat.le_min.2 ⟨hle, hu.length_le⟩

theorem Matched.denotes (h : Matched w) : (∃ t, Denotes w t) ∨
    IsDigits w ∧ Int64.maxValue.toInt < Nat.ofDigitChars 10 w 0 := by
  obtain ⟨p, hp⟩ := h
  cases p with
  | blanks => exact .inl ⟨_, .blanks hp⟩
  | comment => exact .inl ⟨_, .comment hp⟩
  | symbol s =>
    cases hp
    exact .inl ⟨_, .symbol s⟩
  | float =>
    obtain ⟨whole, fraction, rfl, hwhole, hfraction⟩ := hp
    exact .inl ⟨_, .float hwhole hfraction⟩
  | int =>
    by_cases hn : Int64.maxValue.toInt < Nat.ofDigitChars 10 w 0
    · exact .inr ⟨hp, hn⟩
    · refine .inl ⟨_, .int (n := .ofInt (Nat.ofDigitChars 10 w 0)) hp ?_⟩
      apply Int64.toInt_ofInt_of_le
      · exact (by decide : Int64.minValue.toInt ≤ 0).trans (Int.natCast_nonneg _)
      · exact (not_lt.1 hn).trans_lt (by decide)
  | str =>
    obtain ⟨body, rfl, hq, hn⟩ := hp
    exact .inl ⟨_, .str hq hn⟩
  | word =>
    by_cases hk : ∃ s : Symbol, s.spelling.toList = w
    · obtain ⟨s, rfl⟩ := hk
      exact .inl ⟨_, .symbol s⟩
    · exact .inl ⟨_, .ident hp (not_exists.1 hk)⟩

theorem exists_span (p : Char → Bool) (cs : List Char) : ∃ front back, cs = front ++ back ∧
    (∀ c ∈ front, p c = true) ∧ ∀ c ∈ back.head?, p c = false := by
  refine ⟨cs.takeWhile p, cs.dropWhile p, List.takeWhile_append_dropWhile.symm,
    fun c hc => List.mem_takeWhile_imp hc, fun c hc => ?_⟩
  have hnot := List.head?_dropWhile_not p cs
  rw [Option.mem_def.1 hc] at hnot
  exact hnot

theorem exists_fault {c : Char} (h : ∀ v, v <+: c :: rest → ¬ Matched v) :
    ∃ bad, Fault (c :: rest) bad := by
  by_cases hc : c = '"'
  · subst hc
    obtain ⟨body, after, rfl, hbody, hafter⟩ := exists_span (fun d => d != '"' && d != '\n') rest
    refine ⟨'"' :: body, .str h (fun hm => by simpa using hbody _ hm) fun d hd => ?_⟩
    by_contra hn
    obtain ⟨tail, rfl⟩ := List.head?_eq_some_iff.1 hd
    obtain rfl : d = '"' := by
      by_contra hq
      simpa [hn, hq] using hafter d hd
    refine h ('"' :: body ++ ['"']) ⟨tail, by simp⟩ ⟨.str, body, rfl, ?_, ?_⟩
    · exact fun hm => by simpa using hbody _ hm
    · exact fun hm => by simpa using hbody _ hm
  · exact ⟨[c], .char h hc⟩

end Longest

/-- Every text is split into its longest pieces, up to its end or to a fault. -/
theorem exists_munched (cs : List Char) : ∃ parts rest, Munched rest parts ∧
    text parts ++ rest = cs ∧ (rest = [] ∨ ∃ bad, Fault rest bad) := by
  induction hn : cs.length using Nat.strong_induction_on generalizing cs with
  | _ n ih =>
    by_cases hm : ∃ v, v <+: cs ∧ Matched v
    · obtain ⟨v, hv, hm⟩ := hm
      obtain ⟨w, tail, rfl, hl⟩ := exists_longest hv hm
      rcases hl.matched.denotes with ⟨t, hd⟩ | ⟨hd, hlarge⟩
      · have shorter : tail.length < n := by
          have := List.length_pos_iff.2 hl.matched.ne_nil
          rw [← hn, List.length_append]
          omega
        obtain ⟨parts, rest, hparts, rfl, hrest⟩ := ih tail.length shorter tail rfl
        exact ⟨⟨w, t⟩ :: parts, rest, .cons hl hd hparts, List.append_assoc .., hrest⟩
      · exact ⟨[], _, .nil, rfl, .inr ⟨w, .int hl hd hlarge⟩⟩
    · cases cs with
      | nil => exact ⟨[], [], .nil, rfl, .inl rfl⟩
      | cons c cs =>
        have hnone : ∀ v, v <+: c :: cs → ¬ Matched v := fun v hv hv' => hm ⟨v, hv, hv'⟩
        exact ⟨[], _, .nil, rfl, .inr (exists_fault hnone)⟩

variable {parts : List Part} {rest : List Char}

theorem Munched.stop (h : Munched rest parts) : Munched [] parts := by
  induction h with
  | nil => exact .nil
  | cons hl hd _ ih =>
    refine .cons (hl.of_isPrefix ⟨_, rfl⟩ ⟨rest, ?_⟩) hd ih
    simp

theorem tokens_of_longest {w : List Char} {t : Option Token} (hl : Longest w (w ++ rest))
    (hd : Denotes w t) (start : Nat) : tokens start (w ++ rest) =
      (tokens (start + byteLength w) rest).map (located start [⟨w, t⟩] ++ ·) := by
  obtain ⟨c, w, rfl⟩ := List.exists_cons_of_ne_nil hl.matched.ne_nil
  rw [List.cons_append, tokens, piece_of_longest hl hd]
  dsimp only
  rw [List.take_left, List.drop_left]
  cases t with
  | none =>
    change tokens _ rest = _
    cases tokens (start + byteLength (c :: w)) rest <;> rfl
  | some t => rfl

theorem tokens_of_fault {cs bad : List Char} (h : Fault cs bad) (start : Nat) :
    tokens start cs = .error ⟨start, String.ofList bad⟩ := by
  obtain ⟨others, rfl⟩ := h.isPrefix
  obtain ⟨c, w, rfl⟩ := List.exists_cons_of_ne_nil h.ne_nil
  rw [List.cons_append] at h ⊢
  rw [tokens, piece_of_fault h]
  dsimp only
  rw [List.length_cons, Nat.add_sub_cancel, List.take_left]

theorem tokens_of_munched (h : Munched rest parts) (start : Nat) :
    tokens start (text parts ++ rest) =
      (tokens (start + byteLength (text parts)) rest).map (located start parts ++ ·) := by
  induction h generalizing start with
  | nil =>
    change tokens start rest = (tokens start rest).map ([] ++ ·)
    cases tokens start rest <;> rfl
  | @cons p parts hl hd _ ih =>
    rw [text_cons, List.append_assoc, tokens_of_longest hl hd, ih, Text.byteLength_append,
      Nat.add_assoc]
    cases tokens (start + (byteLength p.word + byteLength (text parts))) rest with
    | error e => rfl
    | ok ts =>
      simp only [Except.map, located_cons p parts, List.append_assoc]

inductive Gap : List Char → Prop where
  | nil : Gap []
  | append {w gap : List Char} : Pattern.blanks.Matches w ∨ Pattern.comment.Matches w → Gap gap →
      Gap (w ++ gap)

/-- A text that starts at byte `start` consists of the words of the tokens, each at the bytes that
its token covers, and of white space and comments. -/
inductive Spaced : Nat → List Char → List Located → Prop where
  | last {start : Nat} {gap : List Char} : Gap gap → Spaced start gap []
  | token {start : Nat} {gap word rest : List Char} {t : Token} {ts : List Located} : Gap gap →
      word ≠ [] → Denotes word (some t) →
      Spaced (start + byteLength (gap ++ word)) rest ts →
      Spaced start (gap ++ word ++ rest)
        (⟨t, ⟨start + byteLength gap, start + byteLength (gap ++ word)⟩⟩ :: ts)

theorem Spaced.skip {start : Nat} {w cs : List Char} {ts : List Located}
    (hw : Pattern.blanks.Matches w ∨ Pattern.comment.Matches w)
    (h : Spaced (start + byteLength w) cs ts) : Spaced start (w ++ cs) ts := by
  generalize hn : start + byteLength w = next at h
  cases h with
  | last hg => exact .last (.append hw hg)
  | @token _ gap word rest t ts hg hne hd hrest =>
    subst hn
    simp only [Text.byteLength_append, Nat.add_assoc] at hrest ⊢
    have longer := @Spaced.token start _ word rest t ts (.append hw hg) hne hd
    simp only [Text.byteLength_append, List.append_assoc] at longer ⊢
    exact longer hrest

theorem Munched.spaced (h : Munched [] parts) (start : Nat) :
    Spaced start (text parts) (located start parts) := by
  induction h generalizing start with
  | nil => exact .last .nil
  | @cons p parts hl hd _ ih =>
    rw [located_cons]
    obtain ⟨w, t⟩ := p
    cases t with
    | none =>
      refine .skip ?_ (ih _)
      cases hd with
      | blanks hw => exact .inl hw
      | comment hw => exact .inr hw
    | some t => exact .token .nil hl.matched.ne_nil hd (ih _)

theorem Spaced.pairwise {start : Nat} {cs : List Char} {ts : List Located}
    (h : Spaced start cs ts) : (∀ t ∈ ts, start ≤ t.span.start ∧ t.span.start < t.span.stop) ∧
      ts.Pairwise fun t u => t.span.stop ≤ u.span.start := by
  induction h with
  | last => exact ⟨nofun, .nil⟩
  | @token start gap word rest t ts _ hne _ _ ih =>
    obtain ⟨inside, pairwise⟩ := ih
    have := Text.byteLength_pos hne
    rw [Text.byteLength_append] at inside ⊢
    refine ⟨List.forall_mem_cons.2 ⟨?_, fun u hu => ?_⟩,
      .cons (fun u hu => (inside u hu).1) pairwise⟩
    · dsimp only
      omega
    · have := inside u hu
      omega

theorem isValid_byteLength (as bs : List Char) :
    String.Pos.Raw.IsValid (String.ofList (as ++ bs)) ⟨byteLength as⟩ := by
  apply String.Pos.Raw.isValid_iff_exists_append.2
  refine ⟨String.ofList as, String.ofList bs, String.ofList_append, ?_⟩
  rw [← Text.byteLength_ofList]
  rfl

theorem Spaced.isValid {start : Nat} {cs : List Char} {ts : List Located} (h : Spaced start cs ts)
    {before : List Char} (hs : start = byteLength before) : ∀ t ∈ ts,
      String.Pos.Raw.IsValid (String.ofList (before ++ cs)) ⟨t.span.start⟩ ∧
      String.Pos.Raw.IsValid (String.ofList (before ++ cs)) ⟨t.span.stop⟩ := by
  induction h generalizing before with
  | last => exact nofun
  | @token start gap word rest t ts _ _ _ _ ih =>
    subst hs
    refine List.forall_mem_cons.2 ⟨⟨?_, ?_⟩, ?_⟩
    · have valid := isValid_byteLength (before ++ gap) (word ++ rest)
      simp only [Text.byteLength_append, List.append_assoc] at valid ⊢
      exact valid
    · have valid := isValid_byteLength (before ++ gap ++ word) rest
      simp only [Text.byteLength_append, List.append_assoc] at valid ⊢
      exact valid
    · have behind := @ih (before ++ (gap ++ word)) (Text.byteLength_append ..).symm
      simp only [List.append_assoc] at behind ⊢
      exact behind

theorem lex_of_munched {source : String} (h : Munched [] parts) (ht : text parts = source.toList) :
    lex source = .ok (located 0 parts) := by
  have hrun := tokens_of_munched h 0
  rw [List.append_nil, ht] at hrun
  rw [lex, hrun, tokens, Except.map, List.append_nil]

theorem lex_of_fault {source : String} {bad : List Char} (h : Munched rest parts)
    (ht : text parts ++ rest = source.toList) (hf : Fault rest bad) :
    lex source = .error ⟨byteLength (text parts), String.ofList bad⟩ := by
  rw [lex, ← ht, tokens_of_munched h 0, tokens_of_fault hf, Nat.zero_add]
  rfl

theorem lex_cases (source : String) :
    (∃ parts, Munched [] parts ∧ text parts = source.toList ∧ lex source = .ok (located 0 parts)) ∨
    ∃ parts rest bad, Munched rest parts ∧ text parts ++ rest = source.toList ∧ Fault rest bad ∧
      lex source = .error ⟨byteLength (text parts), String.ofList bad⟩ := by
  obtain ⟨parts, rest, hm, ht, rfl | ⟨bad, hf⟩⟩ := exists_munched source.toList
  · rw [List.append_nil] at ht
    exact .inl ⟨parts, hm, ht, lex_of_munched hm ht⟩
  · exact .inr ⟨parts, rest, bad, hm, ht, hf, lex_of_fault hm ht hf⟩

end Lexer

open Lexer

/-- The tokens of a text are those of its longest pieces. An error is at the first place where no
piece fits; what stands before that place has the tokens that were found up to there. -/
theorem lex_munched (source : String) :
    (∀ ts, lex source = .ok ts ↔
      ∃ parts, Munched [] parts ∧ text parts = source.toList ∧ ts = located 0 parts) ∧
    (∀ ts, lex source = .ok ts → Spaced 0 source.toList ts ∧
      (ts.Pairwise fun t u => t.span.stop ≤ u.span.start) ∧
      ∀ t ∈ ts, t.span.start < t.span.stop ∧
        String.Pos.Raw.IsValid source ⟨t.span.start⟩ ∧
        String.Pos.Raw.IsValid source ⟨t.span.stop⟩) ∧
    ∀ e, lex source = .error e ↔
      ∃ parts rest bad, Munched rest parts ∧ text parts ++ rest = source.toList ∧ Fault rest bad ∧
        e = ⟨byteLength (text parts), String.ofList bad⟩ ∧
        lex (String.ofList (text parts)) = .ok (located 0 parts) := by
  have ok (ts : List Located) (h : lex source = .ok ts) :
      ∃ parts, Munched [] parts ∧ text parts = source.toList ∧ ts = located 0 parts := by
    rcases lex_cases source with ⟨parts, hm, ht, hlex⟩ | ⟨_, _, _, _, _, _, hlex⟩
    · rw [hlex] at h
      exact ⟨parts, hm, ht, (Except.ok.inj h).symm⟩
    · rw [hlex] at h
      cases h
  refine ⟨fun ts => ⟨ok ts, ?_⟩, fun ts h => ?_, fun e => ⟨fun h => ?_, ?_⟩⟩
  · rintro ⟨parts, hm, ht, rfl⟩
    exact lex_of_munched hm ht
  · obtain ⟨parts, hm, ht, rfl⟩ := ok ts h
    have spaced : Spaced 0 source.toList (located 0 parts) := ht ▸ hm.spaced 0
    have valid := @Spaced.isValid _ _ _ spaced [] rfl
    rw [List.nil_append, String.ofList_toList] at valid
    obtain ⟨inside, pairwise⟩ := spaced.pairwise
    exact ⟨spaced, pairwise, fun t ht => ⟨(inside t ht).2, valid t ht⟩⟩
  · rcases lex_cases source with ⟨parts, hm, ht, hlex⟩ | ⟨parts, rest, bad, hm, ht, hf, hlex⟩
    · rw [hlex] at h
      cases h
    · rw [hlex] at h
      refine ⟨parts, rest, bad, hm, ht, hf, (Except.error.inj h).symm, ?_⟩
      exact lex_of_munched hm.stop String.toList_ofList.symm
  · rintro ⟨parts, rest, bad, hm, ht, hf, rfl, -⟩
    exact lex_of_fault hm ht hf

example : lex "iffy<=1.5//" = .ok [⟨.ident "iffy", ⟨0, 4⟩⟩, ⟨.symbol .lessEqual, ⟨4, 6⟩⟩,
    ⟨.float 1.5, ⟨6, 9⟩⟩] := by
  decide +kernel

end BlueCode
