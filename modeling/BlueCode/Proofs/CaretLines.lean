import BlueCode.Diagnostic.Terminal
import BlueCode.Proofs.TextPlaces
import Mathlib.Data.List.DropRight

namespace BlueCode

namespace Text

/-- The characters of a text with the offsets at which they begin, the first of them at `start`. -/
def placed (start : Nat) : List Char → List (Nat × Char)
  | [] => []
  | c :: cs => (start, c) :: placed (start + c.utf8Size) cs

theorem placed_append (start : Nat) (cs ds : List Char) :
    placed start (cs ++ ds) = placed start cs ++ placed (start + byteLength cs) ds := by
  induction cs generalizing start with
  | nil => rfl
  | cons c cs ih => simp only [List.cons_append, placed, ih, byteLength_cons, Nat.add_assoc]

@[simp] theorem length_placed (start : Nat) (cs : List Char) :
    (placed start cs).length = cs.length := by
  induction cs generalizing start with
  | nil => rfl
  | cons c cs ih => rw [placed, List.length_cons, ih, List.length_cons]

theorem start_le_of_mem_placed {start : Nat} {cs : List Char} {p : Nat × Char}
    (h : p ∈ placed start cs) : start ≤ p.1 := by
  induction cs generalizing start with
  | nil => cases h
  | cons c cs ih =>
    rcases List.mem_cons.1 h with rfl | h
    · exact Nat.le_refl _
    · exact Nat.le_trans (Nat.le_add_right _ _) (ih h)

theorem lt_of_mem_placed {start : Nat} {cs : List Char} {p : Nat × Char}
    (h : p ∈ placed start cs) : p.1 < start + byteLength cs := by
  induction cs generalizing start with
  | nil => cases h
  | cons c cs ih =>
    have hpos := c.utf8Size_pos
    rw [byteLength_cons]
    rcases List.mem_cons.1 h with rfl | h
    · dsimp only
      omega
    · have := ih h
      omega

theorem length_le_byteLength (cs : List Char) : cs.length ≤ byteLength cs := by
  induction cs with
  | nil => exact Nat.le_refl _
  | cons c cs ih =>
    have hpos := c.utf8Size_pos
    rw [List.length_cons, byteLength_cons]
    omega

theorem byteLength_eq_length_iff {start : Nat} {cs : List Char} :
    byteLength cs = cs.length ↔ ∀ p ∈ placed start cs, p.2.utf8Size = 1 := by
  induction cs generalizing start with
  | nil => simp [placed]
  | cons c cs ih =>
    have hle := length_le_byteLength cs
    have hpos := c.utf8Size_pos
    rw [placed, List.forall_mem_cons, ← ih, byteLength_cons, List.length_cons]
    dsimp only
    omega

theorem countP_placed_le (start stop : Nat) (cs : List Char) :
    (placed start cs).countP (·.1 < stop) ≤ min (stop - start) (byteLength cs) := by
  induction cs generalizing start with
  | nil => exact Nat.zero_le _
  | cons c cs ih =>
    have hrest := ih (start + c.utf8Size)
    have hpos := c.utf8Size_pos
    rw [placed, List.countP_cons, byteLength_cons]
    dsimp only
    split
    · next h =>
      have := of_decide_eq_true h
      omega
    · omega

theorem countP_placed_pos {start stop : Nat} {cs : List Char}
    (h : 0 < min (stop - start) (byteLength cs)) : 0 < (placed start cs).countP (·.1 < stop) := by
  cases cs with
  | nil => simp at h
  | cons c cs =>
    refine List.countP_pos_iff.2 ⟨(start, c), List.mem_cons_self, decide_eq_true ?_⟩
    dsimp only
    omega

theorem countP_placed_eq_iff {start stop : Nat} {cs : List Char} :
    min (stop - start) (byteLength cs) = (placed start cs).countP (·.1 < stop) ↔
      ∀ p ∈ placed start cs, p.1 < stop → p.2.utf8Size = 1 ∨ stop = p.1 + 1 := by
  induction cs generalizing start with
  | nil => simp [placed]
  | cons c cs ih =>
    have hle := countP_placed_le (start + c.utf8Size) stop cs
    have hpos := c.utf8Size_pos
    rw [placed, List.forall_mem_cons, ← ih, List.countP_cons, byteLength_cons]
    dsimp only
    by_cases h : start < stop
    · rw [if_pos (decide_eq_true h)]
      omega
    · rw [if_neg (by simpa using h)]
      omega

theorem isPrefix_of_byteLength_le {cs ds text : List Char} (hc : cs <+: text) (hd : ds <+: text)
    (h : byteLength cs ≤ byteLength ds) : cs <+: ds := by
  rcases List.prefix_or_prefix_of_prefix hc hd with hcd | ⟨extra, hextra⟩
  · exact hcd
  · have hlength := congrArg byteLength hextra
    rw [byteLength_append] at hlength
    have hnil : extra = [] := by
      by_contra hne
      exact absurd (byteLength_pos hne) (by omega)
    rw [hnil, List.append_nil] at hextra
    exact hextra ▸ List.prefix_refl ds

theorem trimmed_isPrefix (line : List Char) : trimmed line <+: line :=
  List.rdropWhile_prefix _ line

namespace LineAt

variable {source : String} {offset : Nat} {before after : List (List Char)} {line : List Char}

theorem exists_append (h : LineAt source offset before line after)
    (hvalid : String.Pos.Raw.IsValid source ⟨offset⟩) : ∃ head tail, line = head ++ tail ∧
      offset = byteLength (ended before) + byteLength head := by
  obtain ⟨front, back, hsource, hoffset⟩ := String.Pos.Raw.isValid_iff_exists_append.1 hvalid
  have hbytes : offset = byteLength front.toList := by
    rw [byteLength_toList]
    exact congrArg String.Pos.Raw.byteIdx hoffset
  have htext : front.toList ++ back.toList =
      ended before ++ (line ++ after.flatMap ('\n' :: ·)) := by
    rw [← toList_of_lines h.lines_eq, hsource, String.toList_append]
  obtain ⟨head, hhead⟩ : ended before <+: front.toList :=
    isPrefix_of_byteLength_le (htext ▸ List.prefix_append _ _) (List.prefix_append _ back.toList)
      (hbytes ▸ h.start_le)
  rw [← hhead, byteLength_append] at hbytes
  rw [← hhead, List.append_assoc, List.append_cancel_left_eq] at htext
  have hprefix : head <+: line := by
    cases after with
    | nil =>
      rw [List.flatMap_nil, List.append_nil] at htext
      exact ⟨back.toList, htext⟩
    | cons next after =>
      have hstop := h.offset_le (List.cons_ne_nil _ _)
      exact isPrefix_of_byteLength_le ⟨_, htext⟩ (List.prefix_append _ _) (by omega)
  obtain ⟨tail, htail⟩ := hprefix
  exact ⟨head, tail, htail.symm, hbytes⟩

theorem lineText_placeOf (h : LineAt source offset before line after) :
    lineText source (placeOf source offset).line = String.ofList (trimmed line) := by
  rw [h.placeOf_eq, lineText_eq, h.lines_eq]
  simp

end LineAt

end Text

def Label.line (label : Label) (source : String) : String :=
  Text.lineText source (Text.placeOf source label.span.start).line

def Label.column (label : Label) (source : String) : Nat :=
  (Text.placeOf source label.span.start).column

/-- The characters of the line that is shown for a label, with their offsets in the source. -/
def Label.shown (label : Label) (source : String) : List (Nat × Char) :=
  Text.placed (label.span.start - (label.column source - 1)) (label.line source).toList

/-- How many characters of the shown line are before the label. -/
def Label.before (label : Label) (source : String) : Nat :=
  (label.shown source).countP (·.1 < label.span.start)

/-- How many characters of the shown line belong to the label. -/
def Label.within (label : Label) (source : String) : Nat :=
  (label.shown source).countP fun p => label.span.start ≤ p.1 ∧ p.1 < label.span.stop

/-- Up to the end of a label, the bytes of the shown line are its characters: each takes one, but
for the last of the label, of which the label may take the first byte alone. And the label does not
begin among the carriage returns that are not shown, or at the newline behind them. -/
structure Label.Aligned (label : Label) (source : String) : Prop where
  before : ∀ p ∈ label.shown source, p.1 < label.span.start → p.2.utf8Size = 1
  within : ∀ p ∈ label.shown source, label.span.start ≤ p.1 → p.1 < label.span.stop →
    p.2.utf8Size = 1 ∨ label.span.stop = p.1 + 1
  inside : label.column source ≤ (label.line source).utf8ByteSize + 1

namespace Label

/-- A label begins on the line that is shown for it, behind `head` and before `tail`. -/
structure Splits (label : Label) (source : String) (head tail : List Char) : Prop where
  column_eq : label.column source - 1 = Text.byteLength head
  text_eq : (label.line source).toList = head ++ tail
  length_le : Text.byteLength head ≤ label.span.start

namespace Splits

variable {label : Label} {source : String} {head tail : List Char}

theorem shown_eq (h : label.Splits source head tail) : label.shown source =
    Text.placed (label.span.start - Text.byteLength head) head ++
      Text.placed label.span.start tail := by
  rw [shown, h.column_eq, h.text_eq, Text.placed_append, Nat.sub_add_cancel h.length_le]

theorem lt_start (h : label.Splits source head tail) {p : Nat × Char}
    (hp : p ∈ Text.placed (label.span.start - Text.byteLength head) head) :
    p.1 < label.span.start := by
  have hlt := Text.lt_of_mem_placed hp
  rwa [Nat.sub_add_cancel h.length_le] at hlt

theorem before_eq (h : label.Splits source head tail) : label.before source = head.length := by
  rw [before, h.shown_eq, List.countP_append, List.countP_eq_length.2, List.countP_eq_zero.2,
    Text.length_placed, Nat.add_zero]
  · intro p hp hlt
    exact Nat.not_lt.2 (Text.start_le_of_mem_placed hp) (of_decide_eq_true hlt)
  · exact fun p hp => decide_eq_true (h.lt_start hp)

theorem within_eq (h : label.Splits source head tail) : label.within source =
    (Text.placed label.span.start tail).countP (·.1 < label.span.stop) := by
  rw [within, h.shown_eq, List.countP_append, List.countP_eq_zero.2, Nat.zero_add]
  · refine List.countP_congr fun p hp => ?_
    simp [Text.start_le_of_mem_placed hp]
  · intro p hp hle
    exact Nat.not_le.2 (h.lt_start hp) (of_decide_eq_true hle).1

theorem aligned_iff (h : label.Splits source head tail) : label.Aligned source ↔
    (∀ p ∈ Text.placed (label.span.start - Text.byteLength head) head, p.2.utf8Size = 1) ∧
      ∀ p ∈ Text.placed label.span.start tail, p.1 < label.span.stop →
        p.2.utf8Size = 1 ∨ label.span.stop = p.1 + 1 := by
  refine ⟨fun ha => ⟨fun p hp => ?_, fun p hp => ?_⟩, fun ⟨hhead, htail⟩ => ⟨?_, ?_, ?_⟩⟩
  · exact ha.before p (h.shown_eq ▸ List.mem_append_left _ hp) (h.lt_start hp)
  · exact ha.within p (h.shown_eq ▸ List.mem_append_right _ hp) (Text.start_le_of_mem_placed hp)
  · rw [h.shown_eq, List.forall_mem_append]
    exact ⟨fun p hp _ => hhead p hp,
      fun p hp hlt => absurd (Text.start_le_of_mem_placed hp) (Nat.not_le.2 hlt)⟩
  · rw [h.shown_eq, List.forall_mem_append]
    exact ⟨fun p hp hle => absurd (h.lt_start hp) (Nat.not_lt.2 hle), fun p hp _ => htail p hp⟩
  · have hcolumn := h.column_eq
    rw [← Text.byteLength_toList, h.text_eq, Text.byteLength_append]
    omega

end Splits

/-- A label that begins at a character boundary of the source begins on the line that is shown for
it, if not behind it. -/
theorem exists_splits {label : Label} {source : String}
    (hstart : String.Pos.Raw.IsValid source ⟨label.span.start⟩)
    (hinside : label.column source ≤ (label.line source).utf8ByteSize + 1) :
    ∃ head tail, label.Splits source head tail := by
  obtain ⟨before, line, after, hline⟩ := Text.exists_lineAt source label.span.start
  obtain ⟨head, tail, rfl, hoffset⟩ := hline.exists_append hstart
  have htext : (label.line source).toList = Text.trimmed (head ++ tail) := by
    rw [Label.line, hline.lineText_placeOf, String.toList_ofList]
  have hcolumn : label.column source =
      if Text.byteLength head + 1 < UInt64.size then Text.byteLength head + 1 else 0 := by
    rw [column, hline.placeOf_eq, Text.columnFrom, hoffset, Nat.add_sub_cancel_left]
  split at hcolumn
  · have hbytes : label.column source - 1 = Text.byteLength head := by omega
    rw [← Text.byteLength_toList, htext] at hinside
    obtain ⟨rest, hrest⟩ : head <+: Text.trimmed (head ++ tail) :=
      Text.isPrefix_of_byteLength_le (List.prefix_append head tail) (Text.trimmed_isPrefix _)
        (by omega)
    exact ⟨head, rest, hbytes, htext.trans hrest.symm, by omega⟩
  · -- Without a column the label stands before the line.
    exact ⟨[], _, by rw [hcolumn]; rfl, rfl, Nat.zero_le _⟩

theorem before_le (label : Label) (source : String) :
    label.before source ≤ (label.line source).utf8ByteSize := by
  rw [← Text.byteLength_toList]
  exact Nat.le_trans (Text.countP_placed_le _ _ _) (Nat.min_le_right _ _)

end Label

namespace Diagnostic

def above (d : Diagnostic) (label : Label) (source : String) : String :=
  let number := toString (Text.placeOf source label.span.start).line
  let pad := repeated ' ' number.length
  headLine false d ++ "  --> " ++ number ++ ":" ++ toString (label.column source) ++ "\n" ++
  pad ++ " |\n" ++
  number ++ " | " ++ label.line source ++ "\n" ++
  pad ++ " | "

def below (d : Diagnostic) (label : Label) : String :=
  (if label.message = "" then "" else " " ++ label.message) ++ "\n" ++
    String.join (d.notes.map (remark false "note")) ++
    String.join (d.suggestion.toList.map (remark false "help"))

/-- The plain rendering with so many carets, behind so many blanks. -/
def marked (d : Diagnostic) (label : Label) (source : String) (indent carets : Nat) : String :=
  d.above label source ++ repeated ' ' indent ++ repeated '^' carets ++ d.below label

/-- The plain rendering with carets under the label: one for each of its characters on the shown
line, or a single one if there is none. -/
def aimed (d : Diagnostic) (label : Label) (source : String) : String :=
  d.marked label source (label.before source) (max 1 (label.within source))

theorem paint_false (p : Paint) (s : String) : paint false p s = s := rfl

variable {d : Diagnostic} {label : Label} {source : String}

theorem render_eq_marked (hlabel : d.label = some label) (hsource : d.source = some source) :
    d.render false = d.marked label source (label.column source - 1)
      (caretCount (label.line source) (label.column source) label.span) := by
  have harrow : "  --> " = "  " ++ "-->" ++ " " := by decide
  have hbar : " |\n" = " " ++ "|" ++ "\n" := by decide
  have hgutter : " | " = " " ++ "|" ++ " " := by decide
  unfold render marked above below
  rw [hlabel, hsource, harrow, hbar, hgutter]
  unfold snippet Label.column Label.line
  dsimp only
  simp only [paint_false, String.append_assoc]

theorem replicate_append_inj {α : Type} {a b : α} (hne : a ≠ b) {m n : Nat} {as bs : List α}
    (h : List.replicate m a ++ b :: as = List.replicate n a ++ b :: bs) : m = n := by
  induction m generalizing n with
  | zero =>
    cases n with
    | zero => rfl
    | succ n => exact absurd (List.cons.inj h).1.symm hne
  | succ m ih =>
    cases n with
    | zero => exact absurd (List.cons.inj h).1 hne
    | succ n => rw [ih (List.cons.inj h).2]

theorem marked_inj {indent indent' carets carets' : Nat} (hpos : 0 < carets) (hpos' : 0 < carets') :
    d.marked label source indent carets = d.marked label source indent' carets' ↔
      indent = indent' ∧ carets = carets' := by
  refine ⟨fun h => ?_, fun h => by rw [h.1, h.2]⟩
  have hlist := congrArg String.toList h
  simp only [marked, repeated, String.toList_append, String.toList_ofList, List.append_assoc,
    List.append_cancel_left_eq] at hlist
  have hlength := congrArg List.length hlist
  obtain ⟨m, rfl⟩ := Nat.exists_eq_add_of_le' hpos
  obtain ⟨n, rfl⟩ := Nat.exists_eq_add_of_le' hpos'
  have hindent : indent = indent' :=
    replicate_append_inj (show ' ' ≠ '^' by decide)
      (by simpa [List.replicate_succ] using hlist)
  simp only [List.length_append, List.length_replicate] at hlength
  exact ⟨hindent, by omega⟩

theorem caretCount_pos (line : String) (column : Nat) (span : Text.Span) :
    0 < caretCount line column span :=
  Nat.lt_of_lt_of_le Nat.zero_lt_one (Nat.le_max_left _ _)

theorem caretCount_eq {head tail : List Char} (h : label.Splits source head tail) :
    caretCount (label.line source) (label.column source) label.span =
      max 1 (min (label.span.stop - label.span.start) (max 1 (Text.byteLength tail))) := by
  rw [caretCount, h.column_eq, ← Text.byteLength_toList, h.text_eq, Text.byteLength_append,
    Nat.add_sub_cancel_left]

/-- Behind a character boundary of the line, the carets are as many as the characters of the label
if and only if these take one byte each. -/
theorem max_min_eq_iff (start stop : Nat) (tail : List Char) :
    max 1 (min (stop - start) (max 1 (Text.byteLength tail))) =
        max 1 ((Text.placed start tail).countP (·.1 < stop)) ↔
      ∀ p ∈ Text.placed start tail, p.1 < stop → p.2.utf8Size = 1 ∨ stop = p.1 + 1 := by
  have hle := Text.countP_placed_le start stop tail
  have hpos := @Text.countP_placed_pos start stop tail
  rw [← Text.countP_placed_eq_iff]
  generalize (Text.placed start tail).countP (·.1 < stop) = count at hle hpos
  omega

def marking (source : String) (start stop : Nat) : Diagnostic :=
  { error "bad" with label := some ⟨⟨start, stop⟩, "here"⟩, source := some source }

/-- The carets of a plain rendering stand under the label if and only if bytes and characters agree
there. -/
theorem render_carets_iff (hlabel : d.label = some label) (hsource : d.source = some source)
    (hstart : String.Pos.Raw.IsValid source ⟨label.span.start⟩) :
    d.render false = d.aimed label source ↔ label.Aligned source := by
  rw [render_eq_marked hlabel hsource, aimed, marked_inj (caretCount_pos _ _ _) (by omega)]
  by_cases hinside : label.column source ≤ (label.line source).utf8ByteSize + 1
  · obtain ⟨head, tail, h⟩ := Label.exists_splits hstart hinside
    rw [caretCount_eq h, h.before_eq, h.within_eq, h.column_eq, h.aligned_iff, max_min_eq_iff,
      Text.byteLength_eq_length_iff]
  · have hbefore := label.before_le source
    exact ⟨fun h => by omega, fun h => absurd h.inside hinside⟩

theorem render_carets_iff_return :
    String.Pos.Raw.IsValid "über\n\treturn y\r\n" ⟨14⟩ ∧
      Label.Aligned ⟨⟨14, 400⟩, "here"⟩ "über\n\treturn y\r\n" ∧
      (marking "über\n\treturn y\r\n" 14 400).render false =
        "error: bad\n  --> 2:9\n  |\n2 | \treturn y\n  |         ^ here\n" := by
  have hstart : String.Pos.Raw.IsValid "über\n\treturn y\r\n" ⟨14⟩ := by decide +kernel
  have haligned : Label.Aligned ⟨⟨14, 400⟩, "here"⟩ "über\n\treturn y\r\n" :=
    ⟨by decide +kernel, by decide +kernel, by decide +kernel⟩
  refine ⟨hstart, haligned, ((render_carets_iff rfl rfl hstart).2 haligned).trans ?_⟩
  decide +kernel

theorem carets_misplaced :
    (String.Pos.Raw.IsValid "é" ⟨0⟩ ∧
      (marking "é" 0 2).render false = "error: bad\n  --> 1:1\n  |\n1 | é\n  | ^^ here\n" ∧
      (marking "é" 0 2).aimed ⟨⟨0, 2⟩, "here"⟩ "é" =
        "error: bad\n  --> 1:1\n  |\n1 | é\n  | ^ here\n") ∧
    (String.Pos.Raw.IsValid "\"é\" ?" ⟨5⟩ ∧
      (marking "\"é\" ?" 5 6).render false =
        "error: bad\n  --> 1:6\n  |\n1 | \"é\" ?\n  |      ^ here\n" ∧
      (marking "\"é\" ?" 5 6).aimed ⟨⟨5, 6⟩, "here"⟩ "\"é\" ?" =
        "error: bad\n  --> 1:6\n  |\n1 | \"é\" ?\n  |     ^ here\n") ∧
    String.Pos.Raw.IsValid "one\r\ntwo" ⟨4⟩ ∧
      (marking "one\r\ntwo" 4 5).render false =
        "error: bad\n  --> 1:5\n  |\n1 | one\n  |     ^ here\n" ∧
      (marking "one\r\ntwo" 4 5).aimed ⟨⟨4, 5⟩, "here"⟩ "one\r\ntwo" =
        "error: bad\n  --> 1:5\n  |\n1 | one\n  |    ^ here\n" := by
  decide +kernel

end Diagnostic

end BlueCode
