import BlueCode.Text.Lines
import Mathlib.Data.List.TakeWhile
import Mathlib.Data.Prod.Lex
import Mathlib.Order.Monotone.Basic

namespace BlueCode

namespace Text

def ended (ls : List (List Char)) : List Char :=
  ls.flatMap (· ++ ['\n'])

@[simp] theorem ended_nil : ended [] = [] := rfl

@[simp] theorem ended_cons (line : List Char) (ls : List (List Char)) :
    ended (line :: ls) = line ++ '\n' :: ended ls := by
  simp [ended]

theorem byteLength_newline (cs : List Char) :
    byteLength ('\n' :: cs) = byteLength cs + 1 := by
  rw [byteLength_cons, Nat.add_comm]
  rfl

theorem intercalate_cons (line : List Char) (ls : List (List Char)) :
    ['\n'].intercalate (line :: ls) = line ++ ls.flatMap ('\n' :: ·) := by
  induction ls generalizing line with
  | nil => simp
  | cons next ls ih =>
    rw [List.intercalate_cons_cons, ih]
    simp

theorem intercalate_eq_ended (before after : List (List Char)) (line : List Char) :
    ['\n'].intercalate (before ++ line :: after) =
      ended before ++ (line ++ after.flatMap ('\n' :: ·)) := by
  induction before with
  | nil => exact intercalate_cons line after
  | cons first before ih =>
    obtain ⟨next, rest, hnext⟩ := List.exists_cons_of_ne_nil
      (List.append_ne_nil_of_right_ne_nil before (List.cons_ne_nil line after))
    rw [List.cons_append, hnext, List.intercalate_cons_cons, ← hnext, ih]
    simp

/-- The lines of a text before the line that an offset belongs to, that line, and those after it. A
newline belongs to the line that it ends. -/
structure LineAt (source : String) (offset : Nat) (before : List (List Char)) (line : List Char)
    (after : List (List Char)) : Prop where
  lines_eq : lines source.toList = before ++ line :: after
  start_le : byteLength (ended before) ≤ offset
  offset_le : after ≠ [] → offset ≤ byteLength (ended before) + byteLength line

theorem exists_line {ls : List (List Char)} (hne : ls ≠ []) {start offset : Nat}
    (h : start ≤ offset) : ∃ before line after, ls = before ++ line :: after ∧
      start + byteLength (ended before) ≤ offset ∧
      (after ≠ [] → offset ≤ start + byteLength (ended before) + byteLength line) := by
  induction ls generalizing start with
  | nil => exact absurd rfl hne
  | cons line rest ih =>
    by_cases hlater : rest ≠ [] ∧ start + byteLength line + 1 ≤ offset
    · obtain ⟨before, later, after, rfl, hstart, hstop⟩ := ih hlater.1 hlater.2
      refine ⟨line :: before, later, after, rfl, ?_, fun hafter => ?_⟩
      · simp only [ended_cons, byteLength_append, byteLength_newline]
        omega
      · have := hstop hafter
        simp only [ended_cons, byteLength_append, byteLength_newline]
        omega
    · refine ⟨[], line, rest, rfl, h, fun hafter => ?_⟩
      have : ¬ start + byteLength line + 1 ≤ offset := fun hle => hlater ⟨hafter, hle⟩
      simp only [ended_nil, byteLength_nil]
      omega

theorem exists_lineAt (source : String) (offset : Nat) :
    ∃ before line after, LineAt source offset before line after := by
  obtain ⟨before, line, after, hlines, hstart, hstop⟩ :=
    exists_line (lines_ne_nil source.toList) (Nat.zero_le offset)
  rw [Nat.zero_add] at hstart hstop
  exact ⟨before, line, after, hlines, hstart, hstop⟩

theorem lineStarts_append (start : Nat) (ls ls' : List (List Char)) :
    lineStarts start (ls ++ ls') =
      lineStarts start ls ++ lineStarts (start + byteLength (ended ls)) ls' := by
  induction ls generalizing start with
  | nil => rfl
  | cons line ls ih =>
    simp only [List.cons_append, lineStarts, ih, ended_cons, byteLength_append, byteLength_newline]
    congr 3
    omega

theorem length_lineStarts (start : Nat) (ls : List (List Char)) :
    (lineStarts start ls).length = ls.length := by
  induction ls generalizing start with
  | nil => rfl
  | cons line ls ih => rw [lineStarts, List.length_cons, List.length_cons, ih]

theorem lt_of_mem_lineStarts {start s : Nat} {ls : List (List Char)}
    (h : s ∈ lineStarts start ls) : s < start + byteLength (ended ls) := by
  induction ls generalizing start with
  | nil => cases h
  | cons line ls ih =>
    simp only [ended_cons, byteLength_append, byteLength_newline]
    rw [lineStarts] at h
    rcases List.mem_cons.1 h with rfl | h
    · omega
    · have := ih h
      omega

theorem toList_of_lines {source : String} {before after : List (List Char)} {line : List Char}
    (h : lines source.toList = before ++ line :: after) :
    source.toList = ended before ++ (line ++ after.flatMap ('\n' :: ·)) := by
  rw [← intercalate_eq_ended, ← h, intercalate_lines]

namespace LineAt

variable {source : String} {offset : Nat} {before after : List (List Char)} {line : List Char}

theorem takeWhile_lineStarts (h : LineAt source offset before line after) :
    (lineStarts 0 (lines source.toList)).takeWhile (· ≤ offset) =
      lineStarts 0 before ++ [byteLength (ended before)] := by
  rw [h.lines_eq, lineStarts_append, Nat.zero_add, lineStarts]
  have hbefore : ∀ s ∈ lineStarts 0 before, decide (s ≤ offset) = true := by
    intro s hs
    have hlt := lt_of_mem_lineStarts hs
    have hle := h.start_le
    exact decide_eq_true (by omega)
  rw [List.takeWhile_append_of_pos hbefore, List.takeWhile_cons, if_pos (decide_eq_true h.start_le)]
  congr 2
  cases after with
  | nil => rfl
  | cons next after =>
    have hstop := h.offset_le (List.cons_ne_nil _ _)
    exact List.takeWhile_cons_of_neg (by simpa using by omega)

theorem placeOf_eq (h : LineAt source offset before line after) :
    placeOf source offset = ⟨before.length + 1, columnFrom (byteLength (ended before)) offset⟩ := by
  unfold placeOf
  dsimp only
  rw [h.takeWhile_lineStarts, List.length_append, length_lineStarts, List.getLastD_concat]
  rfl

end LineAt

def newline : UInt8 := 10

/-- Line `n` begins at an offset: there are that many newlines and one more before it, and the last
of them right before it. -/
structure LineBegins (bs : List UInt8) (n start : Nat) : Prop where
  start_le : start ≤ bs.length
  count_eq : (bs.take start).count newline + 1 = n
  after_newline : start = 0 ∨ bs[start - 1]? = some newline

theorem count_take_mono (bs : List UInt8) {a b : Nat} (h : a ≤ b) :
    (bs.take a).count newline ≤ (bs.take b).count newline :=
  (List.take_sublist_take_left h).count_le newline

theorem LineBegins.le {bs : List UInt8} {n s t : Nat} (hs : LineBegins bs n s)
    (ht : LineBegins bs n t) : t ≤ s := by
  by_contra hlt
  have hnewline := ht.after_newline.resolve_left (by omega)
  have hcount := count_take_mono bs (show s ≤ t - 1 by omega)
  have hlast : (bs.take t).count newline = (bs.take (t - 1)).count newline + 1 := by
    rw [show t = t - 1 + 1 by omega, List.take_add_one, Nat.add_sub_cancel, hnewline]
    simp
  have hsn := hs.count_eq
  have htn := ht.count_eq
  omega

theorem LineBegins.unique {bs : List UInt8} {n s t : Nat} (hs : LineBegins bs n s)
    (ht : LineBegins bs n t) : s = t :=
  Nat.le_antisymm (ht.le hs) (hs.le ht)

section

variable {source : String} {offset : Nat} {before after : List (List Char)} {line : List Char}

namespace LineAt

end LineAt

end

def trimmed (line : List Char) : List Char :=
  (line.reverse.dropWhile (· == '\r')).reverse

theorem lineText_eq (source : String) (n : Nat) :
    lineText source (n + 1) = String.ofList (trimmed ((lines source.toList).getD n [])) :=
  rfl

end Text

end BlueCode
