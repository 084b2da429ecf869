import BlueCode.Text.Span

namespace BlueCode.Text

def lines : List Char → List (List Char)
  | [] => [[]]
  | c :: cs =>
    if c = '\n' then [] :: lines cs
    else
      match lines cs with
      | [] => [[c]]
      | first :: rest => (c :: first) :: rest

theorem lines_ne_nil (cs : List Char) : lines cs ≠ [] := by
  cases cs with
  | nil => simp [lines]
  | cons c cs =>
    rw [lines]
    split
    · simp
    · split <;> simp

theorem intercalate_lines (cs : List Char) : ['\n'].intercalate (lines cs) = cs := by
  induction cs with
  | nil => rfl
  | cons c cs ih =>
    rw [lines]
    split
    · next h =>
      cases hl : lines cs with
      | nil => exact absurd hl (lines_ne_nil cs)
      | cons first rest =>
        rw [List.intercalate_cons_cons, ← hl, ih, h]
        rfl
    · next h =>
      split
      · next hnil => exact absurd hnil (lines_ne_nil cs)
      · next first rest hcons =>
        rw [hcons] at ih
        cases rest with
        | nil =>
          rw [List.intercalate_singleton] at ih ⊢
          rw [ih]
        | cons second rest =>
          rw [List.intercalate_cons_cons] at ih ⊢
          rw [← ih]
          rfl

theorem newline_notMem_of_mem_lines {cs line : List Char} (h : line ∈ lines cs) :
    '\n' ∉ line := by
  induction cs generalizing line with
  | nil => simp_all [lines]
  | cons c cs ih =>
    rw [lines] at h
    split at h
    · rcases List.mem_cons.1 h with rfl | h
      · exact List.not_mem_nil
      · exact ih h
    · next hc =>
      split at h
      · next hnil => exact absurd hnil (lines_ne_nil cs)
      · next first rest hcons =>
        rcases List.mem_cons.1 h with rfl | h
        · have : '\n' ∉ first := ih (by simp [hcons])
          simp only [List.mem_cons, not_or]
          exact ⟨fun e => hc e.symm, this⟩
        · exact ih (by simp [hcons, h])

structure Place where
  line : Nat
  column : Nat
  deriving DecidableEq, Repr

/-- The byte offsets at which the lines begin, when the text itself begins at `start`. -/
def lineStarts (start : Nat) : List (List Char) → List Nat
  | [] => []
  | line :: rest => start :: lineStarts (start + byteLength line + 1) rest

/-- The column of an offset on the line that begins at `start`. Offsets and columns are 64-bit words,
so the largest offset has the column zero on a line that begins with the text. -/
def columnFrom (start offset : Nat) : Nat :=
  if offset - start + 1 < UInt64.size then offset - start + 1 else 0

/-- The place of a byte offset. An offset past the end counts on along the last line. -/
def placeOf (source : String) (offset : Nat) : Place :=
  let before := (lineStarts 0 (lines source.toList)).takeWhile (· ≤ offset)
  ⟨before.length, columnFrom (before.getLastD 0) offset⟩

/-- The text of a line without the carriage returns at its end; empty when there is no such line. -/
def lineText (source : String) (line : Nat) : String :=
  match line with
  | 0 => ""
  | n + 1 =>
    let text := (lines source.toList).getD n []
    String.ofList (text.reverse.dropWhile (· == '\r')).reverse

def lineCount (source : String) : Nat :=
  (lines source.toList).length

end BlueCode.Text
