import BlueCode.Proofs.ThinnedImages

namespace BlueCode

open Compile

namespace Text

theorem exists_trim (cs : List Char) : ∃ front back, (∀ c ∈ front, isBlank c = true) ∧
    (∀ c ∈ back, isBlank c = true) ∧ cs = front ++ trim cs ++ back := by
  let rest := cs.dropWhile isBlank
  refine ⟨cs.takeWhile isBlank, (rest.reverse.takeWhile isBlank).reverse, ?_, ?_, ?_⟩
  · exact fun c hc => List.mem_takeWhile_imp hc
  · exact fun c hc => List.mem_takeWhile_imp (List.mem_reverse.1 hc)
  · have hback : trim cs ++ (rest.reverse.takeWhile isBlank).reverse = rest := by
      rw [trim, ← List.reverse_append, List.takeWhile_append_dropWhile, List.reverse_reverse]
    rw [List.append_assoc, hback, List.takeWhile_append_dropWhile]

theorem ne_of_isBlank {c d : Char} (hc : isBlank c = true) (hd : isBlank d = false) : c ≠ d := by
  rintro rfl
  cases hc.symm.trans hd

theorem trim_blanks {front cs : List Char} (h : ∀ c ∈ front, isBlank c = true) :
    trim (front ++ cs) = trim cs := by
  rw [trim, trim, List.dropWhile_append_of_pos h]

theorem trim_append_blanks {cs back : List Char} (h : ∀ c ∈ back, isBlank c = true) :
    trim (cs ++ back) = trim cs := by
  have hback : back.dropWhile isBlank = [] := List.dropWhile_eq_nil_iff.2 h
  rw [trim, trim, List.dropWhile_append]
  split
  · next hempty => rw [hback, List.isEmpty_iff.1 hempty]
  · rw [List.reverse_append, List.dropWhile_append_of_pos fun c hc => h c (List.mem_reverse.1 hc)]

end Text

namespace Loader

theorem uncomment_concat_blank {c : Char} (h : Text.isBlank c = true) (inString : Bool)
    (raw : List Char) : uncomment inString (raw ++ [c]) = uncomment inString raw ++ [c] ∨
      uncomment inString (raw ++ [c]) = uncomment inString raw := by
  have hquote : c ≠ '"' := Text.ne_of_isBlank h (by decide)
  have hmark : c ≠ ';' := Text.ne_of_isBlank h (by decide)
  induction raw generalizing inString with
  | nil => simp [uncomment, hquote, hmark]
  | cons d raw ih =>
    rw [List.cons_append, uncomment, uncomment]
    split
    · exact (ih (!inString)).imp (congrArg (d :: ·)) (congrArg (d :: ·))
    · split
      · exact .inr rfl
      · exact (ih inString).imp (congrArg (d :: ·)) (congrArg (d :: ·))

theorem body_concat_blank {c : Char} (h : Text.isBlank c = true) (raw : List Char) :
    body (raw ++ [c]) = body raw := by
  rw [body, body]
  rcases uncomment_concat_blank h false raw with he | he
  · rw [he]
    exact Text.trim_append_blanks (List.forall_mem_singleton.2 h)
  · rw [he]

theorem instruction_line {n : Nat} {cs : List Char} {i : Instruction}
    (h : instruction n cs = .ok i) (m : Nat) : instruction m cs = .ok i := by
  have hagree := agree_instruction n m cs
  rw [h] at hagree
  obtain ⟨j, hj, rfl⟩ := hagree.exists_ok
  exact hj

/-- The lines hold the instructions, one after the other, and else nothing but blanks and comments. -/
inductive Writes : List (List Char) → List Instruction → Prop where
  | nil : Writes [] []
  | silent {raw : List Char} {raws : List (List Char)} {code : List Instruction} :
      body raw = [] → Writes raws code → Writes (raw :: raws) code
  | line {raw : List Char} {raws : List (List Char)} {i : Instruction} {code : List Instruction} :
      (∀ n, instruction n (body raw) = .ok i) → Writes raws code → Writes (raw :: raws) (i :: code)

theorem ne_nil_of_instruction {n : Nat} {cs : List Char} {i : Instruction}
    (h : instruction n cs = .ok i) : cs ≠ [] := by
  rintro rfl
  simp [instruction, words] at h

theorem line?_of_instruction {raw : List Char} {i : Instruction}
    (h : ∀ n, instruction n (body raw) = .ok i) (n : Nat) : line? n raw = some ⟨n, .ok i⟩ := by
  rw [line?, if_neg (ne_nil_of_instruction (h n)), h n]

namespace Writes

variable {raws raws' : List (List Char)} {code code' : List Instruction}

theorem contents (h : Writes raws code) (n : Nat) :
    (linesFrom n raws).map Image.Line.content = code.map .ok := by
  induction h generalizing n with
  | nil => rfl
  | silent hb _ ih =>
    rw [linesFrom_cons, line?, if_pos hb]
    exact ih (n + 1)
  | line hi _ ih =>
    rw [linesFrom_cons, line?_of_instruction hi]
    exact congrArg (_ :: ·) (ih (n + 1))

theorem of_contents {n : Nat} (h : (linesFrom n raws).map Image.Line.content = code.map .ok) :
    Writes raws code := by
  induction raws generalizing n code with
  | nil =>
    rw [List.map_eq_nil_iff.1 h.symm]
    exact .nil
  | cons raw raws ih =>
    rw [linesFrom_cons] at h
    by_cases hb : body raw = []
    · rw [line?, if_pos hb] at h
      exact .silent hb (ih h)
    · rw [line?, if_neg hb] at h
      cases code with
      | nil => cases h
      | cons i code =>
        obtain ⟨hi, hrest⟩ := List.cons.inj h
        exact .line (instruction_line hi) (ih hrest)

theorem append (h : Writes raws code) (h' : Writes raws' code') :
    Writes (raws ++ raws') (code ++ code') := by
  induction h with
  | nil => exact h'
  | silent hb _ ih => exact .silent hb ih
  | line hi _ ih => exact .line hi ih

theorem of_append (h : Writes (raws ++ raws') code) :
    ∃ first rest, code = first ++ rest ∧ Writes raws first ∧ Writes raws' rest := by
  induction raws generalizing code with
  | nil => exact ⟨[], code, rfl, .nil, h⟩
  | cons raw raws ih =>
    cases h with
    | silent hb h =>
      obtain ⟨first, rest, rfl, hf, hr⟩ := ih h
      exact ⟨first, rest, rfl, .silent hb hf, hr⟩
    | line hi h =>
      obtain ⟨first, rest, rfl, hf, hr⟩ := ih h
      exact ⟨_ :: first, rest, rfl, .line hi hf, hr⟩

end Writes

end Loader

/-- A text loads if and only if its lines hold functions with different names, and different labels
in each; the image is made of these functions. -/
theorem load_eq_ok_iff {text : String} {image : Image} : load text = .ok image ↔
    ∃ blocks : List Block, Loader.Writes (Text.lines text.toList) (blocks.flatMap Block.code) ∧
      (blocks.map Block.name).Nodup ∧ (∀ b ∈ blocks, Routine.Loadable b.body) ∧
      image = .ofBlocks blocks := by
  constructor
  · intro h
    obtain ⟨blocks, hc, hd, hl, rfl⟩ := Image.exists_blocks_of_lines h fun line hline i hi =>
      (Loader.lines_shaped line hline i hi).formed
    exact ⟨blocks, .of_contents hc, hd, hl, rfl⟩
  · rintro ⟨blocks, hw, hd, hl, rfl⟩
    exact Image.ofLines_blocks hd hl (hw.contents 1)

/-- Texts whose lines hold the same instructions have the same image. -/
theorem load_of_writes {text text' : String} {image : Image} (h : load text = .ok image)
    (hw : ∀ code, Loader.Writes (Text.lines text.toList) code →
      Loader.Writes (Text.lines text'.toList) code) : load text' = .ok image := by
  obtain ⟨blocks, hcode, hrest⟩ := load_eq_ok_iff.1 h
  exact load_eq_ok_iff.2 ⟨blocks, hw _ hcode, hrest⟩

end BlueCode
