import BlueCode.Proofs.ProgramImage
import BlueCode.Proofs.TextRoundTrip

namespace BlueCode

open Compile Peephole

/-- The operand that is read from the text of an operand, if any is. -/
def Operand.reread : Operand → Operand
  | float x => (Loader.number? (float x).chars).getD (float x)
  | o => o

namespace Instruction

def reread (i : Instruction) : Instruction :=
  ⟨i.op, i.src.map Operand.reread, i.dst⟩

/-- The text of the constant, if it is not read as a number. -/
def unreadable? (i : Instruction) : Option String :=
  match i.src with
  | some (.float x) =>
    if Loader.number? (Operand.float x).chars = none then some (Operand.float x).text else none
  | _ => none

def reloaded (i : Instruction) (line : Nat) : Except LoadError Instruction :=
  match i.unreadable? with
  | some text => .error (.badOperand line text)
  | none => .ok i.reread

@[simp] theorem reread_op (i : Instruction) : i.reread.op = i.op := rfl

@[simp] theorem reread_dst (i : Instruction) : i.reread.dst = i.dst := rfl

theorem reread_of_src {i : Instruction} (h : ∀ x, i.src ≠ some (.float x)) : i.reread = i := by
  obtain ⟨op, src, dst⟩ := i
  cases src with
  | none => rfl
  | some o =>
    cases o with
    | float x => exact absurd rfl (h x)
    | _ => rfl

theorem unreadable?_of_src {i : Instruction} (h : ∀ x, i.src ≠ some (.float x)) :
    i.unreadable? = none := by
  unfold unreadable?
  split
  · next x hx => exact absurd hx (h x)
  · rfl

end Instruction

namespace Compile

variable {callable : String → Prop} {exit : Option String} {d n d' n' : Nat}
  {code : List Instruction} {i : Instruction}

theorem constant_of_number? {word : List Char} {o : Operand} (h : Loader.number? word = some o) :
    Constant o := by
  unfold Loader.number? at h
  split at h
  · split at h
    · split at h
      · cases h
        exact .int _
      · obtain ⟨x, -, rfl⟩ := Option.map_eq_some_iff.1 h
        exact .float x
    · cases h
  · cases h

theorem Constant.reread {o : Operand} (h : Constant o) : Constant o.reread := by
  cases h with
  | int n => exact .int n
  | float x =>
    rw [Operand.reread]
    cases hr : Loader.number? (Operand.float x).chars with
    | none => exact .float x
    | some o => exact constant_of_number? hr
  | str hq hn => exact .str hq hn

theorem ExprCode.reread (h : ExprCode callable d code) :
    ExprCode callable d (code.map Instruction.reread) := by
  induction h with
  | constant ho => exact .constant ho.reread
  | load hk => exact .load hk
  | store _ hk ih =>
    rw [List.map_append]
    exact .store ih hk
  | operation hop _ _ ihl ihr =>
    rw [List.map_append, List.map_append, List.map_cons]
    exact .operation hop ihl ihr
  | @call args name _ hn ih =>
    rw [List.map_append, List.map_flatten]
    refine .call (fun code hcode => ?_) hn
    obtain ⟨arg, harg, rfl⟩ := List.mem_map.1 hcode
    exact ih arg harg

theorem StmtCode.reread (h : StmtCode callable exit d n code d' n') :
    StmtCode callable exit d n (code.map Instruction.reread) d' n' := by
  induction h with
  | nil => exact .nil
  | append _ _ ihf ihr =>
    rw [List.map_append]
    exact .append ihf ihr
  | expr he => exact .expr he.reread
  | declare => exact .declare
  | ret => exact .ret
  | branch ht _ ih =>
    rw [List.map_append, List.map_append, List.map_cons]
    exact .branch ht.reread ih
  | branchElse ht _ _ ihf ihs =>
    simp only [List.map_append, List.map_cons]
    exact .branchElse ht.reread ihf ihs
  | loop ht _ ih =>
    simp only [List.map_append, List.map_cons]
    exact .loop ht.reread ih
  | leave => exact .leave

theorem Emitted.dst_ne_float (h : Emitted callable d i) (x : Float) : i.dst ≠ some (.float x) := by
  cases h <;> exact fun he => nomatch he

theorem isWord_of_isLabel {label : String} (h : IsLabel label) : Text.isWord label.toList = true := by
  obtain ⟨stem, hstem, n, rfl⟩ := h
  have word : Text.isWord stem.toList = true := by
    simp only [List.mem_cons, List.not_mem_nil, or_false] at hstem
    rcases hstem with rfl | rfl | rfl <;> decide
  rw [toList_labelName]
  refine Text.isWord_append word fun c hc => ?_
  rcases List.mem_cons.1 hc with rfl | hc
  · decide
  · exact Text.isWordPart_of_isDigit (Decimal.isDigit_of_mem_toDigits hc)

theorem legible_ofNat {k : Nat} (hk : k < 2 ^ 63) : (Operand.heap (.ofNat k)).Legible := by
  show (0 : Int64) ≤ .ofNat k
  rw [Int64.le_iff_toInt_le, toInt_ofNat hk]
  exact Int.natCast_nonneg k

theorem Emitted.shaped (h : Emitted (Text.isWord ·.toList) d i) (hd : d ≤ 2 ^ 63)
    (hf : ∀ x, i.src ≠ some (.float x)) : i.Shaped := by
  have cell {k : Nat} (hk : k < d) : (Operand.heap (.ofNat k)).Legible :=
    legible_ofNat (Nat.lt_of_lt_of_le hk hd)
  have one {P : Operand → Prop} {o : Operand} (ho : P o) : ∀ o' ∈ [o], P o' :=
    fun _ h => List.mem_singleton.1 h ▸ ho
  have two {P : Operand → Prop} {o p : Operand} (ho : P o) (hp : P p) : ∀ o' ∈ [o, p], P o' :=
    List.forall_mem_cons.2 ⟨ho, one hp⟩
  cases h with
  | constant ho =>
    cases ho with
    | int n => exact ⟨rfl, .cons rfl (.cons rfl .nil), two trivial trivial⟩
    | float x => exact absurd rfl (hf x)
    | str hq hn => exact ⟨rfl, .cons rfl (.cons rfl .nil), two ⟨hq, hn⟩ trivial⟩
  | load hk => exact ⟨rfl, .cons rfl (.cons rfl .nil), two (cell hk) trivial⟩
  | store hk => exact ⟨rfl, .cons rfl (.cons rfl .nil), two trivial (cell hk)⟩
  | push => exact ⟨rfl, .cons rfl .nil, one trivial⟩
  | pop => exact ⟨rfl, .cons rfl .nil, one trivial⟩
  | arith op => exact ⟨rfl, .cons rfl (.cons rfl .nil), two trivial trivial⟩
  | compare op => exact ⟨rfl, .cons rfl (.cons rfl .nil), two trivial trivial⟩
  | call hn => exact ⟨rfl, .cons rfl .nil, one hn⟩
  | ret => exact ⟨rfl, .nil, fun _ h => nomatch h⟩
  | jump hl => exact ⟨rfl, .cons rfl .nil, one (isWord_of_isLabel hl)⟩
  | jumpIfNot hl => exact ⟨rfl, .cons rfl (.cons rfl .nil), two trivial (isWord_of_isLabel hl)⟩
  | label hl => exact ⟨rfl, .cons rfl .nil, one (isWord_of_isLabel hl)⟩

end Compile

namespace Instruction

/-- The line of an instruction is complete, and reads as one that may have another constant. -/
structure Reloads (i : Instruction) : Prop where
  newline_notMem : '\n' ∉ i.chars
  line? : ∀ n, Loader.line? n i.chars = some ⟨n, i.reloaded n⟩

theorem Reloads.of_shaped {i : Instruction} (h : i.Shaped) (hr : ∀ o ∈ i.operands, o.ReadsBack)
    (hf : ∀ x, i.src ≠ some (.float x)) : i.Reloads where
  newline_notMem := h.newline_notMem
  line? n := by
    rw [h.read_chars hr, reloaded, unreadable?_of_src hf, reread_of_src hf]

theorem Reloads.define {name : String} (h : Text.isWord name.toList = true) :
    (Instruction.define name).Reloads := by
  refine .of_shaped ⟨rfl, .cons rfl .nil, ?_⟩ ?_ fun _ he => nomatch he
  · rintro o ho
    rw [List.mem_singleton.1 ho]
    exact h
  · rintro o ho
    rw [List.mem_singleton.1 ho]
    trivial

theorem Reloads.float (x : Float) : (Instruction.mov (.float x) acc).Reloads := by
  have lexemes : ∀ o ∈ (Instruction.mov (.float x) acc).operands, Text.Lexeme o.chars :=
    List.forall_mem_cons.2 ⟨Operand.lexeme_float x, fun o ho =>
      List.mem_singleton.1 ho ▸ .of_all (by decide) (by decide)⟩
  refine ⟨Instruction.newline_notMem (by simp [mov]) lexemes, fun n => ?_⟩
  have source (word : List Char) : Loader.Slot.read? .readable word = Loader.operand? word := rfl
  have target : Loader.Slot.read? .writable acc.chars = some acc := by decide
  rw [Instruction.line?_chars (by simp [mov]) lexemes rfl]
  simp only [reloaded, unreadable?, mov, operands, Option.toList_some, List.singleton_append,
    List.map_cons, List.map_nil, Loader.slots, Loader.operands, source,
    Loader.operand?_float, target, reread]
  cases hr : Loader.number? (Operand.float x).chars with
  | none => rfl
  | some o => simp [Operand.reread, hr, Except.map, Loader.arrange]

end Instruction

theorem Compile.Emitted.reloads {d : Nat} {i : Instruction}
    (h : Emitted (Text.isWord ·.toList) d i) (hd : d ≤ 2 ^ 63) : i.Reloads := by
  by_cases hf : ∃ x, i.src = some (.float x)
  · obtain ⟨x, hx⟩ := hf
    cases h with
    | constant ho =>
      cases Option.some.inj hx
      exact .float x
    | _ => cases hx
  · have hf : ∀ x, i.src ≠ some (.float x) := fun x hx => hf ⟨x, hx⟩
    refine .of_shaped (h.shaped hd hf) (fun o ho => ?_) hf
    cases o with
    | float x =>
      rcases List.mem_append.1 ho with ho | ho
      · exact absurd (Option.mem_toList.1 ho) (hf x)
      · exact absurd (Option.mem_toList.1 ho) (h.dst_ne_float x)
    | _ => trivial

def Instruction.Targeted (i : Instruction) : Prop :=
  i.op = .mov → ∀ o, i.dst = some o → o.isWritable = true

theorem Compile.Emitted.targeted {callable : String → Prop} {d : Nat} {i : Instruction}
    (h : Emitted callable d i) : i.Targeted := by
  intro hop
  cases h with
  | constant => rintro o ⟨⟩; rfl
  | load => rintro o ⟨⟩; rfl
  | store => rintro o ⟨⟩; rfl
  | _ => cases hop

namespace Peephole

theorem same_constant {c : Operand} {o : Option Operand} (hc : Constant c)
    (h : ∀ p, o = some p → p.isWritable = true) :
    same (some c) o = false ∧ same o (some c) = false := by
  cases o with
  | none => exact ⟨rfl, rfl⟩
  | some p =>
    have writable := h p rfl
    cases hc with
    | _ => cases p <;> first | exact absurd writable Bool.false_ne_true | exact ⟨rfl, rfl⟩

theorem same_reread {o p : Option Operand} (h : ∀ q, p = some q → q.isWritable = true) :
    same (o.map Operand.reread) p = same o p ∧ same p (o.map Operand.reread) = same p o := by
  cases o with
  | none => exact ⟨rfl, rfl⟩
  | some a =>
    cases a with
    | float x =>
      obtain ⟨before, before'⟩ := same_constant (.float x) h
      obtain ⟨after, after'⟩ := same_constant (Constant.float x).reread h
      exact ⟨after.trans before.symm, after'.trans before'.symm⟩
    | _ => exact ⟨rfl, rfl⟩

theorem isReversedMove_reread {i j : Instruction} (hi : i.Targeted) (hj : j.Targeted) :
    isReversedMove i.reread j.reread = isReversedMove i j := by
  by_cases hop : i.op = .mov ∧ j.op = .mov
  · have first := (same_reread (o := i.src) (hj hop.2)).1
    have second := (same_reread (o := j.src) (hi hop.1)).2
    simp only [isReversedMove, Instruction.reread, Option.isSome_map, first, second]
    rfl
  · have moves (i' j' : Instruction) (hi' : i'.op = i.op) (hj' : j'.op = j.op) :
        isReversedMove i' j' = false :=
      Bool.eq_false_iff.2 fun hr =>
        hop ⟨hi' ▸ (isReversedMove_op hr).1, hj' ▸ (isReversedMove_op hr).2⟩
    rw [moves i.reread j.reread rfl rfl, moves i j rfl rfl]

end Peephole

theorem thin_reread {last : Instruction} {code : List Instruction} (hl : last.Targeted)
    (hc : ∀ i ∈ code, i.Targeted) :
    thin last.reread (code.map Instruction.reread) = (thin last code).map Instruction.reread := by
  induction code generalizing last with
  | nil => rfl
  | cons i rest ih =>
    obtain ⟨hi, hrest⟩ := List.forall_mem_cons.1 hc
    rw [List.map_cons, thin, thin, isReversedMove_reread hl hi, ih hl hrest,
      ih hi hrest]
    split
    · rfl
    · rfl

def unreadable (code : List Instruction) : List String :=
  code.filterMap Instruction.unreadable?

theorem filterMap_emitted_thin {α : Type} {callable : String → Prop} {d : Nat} {g : Instruction → Option α}
    (hg : ∀ i : Instruction, i.op = .mov → (∀ x, i.src ≠ some (.float x)) → g i = none)
    {last : Instruction} {code : List Instruction} (hl : Emitted callable d last ∨ last.op ≠ .mov)
    (hc : ∀ i ∈ code, Emitted callable d i) : (thin last code).filterMap g = code.filterMap g := by
  induction code generalizing last with
  | nil => rfl
  | cons i rest ih =>
    obtain ⟨hi, hrest⟩ := List.forall_mem_cons.1 hc
    rw [thin]
    split
    · next hr =>
      have silent : g i = none := by
        refine hg i (isReversedMove_op hr).2 fun x hx => ?_
        cases hi with
        | constant ho =>
          rcases hl with hl | hl
          · exact absurd hr (by rw [hl.not_reversed_constant ho]; exact Bool.false_ne_true)
          · exact hl (isReversedMove_op hr).1
        | _ => cases hx
      rw [ih hl hrest, List.filterMap_cons_none silent]
    · rw [List.filterMap_cons, List.filterMap_cons, ih (.inl hi) hrest]

/-- Constants are never removed, whether they can be read or not. -/
theorem unreadable_thin {callable : String → Prop} {d : Nat} {last : Instruction}
    {code : List Instruction} (hl : Emitted callable d last ∨ last.op ≠ .mov)
    (hc : ∀ i ∈ code, Emitted callable d i) : unreadable (thin last code) = unreadable code :=
  filterMap_emitted_thin (fun _ _ hf => Instruction.unreadable?_of_src hf) hl hc

namespace Block

def reread (b : Block) : Block :=
  ⟨b.name, b.body.map Instruction.reread⟩

@[simp] theorem reread_name (b : Block) : b.reread.name = b.name := rfl

theorem map_reread_flatMap (blocks : List Block) :
    (blocks.flatMap code).map Instruction.reread = (blocks.map reread).flatMap code := by
  rw [List.map_flatMap, List.flatMap_map]
  rfl

theorem thinned_reread {callable : String → Prop} {d : Nat} {b : Block}
    (h : ∀ i ∈ b.body, Emitted callable d i) : b.reread.thinned = b.thinned.reread := by
  have hdefine : (Instruction.define b.name).Targeted := fun hop => nomatch hop
  have body := thin_reread hdefine fun i hi => (h i hi).targeted
  exact congrArg (Block.mk b.name) body

end Block

namespace Image

def reloaded (code : List Instruction) : List Line :=
  (code.zipIdx 1).map fun (i, n) => ⟨n, i.reloaded n⟩

theorem reloaded_of_readable {code : List Instruction} (h : unreadable code = []) :
    reloaded code = numbered (code.map Instruction.reread) := by
  rw [reloaded, numbered, List.zipIdx_map, List.map_map]
  refine List.map_congr_left fun line hm => ?_
  obtain ⟨i, n⟩ := line
  have hi : i ∈ code := List.fst_mem_of_mem_zipIdx hm
  have readable : i.unreadable? = none := by
    rw [unreadable, List.filterMap_eq_nil_iff] at h
    exact h i hi
  simp [Instruction.reloaded, readable]

theorem exists_builder {first rest : List Instruction} {image : Image}
    (h : ofInstructions (first ++ rest) = .ok image) :
    ∃ b, (numbered first).foldlM Builder.addLine .empty = .ok b := by
  obtain ⟨b, hb, -⟩ := bind_eq_ok.1 h
  rw [numbered, List.zipIdx_append, List.map_append, List.foldlM_append] at hb
  obtain ⟨b', hb', -⟩ := bind_eq_ok.1 hb
  exact ⟨b', hb'⟩

/-- The first constant that is not read as a number is what loading fails at. -/
theorem ofLines_reloaded_error {code : List Instruction} {image : Image} {text : String}
    {others : List String} (h : ofInstructions (code.map Instruction.reread) = .ok image)
    (hu : unreadable code = text :: others) :
    ∃ n, ofLines (reloaded code) = .error (.badOperand n text) := by
  obtain ⟨first, i, rest, rfl, hfirst, hi, -⟩ := List.filterMap_eq_cons_iff.1 hu
  rw [List.map_append] at h
  -- Up to the first such constant both load alike.
  obtain ⟨b, hb⟩ := exists_builder h
  have readable : unreadable first = [] := List.filterMap_eq_nil_iff.2 hfirst
  rw [← reloaded_of_readable readable] at hb
  refine ⟨1 + first.length, ?_⟩
  have lines : reloaded (first ++ i :: rest) = reloaded first ++
      ⟨1 + first.length, .error (.badOperand (1 + first.length) text)⟩ ::
        (rest.zipIdx (1 + first.length + 1)).map fun (i, n) => ⟨n, i.reloaded n⟩ := by
    rw [reloaded, List.zipIdx_append, List.map_append, List.zipIdx_cons, List.map_cons]
    simp only [Instruction.reloaded, hi]
    rfl
  rw [ofLines, lines, List.foldlM_append, hb]
  rfl

end Image

/-- The text of code loads as the code does, up to its constants. -/
theorem load_assemble_reloads {code : List Instruction} (h : ∀ i ∈ code, i.Reloads) :
    load (assemble code) = Image.ofLines (Image.reloaded code) :=
  congrArg Image.ofLines (Loader.lines_assemble (fun i hi => (h i hi).newline_notMem)
    fun i hi n => (h i hi).line? n)

end BlueCode
