import BlueCode.Proofs.LineText

namespace BlueCode

namespace Operand

/-- The shortest digits of a floating-point number stand for it; nothing is said of other operands. -/
def ReadsBack : Operand → Prop
  | float x => Decimal.readFloat? (Decimal.Layout.literal.chars x) = some x
  | _ => True

instance : DecidablePred ReadsBack
  | float x => inferInstanceAs
    (Decidable (Decimal.readFloat? (Decimal.Layout.literal.chars x) = some x))
  | reg _ | stackPointer | stackTop | heap _ | int _ | str _ | name _ => isTrue trivial

end Operand

namespace Loader

def Slot.accepts : Slot → Operand → Bool
  | .name, .name _ => true
  | .name, _ => false
  | _, .name _ => false
  | .readable, _ => true
  | .writable, o => o.isWritable

theorem Slot.read?_chars {slot : Slot} {o : Operand} (h : slot.accepts o = true) (hl : o.Legible)
    (hr : o.ReadsBack) : slot.read? o.chars = some o := by
  have operand (hname : ∀ s, o ≠ .name s) : operand? o.chars = some o :=
    operand?_chars hl hname fun x hx => by
      subst hx
      exact hr
  cases slot with
  | name =>
    cases o with
    | name s =>
      rw [read?, if_pos (show Text.isWord (Operand.name s).chars = true from hl)]
      exact congrArg (some ∘ Operand.name) (String.ofList_toList)
    | _ => exact absurd h Bool.false_ne_true
  | readable =>
    apply operand
    rintro s rfl
    exact absurd h Bool.false_ne_true
  | writable =>
    have hname : ∀ s, o ≠ .name s := by
      rintro s rfl
      exact absurd h Bool.false_ne_true
    have writable : o.isWritable = true := by
      cases o with
      | name s => exact absurd rfl (hname s)
      | _ => exact h
    rw [read?, operand hname, Option.filter_some, if_pos writable]

theorem operands_chars {slots : List Slot} {os : List Operand}
    (h : List.Forall₂ (fun slot o => slot.accepts o = true) slots os)
    (hl : ∀ o ∈ os, o.Legible) (hr : ∀ o ∈ os, o.ReadsBack) (n : Nat) :
    operands n slots (os.map Operand.chars) = .ok os := by
  induction h with
  | nil => rfl
  | @cons slot o slots os haccepts _ ih =>
    have first : slot.read? o.chars = some o :=
      Slot.read?_chars haccepts (hl o List.mem_cons_self) (hr o List.mem_cons_self)
    rw [List.map_cons, operands, first,
      ih (fun p hp => hl p (List.mem_cons_of_mem o hp)) fun p hp => hr p (List.mem_cons_of_mem o hp)]
    rfl

end Loader

namespace Instruction

/-- The form that the loader gives to instructions. -/
structure Shaped (i : Instruction) : Prop where
  /-- A single operand is the source, except that of `pop`. -/
  arranged : Loader.arrange i.op i.operands = i
  accepted : List.Forall₂ (fun slot o => Loader.Slot.accepts slot o = true) (Loader.slots i.op)
    i.operands
  legible : ∀ o ∈ i.operands, o.Legible

theorem shaped_iff {i : Instruction} : i.Shaped ↔ Loader.arrange i.op i.operands = i ∧
    List.Forall₂ (fun slot o => Loader.Slot.accepts slot o = true) (Loader.slots i.op) i.operands ∧
    ∀ o ∈ i.operands, o.Legible :=
  ⟨fun h => ⟨h.arranged, h.accepted, h.legible⟩, fun ⟨arranged, accepted, legible⟩ =>
    ⟨arranged, accepted, legible⟩⟩

instance : DecidablePred Shaped :=
  fun _ => decidable_of_iff _ shaped_iff.symm

namespace Shaped

variable {i : Instruction}

theorem define_eq (h : i.Shaped) (hop : i.op = .define) :
    ∃ s, Text.isWord s.toList = true ∧ i = .define s := by
  have accepted := h.accepted
  simp only [hop, Loader.slots] at accepted
  cases hos : i.operands with
  | nil =>
    rw [hos] at accepted
    cases accepted
  | cons o os =>
    rw [hos] at accepted
    obtain ⟨ho, hnil⟩ := List.forall₂_cons.1 accepted
    cases List.forall₂_nil_left_iff.1 hnil
    cases o with
    | name s =>
      refine ⟨s, h.legible (.name s) (by simp [hos]), ?_⟩
      rw [← h.arranged, hos, hop]
      rfl
    | _ => exact absurd ho Bool.false_ne_true

theorem newline_notMem (h : i.Shaped) : '\n' ∉ i.chars := by
  by_cases hop : i.op = .define
  · obtain ⟨s, hs, rfl⟩ := h.define_eq hop
    exact define_newline_notMem hs
  · exact Instruction.newline_notMem hop fun o ho => (h.legible o ho).lexeme

/-- The line of an instruction is read as the instruction. -/
theorem read_chars (h : i.Shaped) (hr : ∀ o ∈ i.operands, o.ReadsBack) (n : Nat) :
    Loader.line? n i.chars = some ⟨n, .ok i⟩ := by
  by_cases hop : i.op = .define
  · obtain ⟨s, hs, rfl⟩ := h.define_eq hop
    rw [chars_define rfl]
    have name : (define s).target.toList = s.toList := rfl
    rw [name, Loader.line?_define hs, String.ofList_toList]
  · rw [line?_chars hop (fun o ho => (h.legible o ho).lexeme) h.accepted.length_eq.symm,
      Loader.operands_chars h.accepted h.legible hr]
    exact congrArg (fun j => some (Image.Line.mk n (.ok j))) h.arranged

end Shaped

end Instruction

def Instruction.assorted : List Instruction :=
  [.define "mov",
    .mov (.str "a; b  c") (.reg .ra), .mov (.str "") (.heap 2), .mov (.float (-2.5e-7)) (.reg .rb),
    ⟨.arith .mul, some (.float 1e21), some (.reg .rb)⟩, .push (.int (-9223372036854775808)),
    ⟨.compare .le, some .stackPointer, some .stackTop⟩, .label "ra", .jumpIfNot (.heap 0) "ra",
    .pop .stackTop, .call "ret", .jump "rsp", .ret,
    .define "_ret", .mov (.float (-0.0)) (.heap 7), .ret]

/-- The text of code and the code itself describe the same image, or fail for the same reason in the
same line. -/
theorem load_assemble {code : List Instruction} (h : ∀ i ∈ code, i.Shaped)
    (hr : ∀ i ∈ code, ∀ o ∈ i.operands, o.ReadsBack) :
    load (assemble code) = Image.ofInstructions code := by
  have lines : Loader.lines (assemble code) = Image.numbered code :=
    Loader.lines_assemble (fun i hi => (h i hi).newline_notMem)
      fun i hi n => (h i hi).read_chars (hr i hi) n
  rw [load, lines, Image.ofInstructions]

theorem load_assemble_assorted :
    (∀ i ∈ Instruction.assorted, i.Shaped) ∧
      (∀ i ∈ Instruction.assorted, ∀ o ∈ i.operands, o.ReadsBack) ∧
      load (assemble Instruction.assorted) = Image.ofInstructions Instruction.assorted := by
  have shaped : ∀ i ∈ Instruction.assorted, i.Shaped := by
    decide +kernel
  have readsBack : ∀ i ∈ Instruction.assorted, ∀ o ∈ i.operands, o.ReadsBack := by
    decide +kernel
  exact ⟨shaped, readsBack, load_assemble shaped readsBack⟩

end BlueCode
