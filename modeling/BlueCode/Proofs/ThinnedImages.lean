import BlueCode.Proofs.Optimization
import BlueCode.Proofs.PeepholeFixpoint
import BlueCode.Proofs.StepEffects

namespace BlueCode

open Compile Peephole

/-- Both fail in the same way, though perhaps in different lines, or their results are related. -/
def Agree {α β : Type} (R : α → β → Prop) (x : Except LoadError α) (y : Except LoadError β) : Prop :=
  Concur R (x.mapError LoadError.unplaced) (y.mapError LoadError.unplaced)

namespace Agree

variable {α β γ δ : Type} {R : α → β → Prop} {S : γ → δ → Prop} {x : Except LoadError α}
  {y : Except LoadError β}

theorem ok {a : α} {b : β} (h : R a b) : Agree R (.ok a) (.ok b) :=
  Concur.ok h

theorem error {e e' : LoadError} (h : e.unplaced = e'.unplaced) :
    Agree R (.error e) (.error e') :=
  Concur.error_iff.2 h

theorem bind {f : α → Except LoadError γ} {g : β → Except LoadError δ} (h : Agree R x y)
    (hf : ∀ a b, y = .ok b → R a b → Agree S (f a) (g b)) : Agree S (x >>= f) (y >>= g) := by
  cases x with
  | error e =>
    cases y with
    | error e' => exact .error (Concur.error_iff.1 h)
    | ok b => cases h
  | ok a =>
    cases y with
    | error e => cases h
    | ok b => exact hf a b rfl (Concur.ok_iff.1 h)

theorem exists_ok {a : α} (h : Agree R (.ok a) y) : ∃ b, y = .ok b ∧ R a b := by
  cases y with
  | error e => cases h
  | ok b => exact ⟨b, rfl, Concur.ok_iff.1 h⟩

theorem map {f : α → γ} {g : β → δ} (h : Agree R x y) (hf : ∀ a b, R a b → S (f a) (g b)) :
    Agree S (x.map f) (y.map g) :=
  h.bind fun a b _ hab => .ok (hf a b hab)

end Agree

namespace Routine

/-- The routines are the same but for their code and where their labels stand in it. -/
structure Alike (r s : Routine) : Prop where
  name : r.name = s.name
  frameSize : r.frameSize = s.frameSize
  mem_labels : ∀ label, label ∈ r.labels ↔ label ∈ s.labels

variable {r s : Routine} {i j : Instruction}

theorem Alike.refl (r : Routine) : Alike r r :=
  ⟨rfl, rfl, fun _ => Iff.rfl⟩

theorem Alike.mark (h : Alike r s) (i : Instruction) : Agree Alike (r.mark i) (s.mark i) := by
  rw [Routine.mark, Routine.mark, h.name]
  split
  · simp only [h.mem_labels i.target]
    split
    · exact .error rfl
    · refine .ok ⟨rfl, h.frameSize, fun label => ?_⟩
      simp only [Std.ExtTreeMap.mem_insert, h.mem_labels label]
  · exact .ok h

theorem Alike.reserve (h : Alike r s) (n m : Nat) (operand : Option Operand) :
    Agree Alike (r.reserve n operand) (s.reserve m operand) := by
  rw [Routine.reserve.eq_def, Routine.reserve.eq_def]
  split
  · split
    · exact .error rfl
    · exact .ok ⟨h.name, congrArg (max · _) h.frameSize, h.mem_labels⟩
  · exact .ok h

theorem Alike.add (h : Alike r s) (n m : Nat) (i : Instruction) :
    Agree Alike (r.add n i) (s.add m i) := by
  apply (h.mark i).bind
  intro r₁ s₁ _ h₁
  apply (h₁.reserve n m i.src).bind
  intro r₂ s₂ _ h₂
  apply (h₂.reserve n m i.dst).bind
  intro r₃ s₃ _ h₃
  exact .ok ⟨h₃.name, h₃.frameSize, h₃.mem_labels⟩

def Holds (r : Routine) (operand : Option Operand) : Prop :=
  ∀ address, operand = some (.heap address) →
    address ≠ Int64.maxValue ∧ (address.toInt + 1).toNat ≤ r.frameSize

theorem Holds.mono {operand : Option Operand} (hr : r.Holds operand)
    (h : r.frameSize ≤ s.frameSize) : s.Holds operand :=
  fun address ha => (hr address ha).imp_right fun hroom => Nat.le_trans hroom h

theorem Holds.of_same {o p : Option Operand} (hr : r.Holds o) (h : same o p = true) : r.Holds p :=
  fun address hp => hr address ((same_eq_some_iff (a := .heap address) (by simp) h).2 hp)

theorem holds_of_reserve {n : Nat} {operand : Option Operand} (h : r.reserve n operand = .ok s) :
    s.Holds operand ∧ r.frameSize ≤ s.frameSize := by
  unfold reserve at h
  split at h
  · next address =>
    split at h
    · cases h
    · next hne =>
      cases h
      refine ⟨?_, Nat.le_max_left _ _⟩
      rintro _ ⟨⟩
      exact ⟨hne, Nat.le_max_right _ _⟩
  · next hother =>
    cases h
    exact ⟨fun address ha => absurd ha (hother address), Nat.le_refl _⟩

theorem Holds.reserve {operand : Option Operand} (h : r.Holds operand) (n : Nat) :
    r.reserve n operand = .ok r := by
  unfold Routine.reserve
  split
  · next address =>
    obtain ⟨hne, hroom⟩ := h address rfl
    rw [if_neg hne, Nat.max_eq_left hroom]
  · rfl

theorem holds_of_add {n : Nat} (h : r.add n i = .ok s) : s.Holds i.src ∧ s.Holds i.dst := by
  obtain ⟨r₁, -, h⟩ := bind_eq_ok.1 h
  obtain ⟨r₂, hsrc, h⟩ := bind_eq_ok.1 h
  obtain ⟨r₃, hdst, h⟩ := bind_eq_ok.1 h
  cases h
  obtain ⟨hs, -⟩ := holds_of_reserve hsrc
  obtain ⟨hd, hle⟩ := holds_of_reserve hdst
  exact ⟨hs.mono hle, hd⟩

/-- A move back needs no other cells than the move before it. -/
theorem Alike.add_reversed (h : Alike r s) (hs : s.Holds j.src ∧ s.Holds j.dst)
    (hr : isReversedMove j i) (n : Nat) : ∃ r', r.add n i = .ok r' ∧ Alike r' s := by
  have hlabel : i.op ≠ .label := by
    rw [(isReversedMove_op hr).2]
    exact nofun
  simp only [isReversedMove, Bool.and_eq_true] at hr
  have hle : s.frameSize ≤ r.frameSize := Nat.le_of_eq h.frameSize.symm
  have hsrc : r.Holds i.src := (hs.2.of_same hr.2).mono hle
  have hdst : r.Holds i.dst := (hs.1.of_same hr.1.2).mono hle
  refine ⟨{ r with code := r.code.push i }, ?_, h.name, h.frameSize, h.mem_labels⟩
  rw [Routine.add, Routine.mark, if_neg hlabel]
  simp only [bind, Except.bind, hsrc.reserve, hdst.reserve]
  rfl

end Routine

namespace Image

/-- The images have the same functions, with the same labels and equally large frames. -/
def Alike (a b : Image) : Prop :=
  ∀ name, Option.Rel Routine.Alike (a.find? name) (b.find? name)

theorem Alike.mem_iff {a b : Image} (h : Alike a b) (name : String) :
    name ∈ a.routines ↔ name ∈ b.routines := by
  have hname : Option.Rel Routine.Alike a.routines[name]? b.routines[name]? := h name
  rw [← Std.ExtTreeMap.isSome_getElem?_iff_mem, ← Std.ExtTreeMap.isSome_getElem?_iff_mem]
  generalize a.routines[name]? = first, b.routines[name]? = second at hname
  cases hname <;> rfl

namespace Builder

structure Alike (b c : Builder) : Prop where
  image : b.image.Alike c.image
  current : Option.Rel Routine.Alike b.current c.current

variable {b c : Builder} {i j : Instruction}

theorem Alike.finish (h : Alike b c) : b.finish.Alike c.finish := by
  obtain ⟨image, current⟩ := b
  obtain ⟨image', current'⟩ := c
  obtain ⟨himage, hcurrent⟩ := h
  cases hcurrent with
  | none => exact himage
  | @some r s hr =>
    intro name
    simp only [Builder.finish, find?, Std.ExtTreeMap.getElem?_insert, hr.name]
    split
    · exact .some hr
    · exact himage name

theorem Alike.add (h : Alike b c) (n m : Nat) (i : Instruction) :
    Agree Alike (b.add n i) (c.add m i) := by
  rw [Builder.add, Builder.add]
  split
  · simp only [h.finish.mem_iff i.target]
    split
    · exact .error rfl
    · exact .ok ⟨h.finish, .some (.refl _)⟩
  · obtain ⟨image, current⟩ := b
    obtain ⟨image', current'⟩ := c
    obtain ⟨himage, hcurrent⟩ := h
    cases hcurrent with
    | none => exact .error rfl
    | some hr => exact (hr.add n m i).bind fun _ _ _ hr' => .ok ⟨himage, .some hr'⟩

def Holds (b : Builder) (i : Instruction) : Prop :=
  i.op = .mov → ∃ r, b.current = some r ∧ r.Holds i.src ∧ r.Holds i.dst

theorem holds_of_add {n : Nat} (h : b.add n i = .ok c) : c.Holds i := by
  intro hop
  have hdefine : i.op ≠ .define := by
    rw [hop]
    exact nofun
  rw [Builder.add, if_neg hdefine] at h
  split at h
  · obtain ⟨s, hs, h⟩ := bind_eq_ok.1 h
    cases h
    exact ⟨s, rfl, Routine.holds_of_add hs⟩
  · cases h

theorem Alike.add_reversed (h : Alike b c) (hc : c.Holds j) (hr : isReversedMove j i) (n : Nat) :
    ∃ b', b.add n i = .ok b' ∧ Alike b' c := by
  obtain ⟨hfirst, hop⟩ := isReversedMove_op hr
  have hdefine : i.op ≠ .define := by
    rw [hop]
    exact nofun
  obtain ⟨image, current⟩ := b
  obtain ⟨image', current'⟩ := c
  obtain ⟨himage, hcurrent⟩ := h
  obtain ⟨s, rfl, hs⟩ := hc hfirst
  obtain @⟨r, _, halike⟩ := hcurrent
  obtain ⟨r', hadd, halike'⟩ := halike.add_reversed hs hr n
  refine ⟨⟨image, some r'⟩, ?_, himage, .some halike'⟩
  simp only [Builder.add, if_neg hdefine, hadd]
  rfl

end Builder

/-- The second lines are the first ones, some perhaps without moves that move back what the move
before has moved. Their numbers may differ, and what follows a line that cannot be read does not
matter. -/
inductive Thinner : Instruction → List Line → List Line → Prop where
  | nil {last : Instruction} : Thinner last [] []
  | keep {last i : Instruction} {n m : Nat} {more fewer : List Line} :
      Thinner i more fewer → Thinner last (⟨n, .ok i⟩ :: more) (⟨m, .ok i⟩ :: fewer)
  | drop {last i : Instruction} {n : Nat} {more fewer : List Line} :
      isReversedMove last i → Thinner last more fewer → Thinner last (⟨n, .ok i⟩ :: more) fewer
  | stop {last : Instruction} {e e' : LoadError} {n m : Nat} {more fewer : List Line} :
      e.unplaced = e'.unplaced →
      Thinner last (⟨n, .error e⟩ :: more) (⟨m, .error e'⟩ :: fewer)

theorem Thinner.addLines {last : Instruction} {more fewer : List Line} (h : Thinner last more fewer)
    {b c : Builder} (hbc : b.Alike c) (hc : c.Holds last) :
    Agree Builder.Alike (more.foldlM Builder.addLine b) (fewer.foldlM Builder.addLine c) := by
  induction h generalizing b c with
  | nil => exact .ok hbc
  | @keep _ i n m more fewer _ ih =>
    rw [List.foldlM_cons, List.foldlM_cons]
    change Agree _ (b.add n i >>= _) (c.add m i >>= _)
    apply (hbc.add n m i).bind
    intro b' c' hc' halike
    exact ih halike (Builder.holds_of_add hc')
  | @drop _ i n more fewer hr _ ih =>
    obtain ⟨b', hb', halike⟩ := hbc.add_reversed hc hr n
    rw [List.foldlM_cons]
    change Agree _ (b.add n i >>= _) _
    rw [hb']
    exact ih halike hc
  | stop he => exact .error he

theorem Thinner.ofLines {last : Instruction} {more fewer : List Line} (h : Thinner last more fewer)
    (hl : last.op ≠ .mov) : Agree Alike (Image.ofLines more) (Image.ofLines fewer) := by
  have hstart : Builder.Alike .empty .empty := ⟨fun _ => .none, .none⟩
  apply (h.addLines hstart fun hop => absurd hop hl).bind
  intro b c _ hbc
  exact .ok hbc.finish

theorem thinner_thin (last : Instruction) (code : List Instruction) (n m : Nat) :
    Thinner last ((code.zipIdx n).map fun (i, line) => ⟨line, .ok i⟩)
      (((thin last code).zipIdx m).map fun (i, line) => ⟨line, .ok i⟩) := by
  induction code generalizing last n m with
  | nil => exact .nil
  | cons i code ih =>
    rw [thin]
    split
    · next hr => exact .drop hr (ih last (n + 1) m)
    · exact .keep (ih i (n + 1) (m + 1))

theorem agree_thin (code : List Instruction) :
    Agree Alike (ofInstructions code) (ofInstructions (thin .ret code)) :=
  (thinner_thin .ret code 1 1).ofLines (by decide)

end Image

namespace Loader

theorem agree_operands (n m : Nat) (slots : List Slot) (ws : List (List Char)) :
    Agree Eq (operands n slots ws) (operands m slots ws) := by
  induction slots generalizing ws with
  | nil => cases ws <;> exact .ok rfl
  | cons slot slots ih =>
    cases ws with
    | nil => exact .ok rfl
    | cons w ws =>
      rw [operands, operands]
      split
      · exact (ih ws).map fun _ _ h => congrArg _ h
      · exact .error rfl

/-- What a line holds does not depend on where it is. -/
theorem agree_instruction (n m : Nat) (body : List Char) :
    Agree Eq (instruction n body) (instruction m body) := by
  simp only [instruction]
  split
  · split
    · exact .ok rfl
    · exact .error rfl
  · split
    · exact .error rfl
    · next mnemonic args _ =>
      split
      · exact .error rfl
      · next op _ =>
        split
        · exact (agree_operands n m (slots op) args).map fun _ _ h => congrArg _ h
        · exact .error rfl

theorem thinner_append {n m : Nat} {more fewer : List Image.Line} (raws : List (List Char))
    (h : ∀ last, Image.Thinner last more fewer) (last : Instruction) :
    Image.Thinner last (linesFrom n raws ++ more) (linesFrom m raws ++ fewer) := by
  induction raws generalizing n m last with
  | nil => exact h last
  | cons raw raws ih =>
    rw [linesFrom_cons, linesFrom_cons]
    by_cases hempty : body raw = []
    · rw [line?, line?, if_pos hempty, if_pos hempty]
      exact ih last
    · rw [line?, line?, if_neg hempty, if_neg hempty]
      have hcontent := agree_instruction n m (body raw)
      simp only [Option.toList_some, List.cons_append, List.nil_append]
      generalize instruction n (body raw) = x, instruction m (body raw) = y at hcontent
      cases x with
      | error e =>
        cases y with
        | error e' => exact .stop (Concur.error_iff.1 hcontent)
        | ok j => cases hcontent
      | ok i =>
        cases y with
        | error e' => cases hcontent
        | ok j =>
          cases Concur.ok_iff.1 hcontent
          exact .keep (ih i)

end Loader

/-- A move between the accumulator and a cell, and the move back. -/
inductive CellPair (address : Int64) : Instruction → Instruction → Prop where
  | load : CellPair address (.mov acc (.heap address)) (.mov (.heap address) acc)
  | store : CellPair address (.mov (.heap address) acc) (.mov acc (.heap address))

namespace CellPair

variable {address : Int64} {first second : Instruction}

theorem symm (h : CellPair address first second) : CellPair address second first := by
  cases h with
  | load => exact .store
  | store => exact .load

theorem lexemes (h : CellPair address first second) :
    ∀ o ∈ first.operands, Text.Lexeme o.chars := by
  have register : Text.Lexeme acc.chars := .of_all (by decide) (by decide)
  have cell := Operand.lexeme_heap address
  cases h with
  | load => exact List.forall_mem_cons.2 ⟨register, List.forall_mem_singleton.2 cell⟩
  | store => exact List.forall_mem_cons.2 ⟨cell, List.forall_mem_singleton.2 register⟩

theorem address_eq {other : Int64} {third : Instruction} (h : CellPair address first second)
    (h' : CellPair other first third) : address = other := by
  cases h <;> cases h' <;> rfl

theorem op_eq (h : CellPair address first second) : first.op = .mov := by
  cases h <;> rfl

theorem op_ne (h : CellPair address first second) : first.op ≠ .define := by
  rw [h.op_eq]
  exact nofun

theorem lines_chars (h : CellPair address first second) :
    Text.lines first.chars = [first.chars] :=
  Text.lines_of_newline_notMem (Instruction.newline_notMem h.op_ne h.lexemes)

theorem shaped (h : CellPair address first second) (ha : 0 ≤ address) : first.Shaped := by
  cases h with
  | load =>
    exact ⟨rfl, .cons rfl (.cons rfl .nil),
      List.forall_mem_cons.2 ⟨trivial, List.forall_mem_singleton.2 ha⟩⟩
  | store =>
    exact ⟨rfl, .cons rfl (.cons rfl .nil),
      List.forall_mem_cons.2 ⟨ha, List.forall_mem_singleton.2 trivial⟩⟩

theorem readsBack (h : CellPair address first second) : ∀ o ∈ first.operands, o.ReadsBack := by
  cases h with
  | load => exact List.forall_mem_cons.2 ⟨trivial, List.forall_mem_singleton.2 trivial⟩
  | store => exact List.forall_mem_cons.2 ⟨trivial, List.forall_mem_singleton.2 trivial⟩

theorem line?_chars (h : CellPair address first second) (n : Nat) :
    Loader.line? n first.chars = some ⟨n, if 0 ≤ address then .ok first
      else .error (.badOperand n (Operand.heap address).text)⟩ := by
  by_cases ha : 0 ≤ address
  · rw [if_pos ha, (h.shaped ha).read_chars h.readsBack]
  · have cell := Loader.operand?_heap address
    have register : Loader.operand? acc.chars = some acc := by decide
    have two : first.operands.length = (Loader.slots first.op).length := by
      cases h <;> rfl
    rw [if_neg ha] at cell ⊢
    rw [Instruction.line?_chars h.op_ne h.lexemes two]
    cases h <;> simp [Instruction.mov, Instruction.operands, Loader.slots, Loader.operands,
      Loader.Slot.read?, register, cell, Except.map, Operand.text]

end CellPair

def CellPairs (code : List Instruction) : Prop :=
  ∀ i ∈ code, ∀ j ∈ code, isReversedMove i j → ∃ address, CellPair address i j

theorem CellPairs.subset {first rest : List Instruction} (h : CellPairs rest)
    (hs : first ⊆ rest) : CellPairs first :=
  fun i hi j hj => h i (hs hi) j (hs hj)

namespace Loader

theorem thinner_lines {last kept : Instruction} {code : List Instruction}
    (hc : CellPairs (kept :: code))
    (hk : ∀ address j, CellPair address kept j → last = kept ∧ 0 ≤ address) (n m : Nat) :
    Image.Thinner last (linesFrom n (code.flatMap fun i => Text.lines i.chars))
      (linesFrom m ((thin kept code).flatMap fun i => Text.lines i.chars)) := by
  induction code generalizing last kept n m with
  | nil => exact .nil
  | cons i code ih =>
    rw [thin, List.flatMap_cons]
    split
    · next hr =>
      -- The move before has been read, so that its cell can be read here as well.
      obtain ⟨address, hpair⟩ := hc kept List.mem_cons_self i (by simp) hr
      obtain ⟨rfl, hnonneg⟩ := hk address i hpair
      rw [hpair.symm.lines_chars, List.singleton_append, linesFrom_cons, hpair.symm.line?_chars,
        if_pos hnonneg]
      exact .drop hr (ih (hc.subset (by simp)) hk (n + 1) m)
    · rw [List.flatMap_cons]
      -- Such a move is one line. Others may be written as several, and what these are read as does
      -- not matter, since the next move is not removed.
      by_cases hpair : ∃ address j, CellPair address i j
      · obtain ⟨address, j, hpair⟩ := hpair
        rw [hpair.lines_chars, List.singleton_append, List.singleton_append, linesFrom_cons,
          linesFrom_cons, hpair.line?_chars, hpair.line?_chars]
        split
        · next hnonneg =>
          apply Image.Thinner.keep
          apply ih
          · exact hc.subset (List.subset_cons_self kept (i :: code))
          · intro other j' hpair'
            exact ⟨rfl, hpair.address_eq hpair' ▸ hnonneg⟩
        · exact .stop rfl
      · rw [linesFrom_append, linesFrom_append]
        apply thinner_append
        intro between
        apply ih
        · exact hc.subset (List.subset_cons_self kept (i :: code))
        · intro address j hpair'
          exact absurd ⟨address, j, hpair'⟩ hpair

end Loader

/-- The texts of code and of thinned code load alike, if variables only are moved back. -/
theorem agree_load {code : List Instruction} (hc : CellPairs code) :
    Agree Image.Alike (load (assemble code)) (load (assemble (thin .ret code))) := by
  rw [load, load, Loader.lines_assemble_eq, Loader.lines_assemble_eq]
  have hop : Instruction.ret.op ≠ .mov := by decide
  have hret : CellPairs (.ret :: code) := by
    intro i hi j hj hr
    obtain ⟨hfirst, hsecond⟩ := isReversedMove_op hr
    rcases List.mem_cons.1 hi with rfl | hi
    · exact absurd hfirst hop
    · rcases List.mem_cons.1 hj with rfl | hj
      · exact absurd hsecond hop
      · exact hc i hi j hj hr
  have hlines := @Loader.thinner_lines .ret .ret code hret
    (fun _ _ hpair => absurd hpair.op_eq hop) 1 1
  exact hlines.ofLines hop

end BlueCode
