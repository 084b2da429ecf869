import BlueCode.Proofs.CallMachine
import BlueCode.Proofs.LoadedCode

namespace BlueCode

open Peephole

/-- The operations between stretches of straight-line code: they mark a place or may continue
elsewhere. -/
def Opcode.isBoundary : Opcode → Bool
  | define | call | ret | jump | jumpIfNot | label => true
  | mov | push | pop | arith _ | compare _ => false

namespace Peephole

/-- The stretches that the pass shortens, the instruction that it leaves of each, and what has to
come after. -/
inductive Shortens (after : List Instruction) : List Instruction → Instruction → Prop where
  | unmove {first second : Instruction} : isReversedMove first second = true →
      Shortens after [first, second] first
  | fuse {push pop add fused : Instruction} :
      fuse? (push :: pop :: add :: after) = some fused → Shortens after [push, pop, add] fused

inductive Rewrite : List Instruction → List Instruction → Prop where
  | mk (before : List Instruction) {window after : List Instruction} {i : Instruction} :
      Shortens after window i → Rewrite (before ++ window ++ after) (before ++ i :: after)

/-- How the pass goes on after a rewrite: it looks again at the instruction before. -/
def resume : List Instruction → List Instruction → List Instruction
  | [], code => Peephole.run [] code
  | last :: earlier, code => Peephole.run earlier (last :: code)

/-- The pass rewrites the code that it has been through and the code that is left. -/
theorem rewrites_run (before code : List Instruction) :
    Relation.ReflTransGen Rewrite (before.reverse ++ code) (Peephole.run before code) := by
  -- To step over an instruction takes it from `code` to `before`, so the code counts twice.
  induction hn : before.length + 2 * code.length using Nat.strong_induction_on
    generalizing before code with
  | _ n ih =>
    match code, hn with
    | [], _ =>
      have hrun : Peephole.run before [] = before.reverse ++ [] := by simp [Peephole.run]
      rw [hrun]
    | [i], _ =>
      have hrun : Peephole.run before [i] = before.reverse ++ [i] := by simp [Peephole.run]
      rw [hrun]
    | first :: second :: rest, hn =>
      simp only [List.length_cons] at hn
      have hresume (next : List Instruction) (h : next.length < rest.length + 2) :
          Relation.ReflTransGen Rewrite (before.reverse ++ next) (resume before next) := by
        cases before with
        | nil => exact ih _ (by simp only [List.length_nil] at *; omega) [] next rfl
        | cons last earlier =>
          simp only [List.reverse_cons, List.append_assoc, List.singleton_append]
          simp only [List.length_cons] at hn
          exact ih _ (by simp only [List.length_cons]; omega) earlier (last :: next) rfl
      rw [Peephole.run]
      split
      · next hr =>
        have rewrite : Rewrite (before.reverse ++ first :: second :: rest)
            (before.reverse ++ first :: rest) := by
          simpa using Rewrite.mk before.reverse (@Shortens.unmove rest _ _ hr)
        refine .head rewrite ?_
        have hnext := hresume (first :: rest) (by simp)
        cases before <;> exact hnext
      · split
        · next fused hf =>
          cases rest with
          | nil => cases hf
          | cons third after =>
            have rewrite : Rewrite (before.reverse ++ first :: second :: third :: after)
                (before.reverse ++ fused :: after) := by
              simpa using Rewrite.mk before.reverse (.fuse hf)
            refine .head rewrite ?_
            have hnext := hresume (fused :: after) (by simp only [List.length_cons]; omega)
            cases before <;> exact hnext
        · have next := ih _ (by simp only [List.length_cons]; omega) (first :: before)
            (second :: rest) rfl
          simpa using next

theorem rewrites_optimize (code : List Instruction) :
    Relation.ReflTransGen Rewrite code (optimize code) :=
  rewrites_run [] code

/-- No straight-line code goes on into this code: it is empty, or such an operation comes first. -/
def BeginsBlock (code : List Instruction) : Prop :=
  ∀ i ∈ code.head?, i.op.isBoundary = true

theorem isDead_append {r : Register} {rest : List Instruction} (h : BeginsBlock rest)
    (code : List Instruction) : isDead r (code ++ rest) = isDead r code := by
  induction code with
  | nil =>
    cases rest with
    | nil => rfl
    | cons i rest =>
      have hi := h i rfl
      simp only [List.nil_append, isDead]
      cases hop : i.op <;> simp_all [Opcode.isBoundary]
  | cons i code ih => simp only [List.cons_append, isDead, ih]

namespace Shortens

variable {after window rest : List Instruction} {i j : Instruction}

theorem of_append (h : Shortens (after ++ rest) window i) (hr : BeginsBlock rest) :
    Shortens after window i := by
  cases h with
  | unmove h => exact .unmove h
  | fuse h =>
    refine .fuse ?_
    rw [← h]
    simp only [fuse?, isDead_append hr]

theorem op_mem (h : Shortens after window i) (hj : j ∈ window) :
    j.op = .mov ∨ j.op = .push ∨ j.op = .pop ∨ j.op = .arith .add := by
  cases h with
  | unmove h =>
    obtain ⟨hf, hs⟩ := isReversedMove_op h
    simp only [List.mem_cons, List.not_mem_nil, or_false] at hj
    rcases hj with rfl | rfl
    · exact .inl hf
    · exact .inl hs
  | fuse h =>
    simp only [fuse?] at h
    split at h
    · split at h
      · next hc =>
        simp only [List.mem_cons, List.not_mem_nil, or_false] at hj
        rcases hj with rfl | rfl | rfl
        · exact .inr (.inl hc.1)
        · exact .inr (.inr (.inl hc.2.1))
        · exact .inr (.inr (.inr hc.2.2.1))
      · cases h
    · cases h

theorem ne_nil (h : Shortens after window i) : window ≠ [] := by
  cases h <;> exact List.cons_ne_nil _ _

end Shortens

end Peephole

/-- A function in which one instruction stands instead of a stretch of the code. -/
structure Edit where
  name : String
  before : List Instruction
  window : List Instruction
  instead : Instruction
  after : List Instruction

namespace Edit

def old (e : Edit) : Block :=
  ⟨e.name, e.before ++ e.window ++ e.after⟩

def new (e : Edit) : Block :=
  ⟨e.name, e.before ++ e.instead :: e.after⟩

end Edit

theorem Block.op_of_head? {blocks : List Block} {i : Instruction}
    (hi : i ∈ (blocks.flatMap Block.code).head?) : i.op = .define := by
  cases blocks with
  | nil => exact nomatch hi
  | cons b blocks =>
    cases hi
    rfl

/-- A stretch of code without markers that begins before other functions ends before them. -/
theorem Block.exists_inner {blocks : List Block} {code window after : List Instruction}
    (hw : ∀ i ∈ window, i.op ≠ .define)
    (h : window ++ after = code ++ blocks.flatMap Block.code) :
    ∃ inner, code = window ++ inner ∧ after = inner ++ blocks.flatMap Block.code := by
  rcases List.append_eq_append_iff.1 h with ⟨inner, hcode, hafter⟩ | ⟨inner, hwindow, hrest⟩
  · exact ⟨inner, hcode, hafter⟩
  · cases inner with
    | nil => exact ⟨[], by simpa using hwindow.symm, hrest.symm⟩
    | cons i inner =>
      have hmarker : i.op = .define := op_of_head? (by rw [hrest]; rfl)
      refine absurd hmarker (hw i ?_)
      rw [hwindow]
      exact List.mem_append_right _ List.mem_cons_self

/-- A rewrite is made within one function. -/
theorem Peephole.Rewrite.exists_edit {blocks : List Block} {code : List Instruction}
    (h : Rewrite (blocks.flatMap Block.code) code) :
    ∃ (e : Edit) (first last : List Block), Shortens e.after e.window e.instead ∧
      blocks = first ++ e.old :: last ∧ code = (first ++ e.new :: last).flatMap Block.code := by
  generalize hall : blocks.flatMap Block.code = all at h
  obtain ⟨before, hs⟩ := h
  rename_i window after i
  have hwindow : ∀ j ∈ window, j.op ≠ .define := by
    intro j hj
    rcases hs.op_mem hj with h | h | h | h <;> rw [h] <;> exact nofun
  induction blocks generalizing before with
  | nil =>
    have hnil : window = [] := by
      rw [List.flatMap_nil, eq_comm, List.append_eq_nil_iff, List.append_eq_nil_iff] at hall
      exact hall.1.2
    exact absurd hnil hs.ne_nil
  | cons b blocks ih =>
    rw [List.flatMap_cons, Block.code, List.cons_append, List.append_assoc] at hall
    cases before with
    | nil =>
      -- A marker does not begin a stretch.
      obtain ⟨j, rest, rfl⟩ := List.exists_cons_of_ne_nil hs.ne_nil
      have hmarker : Instruction.define b.name = j := (List.cons.inj hall).1
      exact absurd (congrArg Instruction.op hmarker).symm (hwindow j List.mem_cons_self)
    | cons marker before =>
      simp only [List.cons_append, List.cons.injEq] at hall
      obtain ⟨rfl, hall⟩ := hall
      rcases List.append_eq_append_iff.1 hall with ⟨more, rfl, hmore⟩ | ⟨more, hb, hmore⟩
      · -- The stretch lies in a later function.
        rw [← List.append_assoc] at hmore
        obtain ⟨e, first, last, he, hblocks, hcode⟩ := ih more hmore
        refine ⟨e, b :: first, last, he, by rw [hblocks, List.cons_append], ?_⟩
        rw [List.cons_append, List.cons_append, List.flatMap_cons, ← hcode, List.append_assoc]
        rfl
      · -- The stretch lies in this function.
        obtain ⟨inner, rfl, rfl⟩ := Block.exists_inner hwindow hmore
        have hblock : BeginsBlock (blocks.flatMap Block.code) := by
          intro j hj
          rw [Block.op_of_head? hj]
          rfl
        refine ⟨⟨b.name, before, window, i, inner⟩, [], blocks, hs.of_append hblock, ?_, ?_⟩
        · simp only [List.nil_append, Edit.old, List.append_assoc, ← hb]
        · simp only [List.nil_append, List.flatMap_cons, Edit.new, Block.code, List.cons_append,
            List.append_assoc]

theorem Peephole.Shortens.cases {after window : List Instruction} {i : Instruction}
    (h : Shortens after window i) (hw : ∀ j ∈ window, j.Formed) :
    (∃ a b, a.isWritable = true ∧ b.isWritable = true ∧ window = [.mov a b, .mov b a] ∧
      i = .mov a b) ∨
    ∃ x r d, window = [.push x, .pop (.reg r), ⟨.arith .add, some (.reg r), some d⟩] ∧
      i = ⟨.arith .add, some x, some d⟩ ∧ d ≠ .reg r ∧ isDead r after = true := by
  cases h with
  | @unmove _ second h =>
    obtain ⟨a, b, ha, hb, rfl, rfl⟩ :=
      isReversedMove_eq (hw _ (by simp)) (hw second (by simp)) h
    exact .inl ⟨a, b, ha, hb, rfl, rfl⟩
  | @fuse push pop add fused h =>
    obtain ⟨x, r, d, rfl, rfl, rfl, rfl, -, hd, -, hdead⟩ :=
      fuse?_eq (hw push (by simp)) (hw pop (by simp)) (hw add (by simp)) h
    exact .inr ⟨x, r, d, rfl, rfl, hd, hdead⟩

theorem Instruction.Formed.fused {x d : Operand} {r : Register} (hpush : (push x).Formed)
    (hadd : (⟨.arith .add, some (.reg r), some d⟩ : Instruction).Formed) :
    (⟨.arith .add, some x, some d⟩ : Instruction).Formed where
  arranged := rfl
  accepted := by
    have hx : List.Forall₂ (fun slot o => Loader.Slot.accepts slot o = true)
      [Loader.Slot.readable] [x] := hpush.accepted
    have hd : List.Forall₂ (fun slot o => Loader.Slot.accepts slot o = true)
      [Loader.Slot.readable, Loader.Slot.writable] [.reg r, d] := hadd.accepted
    exact .cons (List.forall₂_cons.1 hx).1 (List.forall₂_cons.1 hd).2

namespace Edit

/-- Where an instruction outside the stretch goes, and the first one of the stretch. -/
def place (e : Edit) (k : Nat) : Nat :=
  if k ≤ e.before.length then k else k + 1 - e.window.length

def Apart (e : Edit) (k : Nat) : Prop :=
  k < e.before.length ∨ e.before.length + e.window.length ≤ k

/-- The pass may make the edit in code of the loader's form without the stack pointer. -/
structure Sound (e : Edit) : Prop where
  shortens : Shortens e.after e.window e.instead
  plain : ∀ i ∈ e.old.body, i.Plain
  loadable : Routine.Loadable e.old.body

variable {e : Edit} {k : Nat}

theorem place_of_le (h : k ≤ e.before.length) : e.place k = k :=
  if_pos h

theorem apart_of_ne (ho : k ≤ e.before.length ∨ e.before.length + e.window.length ≤ k)
    (h : k ≠ e.before.length) : e.Apart k :=
  ho.imp (fun hle => Nat.lt_of_le_of_ne hle h) id

namespace Sound

theorem plain_of_window (h : e.Sound) {j : Instruction} (hj : j ∈ e.window) : j.Plain :=
  h.plain j (List.mem_append_left _ (List.mem_append_right _ hj))

theorem window_pos (h : e.Sound) : 0 < e.window.length :=
  List.length_pos_iff.2 h.shortens.ne_nil

theorem cases (h : e.Sound) :
    (∃ a b, a.isWritable = true ∧ b.isWritable = true ∧ e.window = [.mov a b, .mov b a] ∧
      e.instead = .mov a b) ∨
    ∃ x r d, e.window = [.push x, .pop (.reg r), ⟨.arith .add, some (.reg r), some d⟩] ∧
      e.instead = ⟨.arith .add, some x, some d⟩ ∧ d ≠ .reg r ∧ isDead r e.after = true :=
  h.shortens.cases fun _ hj => (h.plain_of_window hj).formed

theorem place_end (h : e.Sound) : e.place (e.before.length + e.window.length) =
    e.before.length + 1 := by
  have hpos := h.window_pos
  rw [place, if_neg (by omega)]
  omega

theorem place_succ (h : e.Sound) (ha : e.Apart k) : e.place (k + 1) = e.place k + 1 := by
  have hpos := h.window_pos
  unfold place
  rcases ha with ha | ha
  · rw [if_pos (Nat.succ_le_of_lt ha), if_pos (Nat.le_of_lt ha)]
  · rw [if_neg (by omega), if_neg (by omega)]
    omega

theorem apart_of_op (h : e.Sound) {i : Instruction} (hi : e.old.body[k]? = some i)
    (hop : i.op ≠ .mov ∧ i.op ≠ .push ∧ i.op ≠ .pop ∧ i.op ≠ .arith .add) : e.Apart k := by
  by_contra hk
  simp only [Apart, not_or, Nat.not_lt, Nat.not_le] at hk
  have hmem : i ∈ e.window := by
    rw [old, List.append_assoc, List.getElem?_append_right hk.1,
      List.getElem?_append_left (by omega)] at hi
    exact List.mem_of_getElem? hi
  rcases h.shortens.op_mem hmem with h | h | h | h
  · exact hop.1 h
  · exact hop.2.1 h
  · exact hop.2.2.1 h
  · exact hop.2.2.2 h

theorem getElem?_place (h : e.Sound) (ha : e.Apart k) :
    e.new.body[e.place k]? = e.old.body[k]? := by
  have hpos := h.window_pos
  rcases ha with ha | ha
  · rw [place_of_le (Nat.le_of_lt ha), new, old, List.append_assoc,
      List.getElem?_append_left ha, List.getElem?_append_left ha]
  · have hplace : e.place k = k + 1 - e.window.length := if_neg (by omega)
    have hlen : (e.before ++ e.window).length ≤ k := by
      rw [List.length_append]
      exact ha
    rw [hplace, new, old, List.getElem?_append_right hlen,
      List.getElem?_append_right (by omega), List.length_append]
    obtain ⟨m, hm⟩ : ∃ m, k + 1 - e.window.length - e.before.length = m + 1 :=
      ⟨k - (e.before.length + e.window.length), by omega⟩
    rw [hm, List.getElem?_cons_succ]
    congr 1
    omega

theorem instead_plain (h : e.Sound) : e.instead.Plain := by
  have hp {j : Instruction} (hj : j ∈ e.window) : j.Plain := h.plain_of_window hj
  rcases h.cases with ⟨a, b, -, -, hw, hi⟩ | ⟨x, r, d, hw, hi, -, -⟩
  · rw [hi]
    exact hp (by simp [hw])
  · have hpush : (Instruction.push x).Plain := hp (by simp [hw])
    have hadd : (⟨.arith .add, some (.reg r), some d⟩ : Instruction).Plain := hp (by simp [hw])
    rw [hi]
    exact ⟨hpush.formed.fused hadd.formed, hpush.src, hadd.dst⟩

theorem forall_new {P : Instruction → Prop}
    (hi : (∀ j ∈ e.window, P j) → P e.instead) (hold : ∀ i ∈ e.old.body, P i) :
    ∀ i ∈ e.new.body, P i := by
  simp only [old, List.forall_mem_append] at hold
  simp only [new, List.forall_mem_append, List.forall_mem_cons]
  exact ⟨hold.1.1, hi hold.1.2, hold.2⟩

theorem new_plain (h : e.Sound) : ∀ i ∈ e.new.body, i.Plain :=
  forall_new (fun _ => h.instead_plain) h.plain

theorem instead_op (h : e.Sound) : e.instead.op = .mov ∨ e.instead.op = .arith .add := by
  rcases h.cases with ⟨a, b, -, -, -, hi⟩ | ⟨x, r, d, -, hi, -, -⟩
  · exact .inl (by rw [hi]; rfl)
  · exact .inr (by rw [hi])

theorem labelNames_new (h : e.Sound) : labelNames e.new.body = labelNames e.old.body := by
  have hwindow : labelNames e.window = [] := by
    refine List.filterMap_eq_nil_iff.2 fun j hj => if_neg ?_
    rcases h.shortens.op_mem hj with hop | hop | hop | hop <;> rw [hop] <;> exact nofun
  have hinstead : e.instead.label? = none := by
    refine if_neg ?_
    rcases h.instead_op with hop | hop <;> rw [hop] <;> exact nofun
  simp only [new, old, Compile.labelNames_append, hwindow, List.append_nil]
  rw [labelNames, labelNames, List.filterMap_cons_none hinstead]
  rfl

theorem new_loadable (h : e.Sound) : Routine.Loadable e.new.body where
  markerless := by
    refine forall_new (fun _ => ?_) h.loadable.markerless
    rcases h.instead_op with hop | hop <;> rw [hop] <;> exact nofun
  labels := by
    rw [h.labelNames_new]
    exact h.loadable.labels
  addresses := by
    refine forall_new (fun hw => ?_) h.loadable.addresses
    rcases h.cases with ⟨a, b, -, -, hwin, hi⟩ | ⟨x, r, d, hwin, hi, -, -⟩
    · rw [hi]
      exact hw _ (by simp [hwin])
    · rw [hi]
      exact ⟨(hw (.push x) (by simp [hwin])).1,
        (hw ⟨.arith .add, some (.reg r), some d⟩ (by simp [hwin])).2⟩

theorem frameSize_eq (h : e.Sound) : e.new.routine.frameSize = e.old.routine.frameSize := by
  -- The sizes are compared by what they are enough for, so no maximum has to be taken apart.
  have hiff (n : Nat) : (∀ i ∈ e.new.body, Instruction.room i.src ≤ n ∧ Instruction.room i.dst ≤ n) ↔
      ∀ i ∈ e.old.body, Instruction.room i.src ≤ n ∧ Instruction.room i.dst ≤ n := by
    simp only [new, old, List.forall_mem_append, List.forall_mem_cons, and_assoc]
    refine and_congr_right fun _ => ?_
    rw [← and_assoc]
    refine and_congr_left fun _ => ?_
    rcases h.cases with ⟨a, b, -, -, hw, hi⟩ | ⟨x, r, d, hw, hi, -, -⟩ <;> rw [hw, hi]
    · simp [Instruction.mov, and_comm]
    · simp [Instruction.push, Instruction.pop, Instruction.room]
  have hle (n : Nat) : e.new.routine.frameSize ≤ n ↔ e.old.routine.frameSize ≤ n := by
    rw [Block.routine, Block.routine, Routine.ofBody_frameSize_le_iff,
      Routine.ofBody_frameSize_le_iff, hiff]
  exact Nat.le_antisymm ((hle _).2 (Nat.le_refl _)) ((hle _).1 (Nat.le_refl _))

theorem apart_of_label (h : e.Sound) {label : String}
    (hl : e.old.routine.labels[label]? = some k) : e.Apart k := by
  obtain ⟨i, hi, hlabel⟩ :=
    Option.bind_eq_some_iff.1 ((Routine.ofBody_labels_getElem? h.loadable.labels label k).1 hl)
  refine h.apart_of_op hi ?_
  unfold Instruction.label? at hlabel
  split at hlabel
  · next hop =>
    rw [hop]
    exact ⟨nofun, nofun, nofun, nofun⟩
  · cases hlabel

theorem labels_new (h : e.Sound) (label : String) :
    e.new.routine.labels[label]? = e.old.routine.labels[label]?.map e.place := by
  cases hl : e.old.routine.labels[label]? with
  | some k =>
    have hi := (Routine.ofBody_labels_getElem? h.loadable.labels label k).1 hl
    refine (Routine.ofBody_labels_getElem? h.new_loadable.labels label _).2 ?_
    rw [h.getElem?_place (h.apart_of_label hl)]
    exact hi
  | none =>
    have hnot : label ∉ e.old.routine.labels := by
      rw [← Std.ExtTreeMap.isSome_getElem?_iff_mem, hl]
      exact nofun
    refine Std.ExtTreeMap.getElem?_eq_none fun hmem => hnot ?_
    refine (Routine.mem_ofBody_labels ..).2 ?_
    rw [← h.labelNames_new]
    exact (Routine.mem_ofBody_labels ..).1 hmem

end Sound

end Edit

end BlueCode
