import Mathlib
import BlueCode.Image

namespace BlueCode

namespace Instruction

def label? (i : Instruction) : Option String :=
  if i.op = .label then some i.target else none

/-- The least frame that has the cell of an operand. -/
def room : Option Operand → Nat
  | some (.heap address) => (address.toInt + 1).toNat
  | _ => 0

end Instruction

def labelNames (code : List Instruction) : List String :=
  code.filterMap Instruction.label?

namespace Routine

def extend (r : Routine) (i : Instruction) : Routine where
  name := r.name
  code := r.code.push i
  labels := if i.op = .label then r.labels.insert i.target r.code.size else r.labels
  frameSize := max (max r.frameSize (Instruction.room i.src)) (Instruction.room i.dst)

def ofBody (name : String) (body : List Instruction) : Routine :=
  body.foldl extend (.empty name)

@[simp] theorem ofBody_nil (name : String) : ofBody name [] = .empty name := rfl

@[simp] theorem ofBody_concat (name : String) (body : List Instruction) (i : Instruction) :
    ofBody name (body ++ [i]) = (ofBody name body).extend i := by
  simp only [ofBody, List.foldl_append, List.foldl_cons, List.foldl_nil]

@[simp] theorem ofBody_name (name : String) (body : List Instruction) :
    (ofBody name body).name = name := by
  induction body using List.reverseRecOn with
  | nil => rfl
  | append_singleton body i ih => rw [ofBody_concat, extend, ih]

@[simp] theorem ofBody_code (name : String) (body : List Instruction) :
    (ofBody name body).code = body.toArray := by
  induction body using List.reverseRecOn with
  | nil => rfl
  | append_singleton body i ih => rw [ofBody_concat, extend, ih, List.push_toArray]

theorem ofBody_frameSize_le_iff (name : String) (body : List Instruction) (n : Nat) :
    (ofBody name body).frameSize ≤ n ↔
      ∀ i ∈ body, Instruction.room i.src ≤ n ∧ Instruction.room i.dst ≤ n := by
  induction body using List.reverseRecOn with
  | nil => simp [empty]
  | append_singleton body i ih =>
    rw [ofBody_concat, extend]
    simp only [Nat.max_le, ih, List.mem_append, List.mem_singleton, or_imp, forall_and,
      forall_eq]
    tauto

theorem room_le_frameSize {name : String} {body : List Instruction} {i : Instruction}
    (h : i ∈ body) :
    Instruction.room i.src ≤ (ofBody name body).frameSize ∧
      Instruction.room i.dst ≤ (ofBody name body).frameSize :=
  (ofBody_frameSize_le_iff name body _).1 (Nat.le_refl _) i h

theorem mem_ofBody_labels (name : String) (body : List Instruction) (label : String) :
    label ∈ (ofBody name body).labels ↔ label ∈ labelNames body := by
  induction body using List.reverseRecOn with
  | nil => simp [empty, labelNames]
  | append_singleton body i ih =>
    rw [ofBody_concat, extend]
    by_cases hi : i.op = .label
    · have hlast : i.label? = some i.target := if_pos hi
      simp only [hi, if_true, Std.ExtTreeMap.mem_insert, Std.compare_eq_iff_eq, ih, labelNames,
        List.filterMap_append, List.filterMap_cons_some hlast, List.filterMap_nil,
        List.mem_append, List.mem_singleton]
      rw [or_comm, eq_comm (a := label)]
    · have hlast : i.label? = none := if_neg hi
      simp only [hi, if_false, ih, labelNames, List.filterMap_append,
        List.filterMap_cons_none hlast, List.filterMap_nil, List.append_nil]

theorem getElem?_concat_label? (body : List Instruction) (i : Instruction) (k : Nat)
    (label : String) :
    (body ++ [i])[k]?.bind Instruction.label? = some label ↔
      body[k]?.bind Instruction.label? = some label ∨
        k = body.length ∧ i.label? = some label := by
  rcases Nat.lt_trichotomy k body.length with hk | rfl | hk
  · rw [List.getElem?_append_left hk]
    simp [Nat.ne_of_lt hk]
  · simp
  · have hlen : (body ++ [i]).length ≤ k := by
      rw [List.length_append]
      exact hk
    rw [List.getElem?_eq_none hlen, List.getElem?_eq_none (Nat.le_of_lt hk)]
    simp [Nat.ne_of_gt hk]

theorem mem_labelNames_of_getElem? {body : List Instruction} {k : Nat} {label : String}
    (h : body[k]?.bind Instruction.label? = some label) : label ∈ labelNames body := by
  obtain ⟨i, hi, hl⟩ := Option.bind_eq_some_iff.1 h
  exact List.mem_filterMap.2 ⟨i, List.mem_of_getElem? hi, hl⟩

theorem ofBody_labels_getElem? {name : String} {body : List Instruction}
    (hd : (labelNames body).Nodup) (label : String) (k : Nat) :
    (ofBody name body).labels[label]? = some k ↔
      body[k]?.bind Instruction.label? = some label := by
  induction body using List.reverseRecOn with
  | nil => simp [empty]
  | append_singleton body i ih =>
    rw [labelNames, List.filterMap_append] at hd
    have ih := ih hd.of_append_left
    rw [ofBody_concat, extend, getElem?_concat_label?, ← ih]
    by_cases hi : i.op = .label
    · have hlast : i.label? = some i.target := if_pos hi
      have hnew : i.target ∉ labelNames body := fun hmem =>
        List.disjoint_of_nodup_append hd hmem (by simp [hlast])
      rw [hlast]
      simp only [hi, if_true, Std.ExtTreeMap.getElem?_insert, Std.compare_eq_iff_eq, ofBody_code,
        List.size_toArray, Option.some.injEq]
      split
      · next ht =>
        have hnone : (ofBody name body).labels[label]? ≠ some k := fun h =>
          hnew (ht ▸ mem_labelNames_of_getElem? (ih.1 h))
        simp only [Option.some.injEq, hnone, ht, and_true, false_or, eq_comm]
      · next ht => simp only [ht, and_false, or_false]
    · have hlast : i.label? = none := if_neg hi
      simp only [hi, if_false, hlast, reduceCtorEq, and_false, or_false]

/-- What the instructions of a routine have to fulfil for all of them to load. -/
structure Loadable (body : List Instruction) : Prop where
  markerless : ∀ i ∈ body, i.op ≠ .define
  labels : (labelNames body).Nodup
  addresses : ∀ i ∈ body,
    i.src ≠ some (.heap Int64.maxValue) ∧ i.dst ≠ some (.heap Int64.maxValue)

theorem Loadable.of_append {body rest : List Instruction} (h : Loadable (body ++ rest)) :
    Loadable body where
  markerless i hi := h.markerless i (List.mem_append_left rest hi)
  labels := by
    have hd := h.labels
    rw [labelNames, List.filterMap_append] at hd
    exact hd.of_append_left
  addresses i hi := h.addresses i (List.mem_append_left rest hi)

theorem reserve_eq (r : Routine) (line : Nat) {operand : Option Operand}
    (h : operand ≠ some (.heap Int64.maxValue)) :
    r.reserve line operand =
      .ok { r with frameSize := max r.frameSize (Instruction.room operand) } := by
  unfold reserve
  split
  · next address =>
    rw [if_neg fun ha => h (by rw [ha])]
    rfl
  · next hne =>
    have hroom : Instruction.room operand = 0 := by
      unfold Instruction.room
      split
      · next address => exact absurd rfl (hne address)
      · rfl
    rw [hroom, Nat.max_zero]

theorem add_eq_extend {name : String} {body : List Instruction} {i : Instruction}
    (h : Loadable (body ++ [i])) (line : Nat) :
    (ofBody name body).add line i = .ok (ofBody name (body ++ [i])) := by
  obtain ⟨hsrc, hdst⟩ := h.addresses i (by simp)
  have hmark : (ofBody name body).mark i =
      .ok { ofBody name body with
        labels := if i.op = .label then
          (ofBody name body).labels.insert i.target (ofBody name body).code.size
          else (ofBody name body).labels } := by
    unfold mark
    split
    · next hi =>
      have hnew : i.target ∉ (ofBody name body).labels := by
        rw [mem_ofBody_labels]
        have hd := h.labels
        rw [labelNames, List.filterMap_append] at hd
        exact fun hmem => List.disjoint_of_nodup_append hd hmem (by simp [Instruction.label?, hi])
      rw [if_neg hnew]
    · rfl
  rw [ofBody_concat, extend]
  simp only [add, hmark, bind, Except.bind, pure, Except.pure, reserve_eq _ line hsrc,
    reserve_eq _ line hdst]

end Routine

/-- A function in a list of instructions: its name, and what follows its marker. -/
structure Block where
  name : String
  body : List Instruction

namespace Block

def code (b : Block) : List Instruction :=
  .define b.name :: b.body

def routine (b : Block) : Routine :=
  .ofBody b.name b.body

end Block

namespace Image

def ofBlocks (blocks : List Block) : Image :=
  ⟨blocks.foldl (fun routines b => routines.insert b.name b.routine) ∅⟩

@[simp] theorem ofBlocks_concat (blocks : List Block) (b : Block) :
    ofBlocks (blocks ++ [b]) = ⟨(ofBlocks blocks).routines.insert b.name b.routine⟩ := by
  simp only [ofBlocks, List.foldl_append, List.foldl_cons, List.foldl_nil]

theorem find?_ofBlocks {blocks : List Block} (hd : (blocks.map Block.name).Nodup)
    (name : String) (r : Routine) :
    (ofBlocks blocks).find? name = some r ↔ ∃ b ∈ blocks, b.name = name ∧ b.routine = r := by
  induction blocks using List.reverseRecOn with
  | nil => simp [find?, ofBlocks]
  | append_singleton blocks b ih =>
    rw [List.map_append] at hd
    have hnew : ∀ c ∈ blocks, c.name ≠ b.name := fun c hc he =>
      List.disjoint_of_nodup_append hd (List.mem_map_of_mem hc) (by simp [he])
    have ih := ih hd.of_append_left
    rw [find?] at ih ⊢
    rw [ofBlocks_concat, Std.ExtTreeMap.getElem?_insert]
    simp only [Std.compare_eq_iff_eq]
    split
    · next he =>
      subst he
      constructor
      · intro h
        exact ⟨b, by simp, rfl, Option.some.inj h⟩
      · rintro ⟨c, hc, hname, hr⟩
        rcases List.mem_append.1 hc with hc | hc
        · exact absurd hname (hnew c hc)
        · rw [List.mem_singleton.1 hc] at hr
          rw [hr]
    · next hne =>
      rw [ih]
      constructor
      · rintro ⟨c, hc, h⟩
        exact ⟨c, List.mem_append_left _ hc, h⟩
      · rintro ⟨c, hc, hname, hr⟩
        rcases List.mem_append.1 hc with hc | hc
        · exact ⟨c, hc, hname, hr⟩
        · rw [List.mem_singleton.1 hc] at hname
          exact absurd hname hne

theorem mem_ofBlocks {blocks : List Block} (hd : (blocks.map Block.name).Nodup)
    (name : String) : name ∈ (ofBlocks blocks).routines ↔ ∃ b ∈ blocks, b.name = name := by
  rw [← Std.ExtTreeMap.isSome_getElem?_iff_mem, Option.isSome_iff_exists]
  constructor
  · rintro ⟨r, hr⟩
    obtain ⟨b, hb, hname, -⟩ := (find?_ofBlocks hd name r).1 hr
    exact ⟨b, hb, hname⟩
  · rintro ⟨b, hb, hname⟩
    exact ⟨b.routine, (find?_ofBlocks hd name b.routine).2 ⟨b, hb, hname, rfl⟩⟩

namespace Builder

theorem foldlM_body {image : Image} {name : String} {before body : List Instruction}
    {lines : List Line} (h : Routine.Loadable (before ++ body))
    (hl : lines.map Line.content = body.map .ok) :
    lines.foldlM addLine ⟨image, some (.ofBody name before)⟩ =
      .ok ⟨image, some (.ofBody name (before ++ body))⟩ := by
  induction body generalizing before lines with
  | nil =>
    rw [List.map_nil, List.map_eq_nil_iff] at hl
    subst hl
    rw [List.append_nil]
    rfl
  | cons i body ih =>
    obtain ⟨line, rest, rfl, hline, hrest⟩ := List.map_eq_cons_iff.1 hl
    rw [List.append_cons] at h ⊢
    have hadd : addLine ⟨image, some (.ofBody name before)⟩ line =
        .ok ⟨image, some (.ofBody name (before ++ [i]))⟩ := by
      have hi : i.op ≠ .define := h.markerless i (by simp)
      simp only [addLine, hline, bind, Except.bind, add, if_neg hi,
        Routine.add_eq_extend h.of_append line.number]
      rfl
    rw [List.foldlM_cons, hadd]
    exact ih h hrest

theorem foldlM_block {b : Builder} {done : List Block} {block : Block} {lines : List Line}
    (hb : b.finish = ofBlocks done) (hd : ((done ++ [block]).map Block.name).Nodup)
    (h : Routine.Loadable block.body) (hl : lines.map Line.content = block.code.map .ok) :
    ∃ b' : Builder, lines.foldlM addLine b = .ok b' ∧ b'.finish = ofBlocks (done ++ [block]) := by
  obtain ⟨line, rest, rfl, hline, hrest⟩ := List.map_eq_cons_iff.1 hl
  rw [List.map_append] at hd
  have hnew : block.name ∉ b.finish.routines := by
    rw [hb, mem_ofBlocks hd.of_append_left]
    rintro ⟨c, hc, hname⟩
    exact List.disjoint_of_nodup_append hd (List.mem_map_of_mem hc) (by simp [hname])
  have hadd : addLine b line = .ok ⟨b.finish, some (.ofBody block.name [])⟩ := by
    simp only [addLine, hline, bind, Except.bind, add]
    exact if_neg hnew
  refine ⟨⟨b.finish, some block.routine⟩, ?_, ?_⟩
  · rw [List.foldlM_cons, hadd]
    exact foldlM_body h hrest
  · rw [ofBlocks_concat, ← hb]
    simp only [finish, Block.routine, Routine.ofBody_name]

theorem foldlM_blocks {b : Builder} {done blocks : List Block} {lines : List Line}
    (hb : b.finish = ofBlocks done) (hd : ((done ++ blocks).map Block.name).Nodup)
    (h : ∀ block ∈ blocks, Routine.Loadable block.body)
    (hl : lines.map Line.content = (blocks.flatMap Block.code).map .ok) :
    ∃ b' : Builder, lines.foldlM addLine b = .ok b' ∧ b'.finish = ofBlocks (done ++ blocks) := by
  induction blocks generalizing b done lines with
  | nil =>
    rw [List.flatMap_nil, List.map_nil, List.map_eq_nil_iff] at hl
    subst hl
    exact ⟨b, rfl, by rw [hb, List.append_nil]⟩
  | cons block blocks ih =>
    rw [List.flatMap_cons, List.map_append] at hl
    obtain ⟨first, rest, rfl, hfirst, hrest⟩ := List.map_eq_append_iff.1 hl
    rw [List.append_cons] at hd ⊢
    have hd' : ((done ++ [block]).map Block.name).Nodup := by
      rw [List.map_append] at hd
      exact hd.of_append_left
    obtain ⟨b', hb', hf⟩ := foldlM_block hb hd' (h block List.mem_cons_self) hfirst
    obtain ⟨b'', hb'', hf'⟩ := ih hf hd (fun c hc => h c (List.mem_cons_of_mem block hc)) hrest
    refine ⟨b'', ?_, hf'⟩
    rw [List.foldlM_append, hb']
    exact hb''

end Builder

/-- The lines of functions with different names load as the image of these functions. -/
theorem ofLines_blocks {blocks : List Block} (hd : (blocks.map Block.name).Nodup)
    (h : ∀ b ∈ blocks, Routine.Loadable b.body) {lines : List Line}
    (hl : lines.map Line.content = (blocks.flatMap Block.code).map .ok) :
    ofLines lines = .ok (ofBlocks blocks) := by
  obtain ⟨b, hb, hf⟩ := @Builder.foldlM_blocks .empty [] _ _ rfl hd h hl
  rw [ofLines, hb]
  exact congrArg Except.ok hf

theorem content_numbered (code : List Instruction) :
    (numbered code).map Line.content = code.map .ok := by
  rw [numbered, List.map_map]
  change (code.zipIdx 1).map ((Except.ok : Instruction → Except LoadError Instruction) ∘ Prod.fst) = _
  rw [← List.map_map, List.zipIdx_map_fst]

theorem ofInstructions_blocks {blocks : List Block} (hd : (blocks.map Block.name).Nodup)
    (h : ∀ b ∈ blocks, Routine.Loadable b.body) :
    ofInstructions (blocks.flatMap Block.code) = .ok (ofBlocks blocks) :=
  ofLines_blocks hd h (content_numbered _)

end Image

end BlueCode
