import BlueCode.Proofs.FirstViolation
import BlueCode.Proofs.LineContents
import BlueCode.Proofs.Listings
import BlueCode.Proofs.Optimization
import BlueCode.Proofs.Renaming

namespace BlueCode

open Compile

namespace Text

/-- The text with its last line ended by a newline. -/
def terminated (cs : List Char) : List Char :=
  if cs.getLast? = some '\n' then cs else cs ++ ['\n']

end Text

def joined (texts : List String) : String :=
  .ofList (texts.flatMap fun text => Text.terminated text.toList)

/-- The text, when it is loaded alone, is that of this routine and no other. -/
def Routine.AloneIn (r : Routine) (text : String) : Prop :=
  ∃ image, load text = .ok image ∧ image.toList = [r]

/-- The lines of the text hold the code of the function, which can be loaded. -/
structure Block.WrittenIn (b : Block) (text : String) : Prop where
  writes : Loader.Writes (Text.lines text.toList) b.code
  loadable : Routine.Loadable b.body

namespace Loader.Writes

variable {raws : List (List Char)} {cs rest : List Char} {code code' : List Instruction}

theorem unique (h : Writes raws code) (h' : Writes raws code') : code = code' := by
  have hcontents := (h.contents 1).symm.trans (h'.contents 1)
  exact List.map_injective_iff.2 (fun _ _ => Except.ok.inj) hcontents

theorem empty_line (h : Writes [[]] code) : code = [] :=
  h.unique (.silent rfl .nil)

theorem terminated (h : Writes (Text.lines cs) code) (h' : Writes (Text.lines rest) code') :
    Writes (Text.lines (Text.terminated cs ++ rest)) (code ++ code') := by
  rw [Text.terminated]
  split
  · next hlast =>
    obtain ⟨front, rfl⟩ := List.getLast?_eq_some_iff.1 hlast
    rw [Text.lines_append_newline] at h
    obtain ⟨first, last, rfl, hfirst, hblank⟩ := h.of_append
    rw [hblank.empty_line, List.append_nil, List.append_assoc, List.singleton_append,
      Text.lines_append_newline]
    exact hfirst.append h'
  · rw [List.append_assoc, List.singleton_append, Text.lines_append_newline]
    exact h.append h'

end Loader.Writes

def markerNames (code : List Instruction) : List String :=
  code.filterMap fun i => if i.op = .define then some i.target else none

namespace Block

variable {b : Block} {blocks : List Block} {text : String} {texts : List String}

theorem markerNames_flatMap_code (h : ∀ b ∈ blocks, Routine.Loadable b.body) :
    markerNames (blocks.flatMap code) = blocks.map name := by
  have hcode : ∀ b ∈ blocks, markerNames b.code = [b.name] := by
    intro b hb
    have hbody : markerNames b.body = [] :=
      List.filterMap_eq_nil_iff.2 fun i hi => if_neg ((h b hb).markerless i hi)
    exact congrArg (b.name :: ·) hbody
  rw [markerNames, List.filterMap_flatMap, List.map_eq_flatMap]
  exact List.flatMap_congr hcode

namespace WrittenIn

theorem load (h : b.WrittenIn text) : load text = .ok (.ofBlocks [b]) := by
  refine load_eq_ok_iff.2 ⟨[b], ?_, List.nodup_singleton _, ?_, rfl⟩
  · rw [List.flatMap_singleton]
    exact h.writes
  · exact List.forall_mem_singleton.2 h.loadable

theorem find?_iff (h : b.WrittenIn text) {name : String} {r : Routine} :
    (∃ single, BlueCode.load text = .ok single ∧ single.find? name = some r) ↔
      b.name = name ∧ b.routine = r := by
  have hd : ([b].map Block.name).Nodup := List.nodup_singleton _
  simp only [h.load, Except.ok.injEq, exists_eq_left', Image.find?_ofBlocks hd,
    List.mem_singleton, exists_eq_left]

end WrittenIn

theorem aloneIn_iff {r : Routine} :
    r.AloneIn text ↔ ∃ b : Block, b.WrittenIn text ∧ b.routine = r := by
  constructor
  · rintro ⟨image, hload, hr⟩
    obtain ⟨blocks, hw, hd, hl, rfl⟩ := load_eq_ok_iff.1 hload
    have hroutines := Image.toList_ofBlocks hd
    rw [hr, List.singleton_perm, eq_comm, List.map_eq_singleton_iff] at hroutines
    obtain ⟨b, rfl, hb⟩ := hroutines
    rw [List.flatMap_singleton] at hw
    exact ⟨b, ⟨hw, hl b (List.mem_singleton_self b)⟩, hb⟩
  · rintro ⟨b, hb, rfl⟩
    have hd : ([b].map name).Nodup := List.nodup_singleton _
    exact ⟨_, hb.load, List.perm_singleton.1 (Image.toList_ofBlocks hd)⟩

theorem forall₂_aloneIn {routines : List Routine}
    (h : List.Forall₂ (fun text r => Routine.AloneIn r text) texts routines) :
    ∃ blocks, List.Forall₂ (fun text b => WrittenIn b text) texts blocks ∧
      blocks.map routine = routines := by
  induction h with
  | nil => exact ⟨[], .nil, rfl⟩
  | cons hfirst _ ih =>
    obtain ⟨b, hb, rfl⟩ := aloneIn_iff.1 hfirst
    obtain ⟨blocks, hblocks, rfl⟩ := ih
    exact ⟨b :: blocks, .cons hb hblocks, rfl⟩

theorem exists_routine_iff (h : List.Forall₂ (fun text b => WrittenIn b text) texts blocks)
    {name : String} {r : Routine} : (∃ b ∈ blocks, b.name = name ∧ b.routine = r) ↔
      ∃ text ∈ texts, ∃ single, BlueCode.load text = .ok single ∧ single.find? name = some r := by
  induction h with
  | nil => simp
  | cons hfirst _ ih =>
    rw [List.exists_mem_cons_iff, List.exists_mem_cons_iff, ih, hfirst.find?_iff]

theorem writes_joined (h : List.Forall₂ (fun text b => WrittenIn b text) texts blocks) :
    Loader.Writes (Text.lines (joined texts).toList) (blocks.flatMap code) := by
  rw [joined, String.toList_ofList]
  induction h with
  | nil => exact .silent rfl .nil
  | cons hfirst _ ih => exact hfirst.writes.terminated ih

theorem loadable_of_forall₂ (h : List.Forall₂ (fun text b => WrittenIn b text) texts blocks) :
    ∀ b ∈ blocks, Routine.Loadable b.body := by
  induction h with
  | nil => exact List.forall_mem_nil _
  | cons hfirst _ ih => exact List.forall_mem_cons.2 ⟨hfirst.loadable, ih⟩

theorem load_joined_iff (h : List.Forall₂ (fun text b => WrittenIn b text) texts blocks)
    {image : Image} : BlueCode.load (joined texts) = .ok image ↔
      (blocks.map name).Nodup ∧ image = .ofBlocks blocks := by
  have hl := loadable_of_forall₂ h
  have loads (hd : (blocks.map name).Nodup) :
      BlueCode.load (joined texts) = .ok (.ofBlocks blocks) :=
    load_eq_ok_iff.2 ⟨blocks, writes_joined h, hd, hl, rfl⟩
  constructor
  · intro hload
    obtain ⟨others, hw, hd, hl', -⟩ := load_eq_ok_iff.1 hload
    have hnames : others.map name = blocks.map name := by
      rw [← markerNames_flatMap_code hl', ← markerNames_flatMap_code hl,
        hw.unique (writes_joined h)]
    rw [hnames] at hd
    exact ⟨hd, Except.ok.inj (hload.symm.trans (loads hd))⟩
  · rintro ⟨hd, rfl⟩
    exact loads hd

end Block

/-- Texts of single routines load together, in any order, if and only if their names are different;
the image is the same in any order, and has the routines of each text. -/
theorem load_joined {texts others : List String} {routines : List Routine}
    (h : List.Forall₂ (fun text r => Routine.AloneIn r text) texts routines)
    (hp : others.Perm texts) :
    ((∃ image, load (joined others) = .ok image) ↔ (routines.map Routine.name).Nodup) ∧
      ∀ image, load (joined others) = .ok image → load (joined texts) = .ok image ∧
        ∀ name r, image.find? name = some r ↔
          ∃ text ∈ texts, ∃ single, load text = .ok single ∧ single.find? name = some r := by
  obtain ⟨blocks, hb, rfl⟩ := Block.forall₂_aloneIn h
  obtain ⟨blocks', hb', hperm⟩ := List.perm_comp_forall₂ hp hb
  have hnames : (blocks'.map Block.name).Nodup ↔ (blocks.map Block.name).Nodup :=
    (hperm.map Block.name).nodup_iff
  have hroutines : (blocks.map Block.routine).map Routine.name = blocks.map Block.name := by
    rw [List.map_map]
    exact List.map_congr_left fun b _ => Routine.ofBody_name ..
  constructor
  · simp only [Block.load_joined_iff hb', exists_and_left, exists_eq, and_true, hnames, hroutines]
  · intro image hload
    obtain ⟨hd', rfl⟩ := (Block.load_joined_iff hb').1 hload
    have hd := hnames.1 hd'
    rw [Image.ofBlocks_perm hperm hd]
    refine ⟨(Block.load_joined_iff hb).2 ⟨hd, rfl⟩, fun name r => ?_⟩
    rw [Image.find?_ofBlocks hd, Block.exists_routine_iff hb]

namespace Compile

variable {sigs sigs' : Signatures} {fs gs : List Function} {blocks : List Block}

theorem signatures_of_nodup (hp : ∀ f ∈ fs, f.params.length ≤ 1)
    (hd : (fs.map Function.name).Nodup) : signatures [] fs = .ok (fs.map Function.signature) := by
  have hfaultless : Faultless Function.Misdeclared [] fs :=
    Program.faultless_misdeclared_iff.2 ⟨hp, fun _ _ => List.not_mem_nil, hd⟩
  obtain ⟨sigs, hs⟩ := (signatures_detects fs []).ok_iff.2 hfaultless
  obtain ⟨rfl, -⟩ := signatures_eq_ok hs List.nodup_nil
  exact hs

theorem lookup_perm (hp : gs.Perm fs) (hd : (fs.map Function.name).Nodup) (name : String) :
    (gs.map Function.signature).lookup name = (fs.map Function.signature).lookup name := by
  apply Option.ext
  intro count
  rw [lookup_eq_some_iff hd, lookup_eq_some_iff ((hp.map Function.name).nodup_iff.2 hd)]
  simp only [hp.mem_iff]

theorem Blocks.perm (hb : Blocks sigs fs blocks)
    (hs : ∀ name, sigs'.lookup name = sigs.lookup name) (hp : gs.Perm fs) :
    ∃ others, Blocks sigs' gs others ∧ others.Perm blocks := by
  have hb' : Blocks sigs' fs blocks :=
    hb.imp fun _ _ ⟨hname, hcode⟩ => ⟨hname, function_eq_of_lookup hs hcode⟩
  exact List.perm_comp_forall₂ hp hb'

theorem Blocks.mapM_eq_ok (hb : Blocks sigs fs blocks) :
    fs.mapM (function sigs) = .ok (blocks.map Block.code) := by
  induction hb with
  | nil => rfl
  | cons hfirst _ ih =>
    rw [List.mapM_cons, hfirst.2, ih]
    rfl

end Compile

theorem Block.load_finished_perm {blocks others : List Block} (hperm : others.Perm blocks)
    (hd : (blocks.map Block.name).Nodup)
    (hcode : ∀ b ∈ blocks, ∃ d n, StmtCode (fun _ => True) none 0 0 b.body d n)
    (hs : ∀ b ∈ blocks, b.Spelled) (hl : (blocks.flatMap code).length < 2 ^ 63)
    (optimized : Bool) :
    (∃ image, load (assemble ((blocks.map (finished optimized)).flatMap code)) = .ok image ∧
        load (assemble ((others.map (finished optimized)).flatMap code)) = .ok image) ∨
      ∃ n text n' text',
        load (assemble ((blocks.map (finished optimized)).flatMap code)) =
            .error (.badOperand n text) ∧
          load (assemble ((others.map (finished optimized)).flatMap code)) =
            .error (.badOperand n' text') := by
  have hcodes : (others.flatMap code).Perm (blocks.flatMap code) := hperm.flatMap_right _
  have hunreadable : (unreadable (others.flatMap code)).Perm (unreadable (blocks.flatMap code)) :=
    hcodes.filterMap _
  have hload := load_finished hd hcode hs hl optimized
  have hload' := load_finished ((hperm.map name).nodup_iff.2 hd)
    (fun b hmem => hcode b (hperm.subset hmem)) (fun b hmem => hs b (hperm.subset hmem))
    (hcodes.length_eq ▸ hl) optimized
  generalize unreadable (blocks.flatMap code) = texts at hload hunreadable
  generalize unreadable (others.flatMap code) = texts' at hload' hunreadable
  match texts, texts', hunreadable with
  | [], [], _ =>
    have hd' : ((blocks.map reread).map name).Nodup := by
      rw [List.map_map]
      exact hd
    rw [Image.ofBlocks_perm ((hperm.map reread).map _) (names_finished optimized hd')] at hload'
    exact .inl ⟨_, hload, hload'⟩
  | text :: _, text' :: _, _ =>
    obtain ⟨n, hn⟩ := hload
    obtain ⟨n', hn'⟩ := hload'
    exact .inr ⟨n, text, n', text', hn, hn'⟩
  | [], _ :: _, hunreadable => cases hunreadable.eq_nil
  | _ :: _, [], hunreadable => cases hunreadable.symm.eq_nil

/-- How a run has ended, with the code of an error, and what it has printed. -/
def Report.coded (r : Report) : Except String Halt × String :=
  (r.result.mapError Failure.code, r.output)

namespace Program

variable {p q : Program} {optimized : Bool}

theorem compile_of_blocks {sigs : Signatures} {blocks : List Block}
    (hs : signatures [] p.functions = .ok sigs) (hb : Blocks sigs p.functions blocks) :
    p.compile = .ok (blocks.flatMap Block.code) :=
  bind_eq_ok.2 ⟨sigs, hs, bind_eq_ok.2 ⟨_, hb.mapM_eq_ok, rfl⟩⟩

/-- A program with its functions in another order is compiled to the same blocks in that order. -/
theorem compile_perm {sigs : Signatures} {blocks : List Block}
    (hq : q.functions.Perm p.functions) (hs : signatures [] p.functions = .ok sigs)
    (hb : Blocks sigs p.functions blocks) :
    ∃ others : List Block, q.compile = .ok (others.flatMap Block.code) ∧ others.Perm blocks := by
  obtain ⟨rfl, hd, hparams⟩ := signatures_eq_ok hs List.nodup_nil
  have hd : (p.functions.map Function.name).Nodup := by
    simpa [Function.comp_def] using hd
  have hs' := signatures_of_nodup (fun f hf => hparams f (hq.subset hf))
    ((hq.map Function.name).nodup_iff.2 hd)
  obtain ⟨others, hb', hperm⟩ := hb.perm (lookup_perm hq hd) hq
  exact ⟨others, compile_of_blocks hs' hb', hperm⟩

theorem image_perm (hp : p.Spelled) (hq : q.functions.Perm p.functions)
    {compiled : List Instruction} (hc : p.compile = .ok compiled) (hl : compiled.length < 2 ^ 63) :
    (∃ image, p.image optimized = .ok image ∧ q.image optimized = .ok image) ∨
      ∃ n text n' text', p.image optimized = .error (.load (.badOperand n text)) ∧
        q.image optimized = .error (.load (.badOperand n' text')) := by
  obtain ⟨sigs, blocks, hs, hb, rfl, hd, hparams⟩ := compile_eq_ok hc
  obtain ⟨others, hc', hperm⟩ := compile_perm hq hs hb
  have hcode := hb.bodies_code hparams
  have hcode' := fun b hmem => hcode b (hperm.subset hmem)
  rw [image_eq (instructions_of_compile hc hcode optimized),
    image_eq (instructions_of_compile hc' hcode' optimized)]
  rcases Block.load_finished_perm hperm hd hcode (hb.spelled hparams hp) hl optimized with
    ⟨image, h, h'⟩ | ⟨n, text, n', text', h, h'⟩
  · rw [h, h']
    exact .inl ⟨image, rfl, rfl⟩
  · rw [h, h']
    exact .inr ⟨n, text, n', text', rfl, rfl⟩

theorem reports_perm (hp : p.Spelled) (hq : q.functions.Perm p.functions)
    {compiled : List Instruction} (hc : p.compile = .ok compiled) (hl : compiled.length < 2 ^ 63)
    (settings : Settings) (x : Except String Halt × String) :
    (∃ r, q.Reports optimized settings r ∧ r.coded = x) ↔
      ∃ r, p.Reports optimized settings r ∧ r.coded = x := by
  rcases @image_perm p q optimized hp hq _ hc hl with
    ⟨image, h, h'⟩ | ⟨n, text, n', text', h, h'⟩
  · simp only [reports_of_image h, reports_of_image h']
  · simp only [reports_of_failure h, reports_of_failure h', exists_eq_left']
    rfl

end Program

/-- Texts of single functions load together, in any order, if and only if the names are different,
and then as the same image, which has what the image of each text has. A program with its functions
in another order is accepted, too, and its runs end in the same way. Code addresses have 64 bits. -/
theorem order_of_functions :
    (∀ (texts others : List String) (routines : List Routine),
      List.Forall₂ (fun text r => Routine.AloneIn r text) texts routines → others.Perm texts →
      ((∃ image, load (joined others) = .ok image) ↔ (routines.map Routine.name).Nodup) ∧
        ∀ image, load (joined others) = .ok image → load (joined texts) = .ok image ∧
          ∀ name r, image.find? name = some r ↔
            ∃ text ∈ texts, ∃ single, load text = .ok single ∧ single.find? name = some r) ∧
    ∀ (p q : Program) (compiled : List Instruction), p.Spelled →
      q.functions.Perm p.functions → p.compile = .ok compiled →
      (∃ code, q.compile = .ok code) ∧
        (compiled.length < 2 ^ 63 →
          ∀ (optimized : Bool) (settings : Settings) (x : Except String Halt × String),
            (∃ r, q.Reports optimized settings r ∧ r.coded = x) ↔
              ∃ r, p.Reports optimized settings r ∧ r.coded = x) := by
  refine ⟨fun texts others routines => load_joined, fun p q compiled hp hq hc => ⟨?_, ?_⟩⟩
  · obtain ⟨sigs, blocks, hs, hb, -⟩ := compile_eq_ok hc
    obtain ⟨others, hc', -⟩ := Program.compile_perm hq hs hb
    exact ⟨_, hc'⟩
  · exact fun hl optimized => Program.reports_perm hp hq hc hl

def Program.turned : Program :=
  ⟨Program.factorial.functions.reverse⟩

theorem order_of_functions_turned :
    (∃ image, load (joined ["--b\ncall a\n", "--a\nret"]) = .ok image ∧
      load (joined ["--a\nret", "--b\ncall a\n"]) = .ok image) ∧
    (∃ code, Program.turned.compile = .ok code) ∧
    ((∃ r, Program.turned.Reports true {} r ∧ r.coded = (.ok (.returned (.int 120)), "120\n")) ↔
      ∃ r, Program.factorial.Reports true {} r ∧
        r.coded = (.ok (.returned (.int 120)), "120\n")) := by
  have first : Block.WrittenIn ⟨"a", [.ret]⟩ "--a\nret" :=
    ⟨@Loader.Writes.of_contents _ _ 1 (by decide +kernel), ⟨by decide, by decide, by decide⟩⟩
  have second : Block.WrittenIn ⟨"b", [.call "a"]⟩ "--b\ncall a\n" :=
    ⟨@Loader.Writes.of_contents _ _ 1 (by decide +kernel), ⟨by decide, by decide, by decide⟩⟩
  have alone : List.Forall₂ (fun text r => Routine.AloneIn r text) ["--a\nret", "--b\ncall a\n"]
      [Block.routine ⟨"a", [.ret]⟩, Block.routine ⟨"b", [.call "a"]⟩] :=
    .cons (Block.aloneIn_iff.2 ⟨_, first, rfl⟩) (.cons (Block.aloneIn_iff.2 ⟨_, second, rfl⟩) .nil)
  have swapped := order_of_functions.1 _ _ _ alone (List.Perm.swap "--a\nret" "--b\ncall a\n" [])
  have spelled : Program.factorial.Spelled := by
    rw [Program.Spelled]
    decide
  have turned := order_of_functions.2 Program.factorial Program.turned _ spelled
    (List.reverse_perm _) rfl
  obtain ⟨image, hload⟩ := swapped.1.2 (by decide)
  exact ⟨⟨image, hload, (swapped.2 image hload).1⟩, turned.1, turned.2 (by decide) true {} _⟩

end BlueCode
