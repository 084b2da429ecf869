import BlueCode.Proofs.RereadCode
import BlueCode.Proofs.ThinnedRuns

namespace BlueCode

open Compile

/-- Function names and the names that are called are words. -/
def Program.Spelled (p : Program) : Prop :=
  ∀ f ∈ p.functions, Text.isWord f.name.toList = true ∧
    ∀ name ∈ Stmt.listCallees f.body, Text.isWord name.toList = true

def LoadError.unplaced : LoadError → LoadError
  | badInstruction _ text => badInstruction 0 text
  | badOperand _ operand => badOperand 0 operand
  | orphan _ => orphan 0
  | duplicateFunction name => duplicateFunction name
  | duplicateLabel function label => duplicateLabel function label

def Failure.unplaced : Failure → Failure
  | load e => load e.unplaced
  | e => e

def Report.unplaced (r : Report) : Report :=
  ⟨r.result.mapError Failure.unplaced, r.output⟩

/-- A run of the program through all stages ends with the report. -/
def Program.Reports (p : Program) (optimized : Bool) (settings : Settings) (r : Report) : Prop :=
  ∃ fuel, runImage settings fuel (p.image optimized) = some r

namespace Block

theorem thinned_routine (b : Block) : b.thinned.routine = b.routine.thinned := by
  simp [thinned, routine, Routine.thinned]

theorem finished_reread {callable : String → Prop} {d : Nat} {b : Block}
    (h : ∀ i ∈ b.body, Emitted callable d i) (optimized : Bool) :
    b.reread.finished optimized = (b.finished optimized).reread := by
  cases optimized with
  | false => rfl
  | true => exact thinned_reread h

end Block

theorem Image.thinnedImage_ofBlocks {blocks : List Block} (hd : (blocks.map Block.name).Nodup) :
    Calls.ThinnedImage (.ofBlocks blocks) (.ofBlocks (blocks.map Block.thinned)) := by
  have hd' : ((blocks.map Block.thinned).map Block.name).Nodup := Block.names_finished true hd
  intro name
  ext r
  rw [find?_ofBlocks hd', Option.map_eq_some_iff]
  constructor
  · rintro ⟨b', hb', hname, rfl⟩
    obtain ⟨b, hb, rfl⟩ := List.mem_map.1 hb'
    exact ⟨b.routine, (find?_ofBlocks hd name _).2 ⟨b, hb, hname, rfl⟩, b.thinned_routine.symm⟩
  · rintro ⟨r', hr', rfl⟩
    obtain ⟨b, hb, hname, rfl⟩ := (find?_ofBlocks hd name _).1 hr'
    exact ⟨b.thinned, List.mem_map_of_mem hb, hname, b.thinned_routine⟩

/-- A function whose code calls names that are words only, and whose own name is one. -/
def Block.Spelled (b : Block) : Prop :=
  Text.isWord b.name.toList = true ∧
    ∃ d n, StmtCode (Text.isWord ·.toList) none 0 0 b.body d n

namespace Block.Spelled

variable {b : Block}

theorem reloads (h : b.Spelled) (hl : b.body.length < 2 ^ 63) (optimized : Bool) :
    ∀ i ∈ (b.finished optimized).code, i.Reloads := by
  obtain ⟨hname, d, n, hbody⟩ := h
  have hd : d ≤ 2 ^ 63 := Nat.le_of_lt (Nat.lt_of_le_of_lt (hbody.tidy.declared_le hl) hl)
  intro i hi
  rcases List.mem_cons.1 hi with rfl | hi
  · exact .define (by rw [finished_name]; exact hname)
  · exact ((hbody.tidy_finished optimized).emitted i hi).reloads hd

theorem finished_reread (h : b.Spelled) (optimized : Bool) :
    b.reread.finished optimized = (b.finished optimized).reread := by
  obtain ⟨-, d, n, hbody⟩ := h
  exact Block.finished_reread hbody.tidy.emitted optimized

theorem unreadable_finished (h : b.Spelled) (optimized : Bool) :
    unreadable (b.finished optimized).code = unreadable b.code := by
  obtain ⟨-, d, n, hbody⟩ := h
  cases optimized with
  | false => rfl
  | true =>
    have hdefine : (Instruction.define b.name).op ≠ .mov := fun hop => nomatch hop
    exact unreadable_thin (.inr hdefine) hbody.tidy.emitted

end Block.Spelled

namespace Block

variable {blocks : List Block}

theorem flatMap_finished_reread (h : ∀ b ∈ blocks, b.Spelled) (optimized : Bool) :
    ((blocks.map (finished optimized)).flatMap code).map Instruction.reread =
      ((blocks.map reread).map (finished optimized)).flatMap code := by
  rw [map_reread_flatMap, List.map_map, List.map_map]
  exact congrArg (List.flatMap code) (List.map_congr_left fun b hb =>
    ((h b hb).finished_reread optimized).symm)

theorem unreadable_flatMap (blocks : List Block) :
    unreadable (blocks.flatMap code) = blocks.flatMap fun b => unreadable b.code :=
  List.filterMap_flatMap ..

theorem unreadable_flatMap_finished (h : ∀ b ∈ blocks, b.Spelled) (optimized : Bool) :
    unreadable ((blocks.map (finished optimized)).flatMap code) =
      unreadable (blocks.flatMap code) := by
  rw [unreadable_flatMap, unreadable_flatMap, List.flatMap_map]
  exact List.flatMap_congr fun b hb => (h b hb).unreadable_finished optimized

theorem exists_image_reread (hd : (blocks.map Block.name).Nodup)
    (hcode : ∀ b ∈ blocks, ∃ d n, StmtCode (fun _ => True) none 0 0 b.body d n)
    (hl : (blocks.flatMap code).length < 2 ^ 63) (optimized : Bool) :
    Image.ofInstructions (((blocks.map reread).map (finished optimized)).flatMap code) =
        .ok (.ofBlocks ((blocks.map reread).map (finished optimized))) ∧
      (Image.ofBlocks ((blocks.map reread).map (finished optimized))).Compiled
        (((blocks.map reread).map (finished optimized)).flatMap code).length := by
  refine exists_image ?_ ?_ ?_
  · rw [List.map_map]
    exact hd
  · intro b hb
    obtain ⟨b, hmem, rfl⟩ := List.mem_map.1 hb
    obtain ⟨d, n, hbody⟩ := hcode b hmem
    exact ⟨d, n, hbody.reread⟩
  · refine Nat.lt_of_le_of_lt (flatMap_finished_length_le optimized _) ?_
    rw [← map_reread_flatMap, List.length_map]
    exact hl

/-- The functions that are read run to the same ends, optimized or not. -/
theorem ends_finished_iff (hd : (blocks.map Block.name).Nodup)
    (hcode : ∀ b ∈ blocks, ∃ d n, StmtCode (fun _ => True) none 0 0 b.body d n)
    (hl : (blocks.flatMap code).length < 2 ^ 63) (settings : Settings) (o : Outcome) :
    (∃ fuel, (Image.ofBlocks ((blocks.map reread).map (finished true))).run settings fuel =
        some o) ↔
      ∃ fuel, (Image.ofBlocks ((blocks.map reread).map (finished false))).run settings fuel =
        some o := by
  have himage := (exists_image_reread hd hcode hl false).2
  have hid : finished false = id := rfl
  have hlimit : ((blocks.map reread).flatMap code).length < 2 ^ 63 := by
    rw [← map_reread_flatMap, List.length_map]
    exact hl
  have hd' : ((blocks.map reread).map Block.name).Nodup := by
    rw [List.map_map]
    exact hd
  rw [hid, List.map_id] at himage ⊢
  exact (Image.thinnedImage_ofBlocks hd').ends_iff hlimit himage o

theorem load_finished (hd : (blocks.map Block.name).Nodup)
    (hcode : ∀ b ∈ blocks, ∃ d n, StmtCode (fun _ => True) none 0 0 b.body d n)
    (hs : ∀ b ∈ blocks, b.Spelled) (hl : (blocks.flatMap code).length < 2 ^ 63)
    (optimized : Bool) :
    match unreadable (blocks.flatMap code) with
    | [] => load (assemble ((blocks.map (finished optimized)).flatMap code)) =
        .ok (.ofBlocks ((blocks.map reread).map (finished optimized)))
    | text :: _ => ∃ n, load (assemble ((blocks.map (finished optimized)).flatMap code)) =
        .error (.badOperand n text) := by
  have hreloads : ∀ i ∈ (blocks.map (finished optimized)).flatMap code, i.Reloads := by
    intro i hi
    obtain ⟨b', hb', hi⟩ := List.mem_flatMap.1 hi
    obtain ⟨b, hb, rfl⟩ := List.mem_map.1 hb'
    have hlength := length_le_of_mem hb
    exact (hs b hb).reloads (by omega) optimized i hi
  have himage := (exists_image_reread hd hcode hl optimized).1
  have hsame := unreadable_flatMap_finished hs optimized
  rw [← flatMap_finished_reread hs] at himage
  rw [load_assemble_reloads hreloads]
  split
  · next hnone =>
    rw [Image.reloaded_of_readable (hsame.trans hnone)]
    exact himage
  · next text others hsome => exact Image.ofLines_reloaded_error himage (hsame.trans hsome)

end Block

theorem Compile.Blocks.spelled {sigs : Signatures} {p : Program} {blocks : List Block}
    (hb : Blocks sigs p.functions blocks) (hparams : ∀ f ∈ p.functions, f.params.length ≤ 1)
    (hp : p.Spelled) : ∀ b ∈ blocks, b.Spelled := by
  intro b hmem
  constructor
  · obtain ⟨f, hf, hname, -⟩ := hb.exists_function hmem
    exact hname ▸ (hp f hf).1
  · exact Blocks.body_code (Text.isWord ·.toList) hb hparams (fun f hf => (hp f hf).2) hmem

theorem Program.exists_blocks {p : Program} (hp : p.Spelled) {compiled : List Instruction}
    (hc : p.compile = .ok compiled) :
    ∃ blocks : List Block, compiled = blocks.flatMap Block.code ∧ (blocks.map Block.name).Nodup ∧
      (∀ b ∈ blocks, ∃ d n, StmtCode (fun _ => True) none 0 0 b.body d n) ∧
      (∀ b ∈ blocks, b.Spelled) ∧
      ∀ optimized, p.instructions optimized =
        .ok ((blocks.map (Block.finished optimized)).flatMap Block.code) := by
  obtain ⟨sigs, blocks, -, hb, rfl, hd, hparams⟩ := compile_eq_ok hc
  have hcode := hb.bodies_code hparams
  exact ⟨blocks, rfl, hd, hcode, hb.spelled hparams hp, instructions_of_compile hc hcode⟩

theorem Program.reports_of_image {p : Program} {optimized : Bool} {settings : Settings}
    {image : Image} (h : p.image optimized = .ok image) (r : Report) :
    p.Reports optimized settings r ↔
      ∃ o, (∃ fuel, image.run settings fuel = some o) ∧ o.report = r := by
  simp only [Reports, h, runImage, Option.map_eq_some_iff]
  constructor
  · rintro ⟨fuel, o, hrun, hr⟩
    exact ⟨o, ⟨fuel, hrun⟩, hr⟩
  · rintro ⟨o, ⟨fuel, hrun⟩, hr⟩
    exact ⟨fuel, o, hrun, hr⟩

theorem Program.reports_of_failure {p : Program} {optimized : Bool} {settings : Settings}
    {f : Failure} (h : p.image optimized = .error f) (r : Report) :
    p.Reports optimized settings r ↔ f.report = r := by
  simp only [Reports, h, runImage, Option.some.injEq, exists_const]

theorem Program.image_eq {p : Program} {optimized : Bool} {code : List Instruction}
    (h : p.instructions optimized = .ok code) :
    p.image optimized = (load (assemble code)).mapError .load := by
  rw [Program.image, Program.build, h]
  rfl

/-- Optimized and unoptimized, a program ends with the same result and the same output, or not at
all; only the line of an error in loading may differ. Code addresses have 64 bits. -/
theorem Program.reports_optimized_iff {p : Program} (hp : p.Spelled)
    {compiled : List Instruction} (hc : p.compile = .ok compiled)
    (hl : compiled.length < 2 ^ 63) (settings : Settings) (r : Report) :
    (∃ r', p.Reports true settings r' ∧ r'.unplaced = r) ↔
      ∃ r', p.Reports false settings r' ∧ r'.unplaced = r := by
  obtain ⟨blocks, rfl, hd, hcode, hs, hinstructions⟩ := Program.exists_blocks hp hc
  have himage (optimized : Bool) := image_eq (hinstructions optimized)
  have hload := Block.load_finished hd hcode hs hl
  cases hu : unreadable (blocks.flatMap Block.code) with
  | nil =>
    simp only [hu] at hload
    have hok (optimized : Bool) : p.image optimized =
        .ok (.ofBlocks ((blocks.map Block.reread).map (Block.finished optimized))) := by
      rw [himage, hload]
      rfl
    simp only [reports_of_image (hok true), reports_of_image (hok false),
      Block.ends_finished_iff hd hcode hl]
  -- Loading fails at the first constant that is not read, which is the same in both.
  | cons text others =>
    simp only [hu] at hload
    obtain ⟨n, hn⟩ := hload true
    obtain ⟨n', hn'⟩ := hload false
    have hfirst : p.image true = .error (.load (.badOperand n text)) := by
      rw [himage, hn]
      rfl
    have hsecond : p.image false = .error (.load (.badOperand n' text)) := by
      rw [himage, hn']
      rfl
    simp only [reports_of_failure hfirst, reports_of_failure hsecond, exists_eq_left']
    rfl

theorem Program.reports_optimized_iff_factorial :
    Program.factorial.Spelled ∧ (∃ compiled, Program.factorial.compile = .ok compiled ∧
      compiled.length < 2 ^ 63) ∧
      ((∃ r', Program.factorial.Reports true {} r' ∧
          r'.unplaced = ⟨.ok (.returned (.int 120)), "120\n"⟩) ↔
        ∃ r', Program.factorial.Reports false {} r' ∧
          r'.unplaced = ⟨.ok (.returned (.int 120)), "120\n"⟩) := by
  have spelled : Program.factorial.Spelled := by
    rw [Program.Spelled]
    decide
  exact ⟨spelled, ⟨_, rfl, by decide⟩, Program.reports_optimized_iff spelled rfl (by decide) {} _⟩

end BlueCode
