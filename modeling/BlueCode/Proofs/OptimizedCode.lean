import BlueCode.Proofs.ThinnedImages

namespace BlueCode

open Compile Peephole

namespace Separated

variable {before after ahead code : List Instruction} {first second : Instruction}

theorem fuse?_eq_none (h : Separated (before ++ ahead)) : fuse? ahead = none := by
  have hahead : Separated ahead := List.IsChain.right_of_append h
  match ahead, hahead with
  | [], _ => rfl
  | [_], _ => rfl
  | _ :: _ :: _, hahead => exact BlueCode.fuse?_eq_none hahead.head

theorem remove (h : Separated (before ++ first :: second :: after)) (hop : first.op = .mov) :
    Separated (before ++ first :: after) := by
  obtain ⟨hbefore, hrest, hjoin⟩ := List.isChain_append.1 h
  have hafter : Separated after := Separated.of_cons (Separated.of_cons hrest)
  refine List.isChain_append.2 ⟨hbefore, List.isChain_cons.2 ⟨?_, hafter⟩, hjoin⟩
  intro next _ hpush
  exact absurd (hop.symm.trans hpush) nofun

theorem not_relay (h : Separated code) : ¬ Relay code := by
  rintro ⟨before, stretch, rfl, hstarts⟩
  obtain ⟨_, _, _, _, _, _, _, rfl, ⟨hpush, hpop, -, -⟩, -, -⟩ := hstarts.exists_windows
  exact Separated.head (List.IsChain.right_of_append h) hpush hpop

end Separated

namespace Peephole

/-- Of a move between the accumulator and a cell, and the move back, the second is removed. -/
inductive Removes : List Instruction → List Instruction → Prop where
  | mk (before after : List Instruction) {address : Int64} {first second : Instruction} :
      CellPair address first second →
      Removes (before ++ first :: second :: after) (before ++ first :: after)

/-- Code in which the pass finds nothing but variables that are moved back. -/
structure Plain (code : List Instruction) : Prop where
  separated : Separated code
  cellPairs : CellPairs code

variable {code next : List Instruction} {p q : Place}

theorem Rewrite.removes (h : Rewrite code next) (hc : Plain code) : Removes code next := by
  obtain ⟨before, hs⟩ := h
  rename_i window after i
  have hseparated := hc.separated
  rw [List.append_assoc] at hseparated
  cases hs with
  | unmove hr =>
    obtain ⟨address, hpair⟩ := hc.cellPairs _ (by simp) _ (by simp) hr
    rw [List.append_assoc]
    exact .mk before after hpair
  | fuse hf =>
    -- A window begins with a push and a pop.
    have hnone := hseparated.fuse?_eq_none
    exact absurd (hnone.symm.trans hf) nofun

theorem Removes.plain (h : Removes code next) (hc : Plain code) : Plain next := by
  obtain ⟨before, after, hpair⟩ := h
  refine ⟨hc.separated.remove hpair.op_eq, hc.cellPairs.subset ?_⟩
  apply List.Sublist.subset
  exact (List.Sublist.refl before).append (.cons_cons _ (List.sublist_cons_self _ after))

theorem Step.removes (h : Step p q) (hp : Plain p.code) :
    q.code = p.code ∨ Removes p.code q.code := by
  apply h.code_eq_or_rewrite.imp_right
  intro hrewrite
  exact hrewrite.removes hp

theorem plain_of_steps (h : Relation.ReflTransGen Step p q) (hp : Plain p.code) : Plain q.code := by
  induction h with
  | refl => exact hp
  | tail _ hstep ih =>
    rcases hstep.removes ih with hcode | hremoves
    · rw [hcode]
      exact ih
    · exact hremoves.plain ih

structure Trims (code : List Instruction) : Prop where
  /-- The pass comes to the end of the code, and what the code is then is its result. -/
  ends : ∃ last, Relation.ReflTransGen Step ⟨[], code⟩ last ∧ last.ahead.length ≤ 1 ∧
    optimize code = last.code
  /-- Wherever the pass comes to, nothing is fused. -/
  unfused : ∀ p, Relation.ReflTransGen Step ⟨[], code⟩ p → fuse? p.ahead = none
  /-- Wherever the pass comes to, nothing is removed but the second of two moves between the
  accumulator and a cell. -/
  removes : ∀ p q, Relation.ReflTransGen Step ⟨[], code⟩ p → Step p q →
    q.code = p.code ∨ Removes p.code q.code
  /-- All other instructions are left in the same order. -/
  others : (optimize code).filter (·.op ≠ .mov) = code.filter (·.op ≠ .mov)
  /-- The functions load with the same labels and equally large frames, or neither code loads. -/
  image : Agree Image.Alike (Image.ofInstructions code) (Image.ofInstructions (optimize code))
  /-- So do they from their text. -/
  text : Agree Image.Alike (load (assemble code)) (load (assemble (optimize code)))
  /-- No move is followed by the move back. -/
  settled : (optimize code).IsChain fun first second => isReversedMove first second = false
  stable : optimize (optimize code) = optimize code

theorem filter_thin (last : Instruction) (code : List Instruction) :
    (thin last code).filter (·.op ≠ .mov) = code.filter (·.op ≠ .mov) := by
  rw [← List.filterMap_eq_filter]
  apply filterMap_thin
  intro i hi
  simp [Option.guard, hi]

theorem Plain.trims (h : Plain code) : Trims code := by
  have hthin := optimize_eq_thin h.separated
  constructor
  case ends => exact exists_last_optimize code
  case unfused =>
    intro p hsteps
    exact (plain_of_steps hsteps h).separated.fuse?_eq_none
  case removes =>
    intro p q hsteps hstep
    exact hstep.removes (plain_of_steps hsteps h)
  case others =>
    rw [hthin]
    exact filter_thin .ret code
  case image =>
    rw [hthin]
    exact Image.agree_thin code
  case text =>
    rw [hthin]
    exact agree_load h.cellPairs
  case settled => exact isChain_optimize code
  case stable =>
    apply optimize_eq_self_iff.2
    exact exists_rewrite_optimize_iff.not.2 h.separated.not_relay

end Peephole

/-- In compiled code nothing but variables is moved back. -/
theorem Compile.Emitted.cellPair {callable : String → Prop} {d d' : Nat}
    {first second : Instruction} (hf : Emitted callable d first) (hs : Emitted callable d' second)
    (hr : isReversedMove first second) : ∃ address, CellPair address first second := by
  have hop := (isReversedMove_op hr).2
  cases hs with
  | constant ho => exact absurd hr (Bool.eq_false_iff.1 (hf.not_reversed_constant ho))
  | load hk =>
    rw [hf.of_reversed_load hr]
    exact ⟨_, .load⟩
  | store hk =>
    rw [hf.of_reversed_store hr]
    exact ⟨_, .store⟩
  | _ => cases hop

theorem Block.plain {callable : String → Prop} {blocks : List Block}
    (h : ∀ b ∈ blocks, ∃ d n, StmtCode callable none 0 0 b.body d n) :
    Plain (blocks.flatMap Block.code) := by
  constructor
  case separated =>
    apply Apart.separated
    apply Block.apart_flatMap_code
    intro b hb
    obtain ⟨d, n, hbody⟩ := h b hb
    exact hbody.apart
  case cellPairs =>
    have emitted : ∀ i ∈ blocks.flatMap Block.code, i.op = .mov → ∃ d, Emitted callable d i := by
      intro i hi hop
      obtain ⟨b, hb, hi⟩ := List.mem_flatMap.1 hi
      obtain ⟨d, n, hbody⟩ := h b hb
      rcases List.mem_cons.1 hi with rfl | hi
      · cases hop
      · exact ⟨d, hbody.tidy.emitted i hi⟩
    intro i hi j hj hr
    obtain ⟨d, hfirst⟩ := emitted i hi (isReversedMove_op hr).1
    obtain ⟨d', hsecond⟩ := emitted j hj (isReversedMove_op hr).2
    exact hfirst.cellPair hsecond hr

/-- What the peephole pass does to a compiled program. The program loads, optimized or not, if code
addresses have 64 bits. -/
theorem Program.optimize_compile {p : Program} {code : List Instruction}
    (hc : p.compile = .ok code) :
    Trims code ∧ (code.length < 2 ^ 63 → ∃ image image',
      Image.ofInstructions code = .ok image ∧
        Image.ofInstructions (optimize code) = .ok image' ∧ image.Alike image') := by
  obtain ⟨sigs, blocks, -, hb, rfl, hd, hp⟩ := compile_eq_ok hc
  have hcode : ∀ b ∈ blocks, ∃ d n, StmtCode (fun _ => True) none 0 0 b.body d n :=
    fun _ hmem => Blocks.body_code (fun _ => True) hb hp (fun _ _ _ _ => trivial) hmem
  have htrims := (Block.plain hcode).trims
  refine ⟨htrims, fun hl => ?_⟩
  have hid : blocks.map (Block.finished false) = blocks := List.map_id blocks
  have hload := @Program.exists_image p false sigs blocks hb hd hp
  rw [hid] at hload
  have himage := htrims.image
  rw [(hload hl).1] at himage
  obtain ⟨image', hload', halike⟩ := himage.exists_ok
  exact ⟨.ofBlocks blocks, image', (hload hl).1, hload', halike⟩

def Program.one : Program where
  functions := [⟨"main", [], [.declare "x" (.literal (.int 1)), .ret (some (.ident "x"))]⟩]

def Program.one.code : List Instruction :=
  [.define "main", .mov (.int 1) acc, .mov acc (.heap 0), .mov (.heap 0) acc, .ret]

theorem Program.optimize_compile_one :
    Program.one.compile = .ok Program.one.code ∧
      optimize Program.one.code =
        [.define "main", .mov (.int 1) acc, .mov acc (.heap 0), .ret] ∧
      Trims Program.one.code ∧ ∃ image image',
        Image.ofInstructions Program.one.code = .ok image ∧
          Image.ofInstructions (optimize Program.one.code) = .ok image' ∧ image.Alike image' := by
  have hcompile : Program.one.compile = .ok Program.one.code := by decide +kernel
  obtain ⟨htrims, hloads⟩ := Program.optimize_compile hcompile
  exact ⟨hcompile, by decide +kernel, htrims, hloads (by decide)⟩

end BlueCode
