import BlueCode.Pipeline
import BlueCode.Proofs.ProperCalls
import BlueCode.Proofs.Thinning

namespace BlueCode

open Compile

namespace Block

def finished (optimized : Bool) (b : Block) : Block :=
  if optimized then b.thinned else b

@[simp] theorem finished_name (optimized : Bool) (b : Block) : (b.finished optimized).name = b.name := by
  cases optimized <;> rfl

theorem names_finished (optimized : Bool) {blocks : List Block}
    (hd : (blocks.map Block.name).Nodup) :
    ((blocks.map (finished optimized)).map Block.name).Nodup := by
  have hname : Block.name ∘ finished optimized = Block.name := funext (finished_name optimized)
  rw [List.map_map, hname]
  exact hd

theorem length_le_of_mem {b : Block} {blocks : List Block} (h : b ∈ blocks) :
    b.body.length + 1 ≤ (blocks.flatMap code).length :=
  (List.sublist_flatten_of_mem (List.mem_map_of_mem (f := code) h)).length_le

end Block

namespace Compile

theorem Blocks.exists_function {sigs : Signatures} {fs : List Function} {blocks : List Block}
    (h : Blocks sigs fs blocks) {b : Block} (hb : b ∈ blocks) :
    ∃ f ∈ fs, b.name = f.name ∧ Compile.function sigs f = .ok b.code := by
  induction h with
  | nil => cases hb
  | cons hfirst _ ih =>
    rcases List.mem_cons.1 hb with rfl | hb
    · exact ⟨_, List.mem_cons_self, hfirst⟩
    · obtain ⟨f, hf, h⟩ := ih hb
      exact ⟨f, List.mem_cons_of_mem _ hf, h⟩

theorem Blocks.exists_block {sigs : Signatures} {fs : List Function} {blocks : List Block}
    (h : Blocks sigs fs blocks) {f : Function} (hf : f ∈ fs) :
    ∃ b ∈ blocks, b.name = f.name ∧ Compile.function sigs f = .ok b.code := by
  induction h with
  | nil => cases hf
  | cons hfirst _ ih =>
    rcases List.mem_cons.1 hf with rfl | hf
    · exact ⟨_, List.mem_cons_self, hfirst⟩
    · obtain ⟨b, hb, h⟩ := ih hf
      exact ⟨b, List.mem_cons_of_mem _ hb, h⟩

theorem Blocks.body_code (callable : String → Prop) {sigs : Signatures} {fs : List Function}
    {blocks : List Block} (h : Blocks sigs fs blocks) (hp : ∀ f ∈ fs, f.params.length ≤ 1)
    (hn : ∀ f ∈ fs, ∀ name ∈ Stmt.listCallees f.body, callable name) {b : Block} (hb : b ∈ blocks) :
    ∃ d n, StmtCode callable none 0 0 b.body d n := by
  obtain ⟨f, hf, -, hcode⟩ := h.exists_function hb
  obtain ⟨body, p, hbody, he⟩ := function_eq_ok (hp f hf) hcode
  obtain ⟨-, he⟩ := List.cons.inj (he : .define b.name :: b.body = _)
  rw [he]
  exact ⟨_, _, function_code callable (hn f hf) (hp f hf) hbody⟩

theorem Blocks.bodies_code {sigs : Signatures} {fs : List Function} {blocks : List Block}
    (h : Blocks sigs fs blocks) (hp : ∀ f ∈ fs, f.params.length ≤ 1) :
    ∀ b ∈ blocks, ∃ d n, StmtCode (fun _ => True) none 0 0 b.body d n :=
  fun _ hb => h.body_code (fun _ => True) hp (fun _ _ _ _ => trivial) hb

end Compile

theorem Program.instructions_of_compile {p : Program} {blocks : List Block}
    (hc : p.compile = .ok (blocks.flatMap Block.code))
    (hcode : ∀ b ∈ blocks, ∃ d n, StmtCode (fun _ => True) none 0 0 b.body d n)
    (optimized : Bool) :
    p.instructions optimized =
      .ok ((blocks.map (Block.finished optimized)).flatMap Block.code) := by
  rw [Program.instructions, hc]
  cases optimized with
  | false =>
    have hid : Block.finished false = id := rfl
    rw [hid, List.map_id]
    rfl
  | true =>
    refine congrArg Except.ok (Block.optimize_flatMap_code fun b hmem => ?_)
    obtain ⟨d, n, hbody⟩ := hcode b hmem
    exact hbody.apart

theorem Program.instructions_eq_ok {p : Program} {optimized : Bool} {code : List Instruction}
    (h : p.instructions optimized = .ok code) :
    ∃ sigs blocks, signatures [] p.functions = .ok sigs ∧ Blocks sigs p.functions blocks ∧
      code = (blocks.map (Block.finished optimized)).flatMap Block.code ∧
      (blocks.map Block.name).Nodup ∧ ∀ f ∈ p.functions, f.params.length ≤ 1 := by
  cases hc : p.compile with
  | error e =>
    rw [Program.instructions, hc] at h
    cases h
  | ok whole =>
    obtain ⟨sigs, blocks, hs, hb, rfl, hd, hp⟩ := compile_eq_ok hc
    refine ⟨sigs, blocks, hs, hb, ?_, hd, hp⟩
    have hcode := instructions_of_compile hc (hb.bodies_code hp) optimized
    exact Except.ok.inj (h.symm.trans hcode)

theorem Compile.StmtCode.tidy_finished {callable : String → Prop} {d n : Nat} {b : Block}
    (h : StmtCode callable none 0 0 b.body d n) (optimized : Bool) :
    Tidy callable d (b.finished optimized).body := by
  cases optimized with
  | false => exact h.tidy
  | true => exact h.tidy.thin b.name

theorem Block.flatMap_finished_length_le (optimized : Bool) (blocks : List Block) :
    ((blocks.map (finished optimized)).flatMap code).length ≤ (blocks.flatMap code).length := by
  cases optimized with
  | false =>
    have hid : finished false = id := rfl
    rw [hid, List.map_id]
  | true =>
    have hthinned : finished true = thinned := rfl
    rw [hthinned, ← thin_flatMap_code .ret]
    exact thin_length_le _ _

theorem Block.exists_image {optimized : Bool} {blocks : List Block}
    (hd : (blocks.map Block.name).Nodup)
    (hcode : ∀ b ∈ blocks, ∃ d n, StmtCode (fun _ => True) none 0 0 b.body d n)
    (hl : ((blocks.map (finished optimized)).flatMap code).length < 2 ^ 63) :
    Image.ofInstructions ((blocks.map (finished optimized)).flatMap code) =
        .ok (.ofBlocks (blocks.map (finished optimized))) ∧
      (Image.ofBlocks (blocks.map (finished optimized))).Compiled
        ((blocks.map (finished optimized)).flatMap code).length := by
  have hd' := names_finished optimized hd
  have htidy : ∀ b ∈ blocks.map (finished optimized),
      ∃ declared, Tidy (fun _ => True) declared b.body := by
    intro b hfinished
    obtain ⟨b, hmem, rfl⟩ := List.mem_map.1 hfinished
    obtain ⟨d, n, hbody⟩ := hcode b hmem
    exact ⟨d, hbody.tidy_finished optimized⟩
  have hlength : ∀ b ∈ blocks.map (finished optimized), b.body.length <
      ((blocks.map (finished optimized)).flatMap code).length :=
    fun b hmem => length_le_of_mem hmem
  constructor
  · apply Image.ofInstructions_blocks hd'
    intro b hmem
    obtain ⟨declared, h⟩ := htidy b hmem
    exact h.loadable (Nat.lt_trans (hlength b hmem) hl)
  · exact Image.compiled_ofBlocks hd' hl fun b hmem => ⟨Nat.le_of_lt (hlength b hmem), htidy b hmem⟩

/-- The code of a program loads, as the image of its functions. -/
theorem Program.exists_image {p : Program} {optimized : Bool} {sigs : Signatures}
    {blocks : List Block} (hb : Blocks sigs p.functions blocks)
    (hd : (blocks.map Block.name).Nodup) (hp : ∀ f ∈ p.functions, f.params.length ≤ 1)
    (hl : ((blocks.map (Block.finished optimized)).flatMap Block.code).length < 2 ^ 63) :
    Image.ofInstructions ((blocks.map (Block.finished optimized)).flatMap Block.code) =
        .ok (.ofBlocks (blocks.map (Block.finished optimized))) ∧
      (Image.ofBlocks (blocks.map (Block.finished optimized))).Compiled
        ((blocks.map (Block.finished optimized)).flatMap Block.code).length :=
  Block.exists_image hd (hb.bodies_code hp) hl

def Program.factorial : Program where
  functions :=
    [⟨"main", [], [.effect (.call "print" [.call "factorial" [.literal (.int 5)]])]⟩,
      ⟨"factorial", ["n"],
        [.branch (.compare .lt (.ident "n") (.literal (.int 2))) [.ret (some (.literal (.int 1)))] none,
          .ret (some (.arith .mul (.ident "n")
            (.call "factorial" [.arith .sub (.ident "n") (.literal (.int 1))])))]⟩]

end BlueCode
