import BlueCode.Proofs.OperandErrors

namespace BlueCode

/-- The instructions that write a routine: its marker, and then its code. -/
def Routine.listing (r : Routine) : List Instruction :=
  .define r.name :: r.code.toList

namespace Block

def ofRoutine (r : Routine) : Block :=
  ⟨r.name, r.code.toList⟩

@[simp] theorem ofRoutine_routine (b : Block) : ofRoutine b.routine = b := by
  rw [ofRoutine, routine, Routine.ofBody_name, Routine.ofBody_code]

end Block

namespace Image

variable {blocks : List Block}

theorem ofBlocks_perm {others : List Block} (hp : others.Perm blocks)
    (hd : (blocks.map Block.name).Nodup) : ofBlocks others = ofBlocks blocks := by
  have hd' : (others.map Block.name).Nodup := (hp.map Block.name).nodup_iff.2 hd
  suffices (ofBlocks others).routines = (ofBlocks blocks).routines from congrArg Image.mk this
  apply Std.ExtTreeMap.ext_getElem?
  intro name
  apply Option.ext
  intro r
  change (ofBlocks others).find? name = some r ↔ (ofBlocks blocks).find? name = some r
  rw [find?_ofBlocks hd', find?_ofBlocks hd]
  simp only [hp.mem_iff]

theorem toList_ofBlocks (hd : (blocks.map Block.name).Nodup) :
    (ofBlocks blocks).toList.Perm (blocks.map Block.routine) := by
  have pairs : (ofBlocks blocks).routines.toList.Perm
      (blocks.map fun b => (b.name, b.routine)) := by
    apply (List.perm_ext_iff_of_nodup ?_ ?_).2
    · rintro ⟨name, r⟩
      rw [Std.ExtTreeMap.mem_toList_iff_getElem?_eq_some]
      change (ofBlocks blocks).find? name = some r ↔ _
      rw [find?_ofBlocks hd, List.mem_map]
      simp only [Prod.mk.injEq]
    · apply List.Pairwise.imp _ Std.ExtTreeMap.distinct_keys_toList
      rintro a b hne rfl
      exact hne Std.compare_self
    · apply List.Nodup.of_map Prod.fst
      rw [List.map_map]
      exact hd
  have routines := pairs.map Prod.snd
  rw [List.map_map] at routines
  exact routines

/-- The instructions of the routines, in any order, are those of the image. -/
theorem ofInstructions_listings (hd : (blocks.map Block.name).Nodup)
    (hl : ∀ b ∈ blocks, Routine.Loadable b.body) {routines : List Routine}
    (hp : routines.Perm (ofBlocks blocks).toList) :
    ofInstructions (routines.flatMap Routine.listing) = .ok (ofBlocks blocks) := by
  have others : (routines.map Block.ofRoutine).Perm blocks := by
    have h := (hp.trans (toList_ofBlocks hd)).map Block.ofRoutine
    simp only [List.map_map, Function.comp_def, Block.ofRoutine_routine, List.map_id'] at h
    exact h
  have code : routines.flatMap Routine.listing =
      (routines.map Block.ofRoutine).flatMap Block.code := by
    rw [List.flatMap_map]
    rfl
  rw [code, ofInstructions_blocks ((others.map Block.name).nodup_iff.2 hd)
    fun b hb => hl b (others.subset hb), ofBlocks_perm others hd]

theorem exists_find?_of_mem_toList {image : Image} {r : Routine} (h : r ∈ image.toList) :
    ∃ name, image.find? name = some r := by
  obtain ⟨⟨name, r⟩, hmem, rfl⟩ := List.mem_map.1 h
  exact ⟨name, Std.ExtTreeMap.mem_toList_iff_getElem?_eq_some.1 hmem⟩

end Image

theorem Instruction.listing_shaped {r : Routine} (hname : Text.isWord r.name.toList = true)
    (hcode : ∀ i ∈ r.code, i.Shaped) : ∀ i ∈ r.listing, i.Shaped := by
  intro i hi
  rcases List.mem_cons.1 hi with rfl | hi
  · refine ⟨rfl, .cons rfl .nil, fun o ho => ?_⟩
    cases List.mem_singleton.1 ho
    exact hname
  · exact hcode i (Array.mem_toList_iff.1 hi)

theorem name_of_load {text : String} {image : Image} (h : load text = .ok image) {name : String}
    {r : Routine} (hf : image.find? name = some r) : r.name = name := by
  obtain ⟨blocks, -, hd, -, rfl⟩ := exists_blocks_of_load h
  obtain ⟨b, -, rfl, rfl⟩ := (Image.find?_ofBlocks hd name r).1 hf
  exact Routine.ofBody_name ..

theorem address_range_of_load {text : String} {image : Image} (h : load text = .ok image)
    {name : String} {r : Routine} (hf : image.find? name = some r) {i : Instruction}
    (hi : i ∈ r.code) {address : Int64} (ha : .heap address ∈ i.operands) :
    0 ≤ address ∧ address < Int64.maxValue := by
  have bounded : r.Bounded := bounded_of_load h hf
  obtain ⟨hsrc, hdst⟩ := bounded.operands i hi
  have below : address.toInt < r.frameSize := by
    rcases List.mem_append.1 ha with ha | ha
    · have := hsrc address (Option.mem_toList.1 ha)
      omega
    · have := hdst address (Option.mem_toList.1 ha)
      omega
  refine ⟨((shaped_of_load h hf).2 i hi).legible _ ha, ?_⟩
  apply Int64.lt_iff_toInt_lt.2
  exact below.trans_le bounded.fits

/-- Code that comes from a text is in the form of the loader, and comes from the text of its
listings, too, in any order; and none of its runs fails because of an instruction's operands. -/
theorem listings_of_load {text : String} {image : Image} (h : load text = .ok image) :
    (∀ r ∈ image.toList, ∀ i ∈ r.code, i.Shaped ∧
      ∀ address, .heap address ∈ i.operands → 0 ≤ address ∧ address < Int64.maxValue) ∧
    ((∀ r ∈ image.toList, ∀ i ∈ r.code, ∀ o ∈ i.operands, o.ReadsBack) →
      ∀ routines : List Routine, routines.Perm image.toList →
        load (assemble (routines.flatMap Routine.listing)) = .ok image) ∧
    ∀ settings fuel o e, image.run settings fuel = some o → o.result = .error e →
      e.code ≠ "VAR-R008" ∧ e ≠ .missingOperand ∧ ∀ name, e ≠ .nameAsValue name := by
  have shaped {r : Routine} (hr : r ∈ image.toList) :
      Text.isWord r.name.toList = true ∧ ∀ i ∈ r.code, i.Shaped := by
    obtain ⟨name, hf⟩ := Image.exists_find?_of_mem_toList hr
    rw [name_of_load h hf]
    exact shaped_of_load h hf
  refine ⟨?_, ?_, ?_⟩
  · intro r hr i hi
    obtain ⟨name, hf⟩ := Image.exists_find?_of_mem_toList hr
    exact ⟨(shaped hr).2 i hi, fun _ ha => address_range_of_load h hf hi ha⟩
  · intro readsBack routines hp
    have listed : ∀ i ∈ routines.flatMap Routine.listing,
        i.Shaped ∧ ∀ o ∈ i.operands, o.ReadsBack := by
      intro i hi
      obtain ⟨r, hr, hi⟩ := List.mem_flatMap.1 hi
      have hr : r ∈ image.toList := hp.subset hr
      refine ⟨Instruction.listing_shaped (shaped hr).1 (shaped hr).2 i hi, ?_⟩
      rcases List.mem_cons.1 hi with rfl | hi
      · intro o ho
        cases List.mem_singleton.1 ho
        trivial
      · exact readsBack r hr i (Array.mem_toList_iff.1 hi)
    obtain ⟨blocks, -, hd, hl, rfl⟩ := exists_blocks_of_load h
    rw [load, Loader.lines_assemble (fun i hi => (listed i hi).1.newline_notMem)
      fun i hi n => (listed i hi).1.read_chars (listed i hi).2 n]
    exact Image.ofInstructions_listings hd hl hp
  · intro settings fuel o e hrun he
    have spared : e.isOperandError = false := isOperandError_of_load h hrun he
    refine ⟨?_, ?_, ?_⟩
    · intro hcode
      rw [RunError.isOperandError_of_code hcode] at spared
      cases spared
    · rintro rfl
      cases spared
    · rintro name rfl
      cases spared

def Loader.irregular : String :=
  "--main\n  MOV +5 RA ; five\nmov .5\t[+3]\n\nmov \"a;b\"[RSP]\npt x\nJNE ra x\ncall f\n--f\nRET"

theorem listings_of_load_irregular :
    ∃ image, load Loader.irregular = .ok image ∧ image.toList.length = 2 ∧
      load (assemble (image.toList.reverse.flatMap Routine.listing)) = .ok image := by
  have checks : ((load Loader.irregular).map fun image => decide (image.toList.length = 2 ∧
      ∀ r ∈ image.toList, ∀ i ∈ r.code, ∀ o ∈ i.operands, o.ReadsBack)) = .ok true := by
    decide +kernel
  cases h : load Loader.irregular with
  | error e =>
    rw [h] at checks
    cases checks
  | ok image =>
    rw [h] at checks
    obtain ⟨two, readsBack⟩ := of_decide_eq_true (Except.ok.inj checks)
    exact ⟨image, rfl, two,
      (listings_of_load h).2.1 readsBack image.toList.reverse (List.reverse_perm _)⟩

end BlueCode
