import BlueCode.Proofs.LoadedCode
import BlueCode.Proofs.StackDiscipline
import BlueCode.Proofs.StepEffects

namespace BlueCode

open State (SameOn Within)

namespace Routine

/-- All cells that the code names lie in the frame, and the frame has a last address. -/
structure Bounded (r : Routine) : Prop where
  fits : (r.frameSize : Int) ≤ Int64.maxValue.toInt
  operands : ∀ i ∈ r.code, Within 0 r.frameSize 0 i.src ∧ Within 0 r.frameSize 0 i.dst

theorem Bounded.within {r : Routine} (h : r.Bounded) {i : Instruction} (hi : i ∈ r.code)
    (base : Nat) : Within base r.frameSize base i.src ∧ Within base r.frameSize base i.dst := by
  obtain ⟨hsrc, hdst⟩ := h.operands i hi
  refine ⟨fun address ha => ?_, fun address ha => ?_⟩
  · obtain ⟨hl, hu⟩ := hsrc address ha
    omega
  · obtain ⟨hl, hu⟩ := hdst address ha
    omega

theorem room_heap {address : Int64} (h : 0 ≤ address) :
    (Instruction.room (some (.heap address)) : Int) = address.toInt + 1 := by
  have : 0 ≤ address.toInt := by simpa using Int64.le_iff_toInt_le.1 h
  simp only [Instruction.room]
  omega

theorem room_le_maxValue {o : Option Operand} (h : o ≠ some (.heap Int64.maxValue)) :
    (Instruction.room o : Int) ≤ Int64.maxValue.toInt := by
  unfold Instruction.room
  split
  · next address =>
    have hle : address.toInt ≤ Int64.maxValue.toInt := Int64.toInt_le address
    have hne : address.toInt ≠ Int64.maxValue.toInt := fun he =>
      h (by rw [Int64.toInt_inj.1 he])
    have : (0 : Int) ≤ Int64.maxValue.toInt := by decide
    omega
  · decide

theorem within_of_room {o : Option Operand} {size : Nat} (hroom : Instruction.room o ≤ size)
    (ho : ∀ address, o = some (.heap address) → 0 ≤ address) : Within 0 size 0 o := by
  intro address ha
  have hpos := ho address ha
  have hcell := room_heap hpos
  rw [← ha] at hcell
  have : 0 ≤ address.toInt := by simpa using Int64.le_iff_toInt_le.1 hpos
  omega

end Routine

theorem Instruction.Shaped.address_nonneg {i : Instruction} (h : i.Shaped) {address : Int64}
    (ha : i.src = some (.heap address) ∨ i.dst = some (.heap address)) : 0 ≤ address := by
  have hmem : Operand.heap address ∈ i.operands := by
    rcases ha with ha | ha <;> simp [Instruction.operands, ha]
  exact h.legible _ hmem

theorem Block.bounded {b : Block} (hshaped : ∀ i ∈ b.body, i.Shaped)
    (hl : Routine.Loadable b.body) : b.routine.Bounded where
  fits := by
    have hle : b.routine.frameSize ≤ Int64.maxValue.toInt.toNat := by
      refine (Routine.ofBody_frameSize_le_iff b.name b.body _).2 fun i hi => ?_
      obtain ⟨hsrc, hdst⟩ := hl.addresses i hi
      have := Routine.room_le_maxValue hsrc
      have := Routine.room_le_maxValue hdst
      omega
    have : (0 : Int) ≤ Int64.maxValue.toInt := by decide
    omega
  operands i hi := by
    have hmem : i ∈ b.body := by simpa [Block.routine] using hi
    obtain ⟨hsrc, hdst⟩ := @Routine.room_le_frameSize b.name b.body i hmem
    exact ⟨Routine.within_of_room hsrc fun _ ha => (hshaped i hmem).address_nonneg (.inl ha),
      Routine.within_of_room hdst fun _ ha => (hshaped i hmem).address_nonneg (.inr ha)⟩

theorem bounded_of_load {text : String} {image : Image} (h : load text = .ok image) {name : String}
    {r : Routine} (hf : image.find? name = some r) : r.Bounded := by
  obtain ⟨blocks, hshaped, hd, hl, rfl⟩ := exists_blocks_of_load h
  obtain ⟨b, hb, -, rfl⟩ := (Image.find?_ofBlocks hd name r).1 hf
  refine Block.bounded (fun i hi => hshaped i ?_) (hl b hb)
  exact List.mem_flatMap.2 ⟨b, hb, List.mem_cons_of_mem _ hi⟩

namespace State

def frames (s : State) : List Frame :=
  s.frame :: s.callers.toList.reverse

theorem length_frames (s : State) : s.frames.length = s.depth := by
  simp [frames, depth]

end State

/-- Calls, the latest first, each of which starts where the cells of its caller end. -/
inductive Nested (settings : Settings) (image : Image) : List Frame → Prop where
  | main {main : Routine} {position : Nat} : image.find? "main" = some main →
      Nested settings image [⟨main, position, 0⟩]
  | call {name : String} {callee : Routine} {position : Nat} {caller : Frame}
      {callers : List Frame} : Nested settings image (caller :: callers) →
      image.find? name = some callee → (caller :: callers).length < settings.maxCallDepth →
      ((caller.base + caller.routine.frameSize : Nat) : Int) + callee.frameSize ≤
        Int64.maxValue.toInt →
      Nested settings image
        (⟨callee, position, caller.base + caller.routine.frameSize⟩ :: caller :: callers)

namespace Nested

variable {settings : Settings} {image : Image} {frame : Frame} {callers frames : List Frame}

theorem goto (h : Nested settings image (frame :: callers)) (position : Nat) :
    Nested settings image ({ frame with position := position } :: callers) := by
  cases h with
  | main hf => exact .main hf
  | call h hf hd hfits => exact .call h hf hd hfits

theorem tail {caller : Frame} (h : Nested settings image (frame :: caller :: callers)) :
    Nested settings image (caller :: callers) := by
  cases h with
  | call h => exact h

theorem length_le (h : Nested settings image frames) :
    1 ≤ frames.length ∧ frames.length ≤ max 1 settings.maxCallDepth := by
  cases h with
  | main => exact ⟨Nat.le_refl 1, Nat.le_max_left ..⟩
  | call h hf hd hfits =>
    simp only [List.length_cons] at hd ⊢
    omega

theorem isChain (h : Nested settings image frames) :
    frames.IsChain fun callee caller => callee.base = caller.base + caller.routine.frameSize := by
  induction h with
  | main => exact .singleton _
  | call _ _ _ _ ih => exact .cons_cons rfl ih

theorem main_eq (h : Nested settings image frames) :
    ∃ main position, image.find? "main" = some main ∧
      frames.getLast? = some ⟨main, position, 0⟩ := by
  induction h with
  | main hf => exact ⟨_, _, hf, rfl⟩
  | call _ _ _ _ ih =>
    obtain ⟨main, position, hf, hl⟩ := ih
    exact ⟨main, position, hf, by rw [List.getLast?_cons_cons, hl]⟩

theorem exists_name (h : Nested settings image frames) (hm : frame ∈ frames) :
    ∃ name, image.find? name = some frame.routine := by
  induction h with
  | main hf =>
    cases List.mem_singleton.1 hm
    exact ⟨_, hf⟩
  | call _ hf _ _ ih =>
    rcases List.mem_cons.1 hm with rfl | hm
    · exact ⟨_, hf⟩
    · exact ih hm

theorem fits (himage : ∀ name r, image.find? name = some r → r.Bounded)
    (h : Nested settings image frames) (hm : frame ∈ frames) :
    (frame.base : Int) + frame.routine.frameSize ≤ Int64.maxValue.toInt := by
  induction h with
  | main hf =>
    cases List.mem_singleton.1 hm
    simpa using (himage _ _ hf).fits
  | call _ _ _ hfits ih =>
    rcases List.mem_cons.1 hm with rfl | hm
    · exact hfits
    · exact ih hm

theorem caller_le (h : Nested settings image (frame :: callers)) {caller : Frame}
    (hm : caller ∈ callers) : caller.base + caller.routine.frameSize ≤ frame.base := by
  generalize he : frame :: callers = frames at h
  induction h generalizing frame callers with
  | main =>
    cases he
    exact absurd hm List.not_mem_nil
  | call _ _ _ _ ih =>
    cases he
    rcases List.mem_cons.1 hm with rfl | hm
    · exact Nat.le_refl _
    · exact (ih hm rfl).trans (Nat.le_add_right ..)

/-- A call that starts behind others starts at no lower cell. -/
theorem base_le (h : Nested settings image (frame :: callers)) {base : Nat} {bases : List Nat}
    (hs : base :: bases <:+ (frame :: callers).map Frame.base) : base ≤ frame.base := by
  obtain ⟨first, hm, rfl⟩ := List.mem_map.1 (hs.subset List.mem_cons_self)
  rcases List.mem_cons.1 hm with rfl | hm
  · exact Nat.le_refl _
  · exact (Nat.le_add_right ..).trans (h.caller_le hm)

end Nested

namespace State

variable {settings : Settings} {image : Image} {s next entry : State} {transition : Transition}

theorem SameCalls.frames (h : s.SameCalls next) :
    next.frames = { s.frame with position := next.frame.position } :: s.callers.toList.reverse := by
  obtain ⟨registers, heap, stack, ⟨routine, position, base⟩, callers⟩ := next
  obtain ⟨rfl, rfl, rfl⟩ := h
  rfl

theorem frames_of_back? {caller : Frame} (h : s.callers.back? = some caller) :
    s.frames = s.frame :: caller :: s.callers.pop.toList.reverse := by
  obtain ⟨callers, last, he⟩ : ∃ callers : Array Frame, ∃ last, s.callers = callers.push last :=
    Array.eq_push_of_size_ne_zero fun h0 => by simp [Array.eq_empty_of_size_eq_zero h0] at h
  rw [he, Array.back?_push] at h
  cases h
  simp [State.frames, he]

theorem Yields.nested (h : Yields settings image s transition) (hs : Nested settings image s.frames)
    (hn : transition.next? = some next) : Nested settings image next.frames := by
  cases h with
  | moved hsame => cases hn; rw [hsame.frames]; exact hs.goto _
  | stored _ _ _ hsame => cases hn; rw [hsame.frames]; exact hs.goto _
  | printed hsame => cases hn; rw [hsame.frames]; exact hs.goto _
  | entered hf hd hfits _ hframe hcallers =>
    cases hn
    rw [State.frames, hframe, hcallers]
    simp only [Array.toList_push, List.reverse_append, List.reverse_cons, List.reverse_nil,
      List.nil_append, List.singleton_append]
    refine .call hs hf ?_ hfits
    rw [← State.frames, length_frames]
    exact Nat.lt_of_not_le hd
  | left hcaller _ hframe hcallers =>
    cases hn
    rw [frames_of_back? hcaller] at hs
    rw [State.frames, hframe, hcallers]
    exact hs.tail.goto _
  | halted => cases hn

theorem Reachable.nested (h : s.Reachable settings image) : Nested settings image s.frames := by
  induction h with
  | start hf => exact .main hf
  | step _ hs hn ih => exact (yields_step hs).nested ih hn

/-- The cells outside a range are as they were. -/
def Keeps (base size : Nat) (s next : State) : Prop :=
  ∀ cell : Int, ¬ (base ≤ cell ∧ cell < base + size) → next.heap.get? cell = s.heap.get? cell

theorem Keeps.of_eq {base size : Nat} (h : next.heap = s.heap) : Keeps base size s next :=
  fun cell _ => congrArg (Memory.get? · cell) h

theorem Yields.keeps (h : Yields settings image s transition) (hr : s.frame.routine.Bounded)
    (hn : transition.next? = some next) (he : ∀ t, transition ≠ .entered t) :
    Keeps s.frame.base s.frame.routine.frameSize s next := by
  cases h with
  | moved _ hheap => cases hn; exact .of_eq hheap
  | printed _ hheap => cases hn; exact .of_eq hheap
  | left _ hheap => cases hn; exact .of_eq hheap
  | halted => cases hn
  | entered => exact absurd rfl (he _)
  | stored hi hdst hcell _ hheap =>
    cases hn
    obtain ⟨rfl, -⟩ := cell_eq_ok hcell
    have hin := (hr.within (Array.mem_of_getElem? hi) s.frame.base).2 _ hdst
    intro cell hout
    rw [hheap, Memory.get?_set, if_neg]
    rintro rfl
    exact hout hin

theorem Yields.cleared (h : Yields settings image s (.entered next)) (cell : Int) :
    next.heap.get? cell =
      if next.frame.base ≤ cell ∧ cell < next.frame.base + next.frame.routine.frameSize then none
      else s.heap.get? cell := by
  cases h with
  | entered _ _ _ hheap hframe =>
    rw [hheap, hframe, Memory.get?_clear]
    push_cast
    rfl

theorem Yields.below (h : Yields settings image s transition) (hr : s.frame.routine.Bounded)
    (hn : transition.next? = some next) {cell : Int} (hc : cell < s.frame.base) :
    next.heap.get? cell = s.heap.get? cell := by
  by_cases he : ∃ t, transition = .entered t
  · obtain ⟨t, rfl⟩ := he
    cases hn
    rw [h.cleared, if_neg]
    cases h with
    | entered _ _ _ _ hframe =>
      rw [hframe]
      push_cast
      omega
  · exact h.keeps hr hn (fun t ht => he ⟨t, ht⟩) cell (by omega)

/-- A step adds a call, or takes one away, or leaves the calls where they are. -/
theorem Yields.bases (h : Yields settings image s transition) (hn : transition.next? = some next) :
    s.frames.map Frame.base <:+ next.frames.map Frame.base ∨
      next.frames.map Frame.base <:+ s.frames.map Frame.base := by
  cases h with
  | moved hsame => cases hn; rw [hsame.frames]; exact .inl (List.suffix_refl _)
  | stored _ _ _ hsame => cases hn; rw [hsame.frames]; exact .inl (List.suffix_refl _)
  | printed hsame => cases hn; rw [hsame.frames]; exact .inl (List.suffix_refl _)
  | entered _ _ _ _ _ hcallers =>
    cases hn
    left
    simp only [frames, hcallers, Array.toList_push, List.reverse_append, List.reverse_singleton,
      List.singleton_append, List.map_cons]
    exact List.suffix_cons ..
  | left hcaller _ hframe hcallers =>
    cases hn
    right
    rw [frames_of_back? hcaller, frames, hframe, hcallers]
    exact List.suffix_cons ..
  | halted => cases hn

theorem Live.bases (h : entry.Live settings image s) :
    entry.frames.map Frame.base <:+ s.frames.map Frame.base := by
  induction h with
  | entry => exact List.suffix_refl _
  | step _ hs hn hd ih =>
    rcases (yields_step hs).bases hn with hsuffix | hsuffix
    · exact ih.trans hsuffix
    · refine List.suffix_of_suffix_length_le ih hsuffix ?_
      simpa only [List.length_map, length_frames] using hd

/-- While a call is live no cell below its own is changed. -/
theorem Live.keeps_below (himage : ∀ name r, image.find? name = some r → r.Bounded)
    (he : entry.Reachable settings image) (h : entry.Live settings image s) {cell : Int}
    (hc : cell < entry.frame.base) : s.heap.get? cell = entry.heap.get? cell := by
  induction h with
  | entry => rfl
  | step hlive hs hn _ ih =>
    -- The call that takes the step is the entered one or lies behind it.
    have nested := (hlive.reachable he).nested
    obtain ⟨name, hf⟩ := nested.exists_name List.mem_cons_self
    have hbase : entry.frame.base ≤ _ := nested.base_le hlive.bases
    rw [(yields_step hs).below (himage name _ hf) hn (by omega), ih]

end State

/-- What calls have to do with the heap: where their cells are, and who uses them. -/
structure Isolation (settings : Settings) (image : Image) : Prop where
  depth {s : State} : s.Reachable settings image →
    1 ≤ s.frames.length ∧ s.frames.length ≤ max 1 settings.maxCallDepth
  /-- The outermost call is that of the main routine. -/
  main {s : State} : s.Reachable settings image →
    ∃ main position, image.find? "main" = some main ∧ s.frames.getLast? = some ⟨main, position, 0⟩
  adjacent {s : State} : s.Reachable settings image →
    s.frames.IsChain fun callee caller => callee.base = caller.base + caller.routine.frameSize
  fits {s : State} {frame : Frame} : s.Reachable settings image → frame ∈ s.frames →
    (frame.base : Int) + frame.routine.frameSize ≤ Int64.maxValue.toInt
  /-- The cells that an instruction names have addresses, and they are the call's own. -/
  operands {s : State} {i : Instruction} {address : Int64} : s.Reachable settings image →
    s.instruction? = some i → i.src = some (.heap address) ∨ i.dst = some (.heap address) →
    ∃ cell : Int, State.cell s.frame.base address.toInt = .ok cell ∧ s.frame.base ≤ cell ∧
      cell < s.frame.base + s.frame.routine.frameSize
  /-- What a step does depends on no other cell. -/
  reads {s t : State} : s.Reachable settings image →
    SameOn s.frame.base s.frame.routine.frameSize s t →
    Concur (Transition.Both (SameOn s.frame.base s.frame.routine.frameSize))
      (s.step settings image) (t.step settings image)
  /-- A step that starts no call changes no other cell. -/
  writes {s next : State} {transition : Transition} : s.Reachable settings image →
    s.step settings image = .ok transition → transition.next? = some next →
    (∀ t, transition ≠ .entered t) → State.Keeps s.frame.base s.frame.routine.frameSize s next
  entered {s next : State} : s.Reachable settings image →
    s.step settings image = .ok (.entered next) → ∀ cell : Int, next.heap.get? cell =
      if next.frame.base ≤ cell ∧ cell < next.frame.base + next.frame.routine.frameSize then none
      else s.heap.get? cell
  /-- As long as a call is live, the cells of its callers are as they were when it started. -/
  callers {entry s : State} {caller : Frame} : entry.Entry settings image →
    entry.Live settings image s → caller ∈ entry.callers → ∀ cell : Int, caller.base ≤ cell →
      cell < caller.base + caller.routine.frameSize → s.heap.get? cell = entry.heap.get? cell

/-- Calls in code that the loader has accepted are isolated from one another. -/
theorem load_isolation {text : String} {image : Image} (h : load text = .ok image)
    (settings : Settings) : Isolation settings image := by
  have himage (name : String) (r : Routine) (hf : image.find? name = some r) : r.Bounded :=
    bounded_of_load h hf
  have bounded {s : State} (hs : s.Reachable settings image) : s.frame.routine.Bounded := by
    obtain ⟨name, hf⟩ := hs.nested.exists_name List.mem_cons_self
    exact himage name _ hf
  constructor
  case depth => exact fun hs => hs.nested.length_le
  case main => exact fun hs => hs.nested.main_eq
  case adjacent => exact fun hs => hs.nested.isChain
  case fits => exact fun hs hm => hs.nested.fits himage hm
  case operands =>
    intro s i address hs hi ha
    have hwithin := (bounded hs).within (Array.mem_of_getElem? hi) s.frame.base
    obtain ⟨hl, hu⟩ := ha.elim (hwithin.1 address) (hwithin.2 address)
    have hfits := hs.nested.fits himage List.mem_cons_self
    refine ⟨s.frame.base + address.toInt, ?_, hl, hu⟩
    rw [State.cell, if_pos (by omega)]
  case reads =>
    intro s t hs hsame
    exact hsame.step fun i hi => (bounded hs).within (Array.mem_of_getElem? hi) s.frame.base
  case writes =>
    intro s next transition hs hstep hn hne
    exact (State.yields_step hstep).keeps (bounded hs) hn hne
  case entered =>
    intro s next hs hstep cell
    exact (State.yields_step hstep).cleared cell
  case callers =>
    intro entry s caller hentry hlive hcaller cell _ hcell
    have nested := hentry.reachable.nested
    have hle := nested.caller_le (List.mem_reverse.2 (Array.mem_def.1 hcaller))
    refine hlive.keeps_below himage hentry.reachable ?_
    omega

def Loader.recursion : String :=
  "--main\nmov 1 [0]\ncall f\n--f\nmov 2 [3]\ncall f"

theorem load_isolation_recursion :
    ∃ image, load Loader.recursion = .ok image ∧ Isolation {} image := by
  have accepted : (load Loader.recursion).isOk = true := by decide +kernel
  cases h : load Loader.recursion with
  | error e =>
    rw [h] at accepted
    cases accepted
  | ok image => exact ⟨image, rfl, load_isolation h {}⟩

end BlueCode
