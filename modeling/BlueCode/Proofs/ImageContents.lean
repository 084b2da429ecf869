import BlueCode.Proofs.LoadedCode

namespace BlueCode

open Compile

namespace Block

/-- The functions of a list of instructions: each has the name on its marker and what stands between
this marker and the next one. -/
def ofCode : List Instruction → List Block
  | [] => []
  | i :: rest =>
    if i.op = .define then ⟨i.target, rest.takeWhile (·.op != .define)⟩ :: ofCode rest
    else ofCode rest

/-- The function that a list of instructions ends in. -/
inductive Last : List Instruction → Block → Prop where
  | mk (front : List Instruction) {marker : Instruction} {body : List Instruction} :
      marker.op = .define → (∀ i ∈ body, i.op ≠ .define) →
      Last (front ++ marker :: body) ⟨marker.target, body⟩

variable {code body : List Instruction} {i marker : Instruction} {b : Block} {name : String}

theorem takeWhile_markerless (h : ∀ i ∈ body, i.op ≠ .define) :
    body.takeWhile (·.op != .define) = body :=
  List.takeWhile_eq_self_iff.2 fun i hi => bne_iff_ne.2 (h i hi)

theorem takeWhile_append_marker (front : List Instruction) (hm : marker.op = .define) :
    (front ++ marker :: body).takeWhile (·.op != .define) = front.takeWhile (·.op != .define) := by
  induction front with
  | nil => simp [hm]
  | cons i front ih => rw [List.cons_append, List.takeWhile_cons, List.takeWhile_cons, ih]

theorem ofCode_markerless (h : ∀ i ∈ body, i.op ≠ .define) : ofCode body = [] := by
  induction body with
  | nil => rfl
  | cons i body ih =>
    obtain ⟨hi, hbody⟩ := List.forall_mem_cons.1 h
    rw [ofCode, if_neg hi, ih hbody]

theorem ofCode_append (front : List Instruction) (hm : marker.op = .define)
    (hb : ∀ i ∈ body, i.op ≠ .define) :
    ofCode (front ++ marker :: body) = ofCode front ++ [⟨marker.target, body⟩] := by
  induction front with
  | nil =>
    simp only [List.nil_append, ofCode, if_pos hm, takeWhile_markerless hb, ofCode_markerless hb]
  | cons i front ih =>
    rw [List.cons_append, ofCode, ofCode, ih, takeWhile_append_marker front hm]
    split <;> rfl

theorem Last.concat (h : Last code b) (hi : i.op ≠ .define) :
    Last (code ++ [i]) ⟨b.name, b.body ++ [i]⟩ := by
  obtain ⟨front, hm, hb⟩ := h
  rw [List.append_assoc, List.cons_append]
  exact .mk front hm (List.forall_mem_append.2 ⟨hb, List.forall_mem_singleton.2 hi⟩)

theorem markerless_or_last (code : List Instruction) :
    (∀ i ∈ code, i.op ≠ .define) ∨ ∃ b, Last code b := by
  induction code using List.reverseRecOn with
  | nil => exact .inl (List.forall_mem_nil _)
  | append_singleton code i ih =>
    by_cases hi : i.op = .define
    · exact .inr ⟨_, .mk code hi (List.forall_mem_nil _)⟩
    rcases ih with hcode | ⟨b, hb⟩
    · exact .inl (List.forall_mem_append.2 ⟨hcode, List.forall_mem_singleton.2 hi⟩)
    · exact .inr ⟨_, hb.concat hi⟩

theorem Last.ofCode_concat (h : Last code b) (hi : i.op ≠ .define) : ∃ done,
    ofCode code = done ++ [b] ∧ ofCode (code ++ [i]) = done ++ [⟨b.name, b.body ++ [i]⟩] := by
  obtain ⟨front, hm, hb⟩ := h
  refine ⟨ofCode front, ofCode_append front hm hb, ?_⟩
  rw [List.append_assoc, List.cons_append]
  exact ofCode_append front hm (List.forall_mem_append.2 ⟨hb, List.forall_mem_singleton.2 hi⟩)

theorem Last.exists_marker (h : Last code b) : ∃ i ∈ code, i.op = .define := by
  obtain ⟨front, hm, -⟩ := h
  exact ⟨_, List.mem_append_right front List.mem_cons_self, hm⟩

theorem Last.unique {b' : Block} (h : Last code b) (h' : Last code b') : b = b' := by
  obtain ⟨front, hm, hb⟩ := h
  generalize hcode : front ++ _ :: _ = code at h'
  obtain ⟨front', hm', hb'⟩ := h'
  have functions := congrArg ofCode hcode
  rw [ofCode_append front hm hb, ofCode_append front' hm' hb'] at functions
  exact List.singleton_inj.1 (List.append_inj' functions rfl).2

theorem exists_mem_ofCode :
    (∃ b ∈ ofCode code, b.name = name) ↔ ∃ i ∈ code, i.op = .define ∧ i.target = name := by
  induction code with
  | nil => simp [ofCode]
  | cons i code ih =>
    rw [ofCode]
    split <;> simp_all

end Block

namespace Routine

/-- The heap cells that an instruction has among its operands. -/
def Uses (i : Instruction) (address : Int64) : Prop :=
  i.src = some (.heap address) ∨ i.dst = some (.heap address)

/-- The ends of the frames that have the heap cells of the code, and the end of the empty one. -/
def frameEnds (code : List Instruction) : Set Int :=
  {0} ∪ {n | ∃ i ∈ code, ∃ address, Uses i address ∧ n = address.toInt + 1}

/-- The routine of a function. -/
structure Describes (r : Routine) (b : Block) : Prop where
  name : r.name = b.name
  code : r.code = b.body.toArray
  markerless : ∀ i ∈ b.body, i.op ≠ .define
  labels : ∀ label k, r.labels[label]? = some k ↔
    ∃ i : Instruction, b.body[k]? = some i ∧ i.op = .label ∧ i.target = label
  distinct : (labelNames b.body).Nodup
  frameSize : IsGreatest (frameEnds b.body) r.frameSize

variable {name : String} {body : List Instruction} {i : Instruction} {line : Nat} {e : LoadError}
  {b : Block}

theorem label?_eq_some_iff {label : String} :
    i.label? = some label ↔ i.op = .label ∧ i.target = label := by
  rw [Instruction.label?]
  split <;> simp_all

theorem room_le_iff {operand : Option Operand} {n : Nat} : Instruction.room operand ≤ n ↔
    ∀ address : Int64, operand = some (.heap address) → address.toInt + 1 ≤ n := by
  unfold Instruction.room
  split
  · next address =>
    rw [Int.toNat_le]
    constructor
    · rintro h _ ⟨⟩
      exact h
    · exact fun h => h address rfl
  · next hne => exact ⟨fun _ address h => absurd h (hne address), fun _ => Nat.zero_le n⟩

theorem frameSize_le_iff {n : Nat} : (ofBody name body).frameSize ≤ n ↔
    ∀ i ∈ body, ∀ address, Uses i address → address.toInt + 1 ≤ n := by
  simp only [ofBody_frameSize_le_iff, room_le_iff, Uses, or_imp, forall_and]

theorem isGreatest_frameSize (name : String) (body : List Instruction) :
    IsGreatest (frameEnds body) (ofBody name body).frameSize := by
  have bounds := frameSize_le_iff.1 (Nat.le_refl (ofBody name body).frameSize)
  constructor
  · by_contra hnone
    -- If no cell ends the frame, then a smaller one has all of them.
    obtain ⟨n, hn⟩ : ∃ n, (ofBody name body).frameSize = n + 1 := by
      refine Nat.exists_eq_succ_of_ne_zero fun h => hnone (.inl ?_)
      rw [h]
      rfl
    have smaller : (ofBody name body).frameSize ≤ n := by
      refine frameSize_le_iff.2 fun i hi address uses => ?_
      have hne : ((ofBody name body).frameSize : Int) ≠ address.toInt + 1 :=
        fun he => hnone (.inr ⟨i, hi, address, uses, he⟩)
      have := bounds i hi address uses
      omega
    omega
  · rintro n (rfl | ⟨i, hi, address, uses, rfl⟩)
    · exact Int.natCast_nonneg _
    · exact bounds i hi address uses

theorem Loadable.describes (h : Loadable b.body) : b.routine.Describes b where
  name := ofBody_name ..
  code := ofBody_code ..
  markerless := h.markerless
  labels label k := by
    simp only [Block.routine, ofBody_labels_getElem? h.labels, Option.bind_eq_some_iff,
      label?_eq_some_iff]
  distinct := h.labels
  frameSize := isGreatest_frameSize ..

theorem reserve_maxValue (r : Routine) : r.reserve line (some (.heap Int64.maxValue)) =
    .error (.badOperand line (Operand.heap Int64.maxValue).text) := by
  rw [reserve, if_pos rfl]

theorem add_eq_error_iff : (ofBody name body).add line i = .error e ↔
    (i.op = .label ∧ i.target ∈ labelNames body) ∧ e = .duplicateLabel name i.target ∨
    ¬(i.op = .label ∧ i.target ∈ labelNames body) ∧ Uses i Int64.maxValue ∧
      e = .badOperand line (Operand.heap Int64.maxValue).text := by
  by_cases hlabel : i.op = .label ∧ i.target ∈ labelNames body
  · have marked : (ofBody name body).mark i = .error (.duplicateLabel name i.target) := by
      rw [mark, if_pos hlabel.1, if_pos ((mem_ofBody_labels ..).2 hlabel.2), ofBody_name]
    simp only [add, marked, hlabel, true_and, not_true, false_and, or_false]
    exact ⟨fun h => (Except.error.inj h).symm, fun h => h ▸ rfl⟩
  · have marked : ∃ r, (ofBody name body).mark i = .ok r := by
      rw [mark]
      split
      · next hop =>
        rw [if_neg fun hmem => hlabel ⟨hop, (mem_ofBody_labels ..).1 hmem⟩]
        exact ⟨_, rfl⟩
      · exact ⟨_, rfl⟩
    obtain ⟨r, marked⟩ := marked
    have hiff : (ofBody name body).add line i = .error e ↔ Uses i Int64.maxValue ∧
        e = .badOperand line (Operand.heap Int64.maxValue).text := by
      rw [add, marked]
      by_cases hsrc : i.src = some (.heap Int64.maxValue)
      · have uses : Uses i Int64.maxValue := .inl hsrc
        simp only [bind, Except.bind, hsrc, reserve_maxValue, uses, true_and, Except.error.injEq]
        exact eq_comm
      · by_cases hdst : i.dst = some (.heap Int64.maxValue)
        · have uses : Uses i Int64.maxValue := .inr hdst
          simp only [bind, Except.bind, reserve_eq _ _ hsrc, hdst, reserve_maxValue, uses,
            true_and, Except.error.injEq]
          exact eq_comm
        · have unused : ¬Uses i Int64.maxValue := fun h => h.elim hsrc hdst
          simp only [bind, Except.bind, reserve_eq _ _ hsrc, reserve_eq _ _ hdst, unused,
            false_and, iff_false]
          intro h
          cases h
    simp only [hiff, hlabel, false_and, false_or, not_false_iff, true_and]

end Routine

namespace Image

theorem bind_pure_eq_error_iff {α β : Type} {x : Except LoadError α} {f : α → β} {e : LoadError} :
    (x >>= fun a => pure (f a)) = .error e ↔ x = .error e := by
  cases x with
  | error =>
    constructor
    all_goals exact fun h => congrArg _ (Except.error.inj h)
  | ok => exact ⟨nofun, nofun⟩

/-- The ways in which an instruction cannot follow the ones before it. -/
inductive Fault (before : List Instruction) (i : Instruction) : LoadError → Prop where
  | orphan : i.op ≠ .define → (∀ j ∈ before, j.op ≠ .define) →
      Fault before i (.orphan (before.length + 1))
  | function : i.op = .define → (∃ j ∈ before, j.op = .define ∧ j.target = i.target) →
      Fault before i (.duplicateFunction i.target)
  | label {b : Block} : Block.Last before b → i.op = .label → i.target ∈ labelNames b.body →
      Fault before i (.duplicateLabel b.name i.target)
  | address {b : Block} : Block.Last before b → i.op ≠ .define →
      ¬(i.op = .label ∧ i.target ∈ labelNames b.body) → Routine.Uses i Int64.maxValue →
      Fault before i (.badOperand (before.length + 1) (Operand.heap Int64.maxValue).text)

/-- The image of a list of instructions: one routine for each of its functions. -/
structure Holds (image : Image) (code : List Instruction) : Prop where
  names : ((Block.ofCode code).map Block.name).Nodup
  stored : ∀ b ∈ Block.ofCode code, ∃ r, image.find? b.name = some r ∧ r.Describes b
  found : ∀ name r, image.find? name = some r →
    ∃ b ∈ Block.ofCode code, b.name = name ∧ r.Describes b

namespace Fault

variable {before : List Instruction} {i : Instruction} {b : Block} {e : LoadError}

theorem of_marker (hi : i.op = .define) : Fault before i e ↔
    (∃ j ∈ before, j.op = .define ∧ j.target = i.target) ∧ e = .duplicateFunction i.target := by
  constructor
  · intro h
    cases h with
    | function _ taken => exact ⟨taken, rfl⟩
    | orphan hne | address _ hne => exact absurd hi hne
    | label _ hop =>
      rw [hi] at hop
      cases hop
  · rintro ⟨taken, rfl⟩
    exact .function hi taken

theorem of_markerless (hi : i.op ≠ .define) (hb : ∀ j ∈ before, j.op ≠ .define) :
    Fault before i e ↔ e = .orphan (before.length + 1) := by
  constructor
  · intro h
    cases h with
    | orphan => rfl
    | function hop => exact absurd hop hi
    | label last | address last =>
      obtain ⟨j, hj, hm⟩ := last.exists_marker
      exact absurd hm (hb j hj)
  · rintro rfl
    exact .orphan hi hb

theorem of_last (hi : i.op ≠ .define) (hb : Block.Last before b) : Fault before i e ↔
    (i.op = .label ∧ i.target ∈ labelNames b.body) ∧ e = .duplicateLabel b.name i.target ∨
    ¬(i.op = .label ∧ i.target ∈ labelNames b.body) ∧ Routine.Uses i Int64.maxValue ∧
      e = .badOperand (before.length + 1) (Operand.heap Int64.maxValue).text := by
  constructor
  · intro h
    cases h with
    | orphan _ hnone =>
      obtain ⟨j, hj, hm⟩ := hb.exists_marker
      exact absurd hm (hnone j hj)
    | function hop => exact absurd hop hi
    | label last hop taken =>
      obtain rfl := last.unique hb
      exact .inl ⟨⟨hop, taken⟩, rfl⟩
    | address last _ hnew uses =>
      obtain rfl := last.unique hb
      exact .inr ⟨hnew, uses, rfl⟩
  · rintro (⟨⟨hop, taken⟩, rfl⟩ | ⟨hnew, uses, rfl⟩)
    · exact .label hb hop taken
    · exact .address hb hi hnew uses

end Fault

namespace Builder

variable {b b' : Builder} {before : List Instruction} {i : Instruction} {block : Block}
  {done : List Block} {line : Nat} {e : LoadError}

theorem add_marker (hi : i.op = .define) : b.add line i = b.add line (.define i.target) := by
  rw [add, add, if_pos hi, if_pos (show (Instruction.define i.target).op = .define from rfl)]
  rfl

theorem Built.eq_current (h : Built b (done ++ [block])) :
    b = ⟨ofBlocks done, some block.routine⟩ := by
  generalize hblocks : done ++ [block] = blocks at h
  cases h with
  | empty => exact absurd hblocks (List.append_ne_nil_of_right_ne_nil done (List.cons_ne_nil _ _))
  | current =>
    obtain ⟨rfl, hblock⟩ := List.append_inj' hblocks rfl
    cases hblock
    rfl

theorem Built.eq_empty (h : Built b []) : b = .empty := by
  generalize hblocks : ([] : List Block) = blocks at h
  cases h with
  | empty => rfl
  | current =>
    exact absurd hblocks.symm (List.append_ne_nil_of_right_ne_nil _ (List.cons_ne_nil _ _))

theorem Built.nothing : Built .empty (Block.ofCode []) :=
  .empty

theorem Built.add_ofCode (h : Built b (Block.ofCode before)) (ha : b.add line i = .ok b') :
    Built b' (Block.ofCode (before ++ [i])) := by
  by_cases hi : i.op = .define
  · rw [Block.ofCode_append before hi (List.forall_mem_nil _)]
    rw [add_marker hi] at ha
    exact h.define ha
  rcases Block.markerless_or_last before with hnone | ⟨last, hlast⟩
  · rw [Block.ofCode_markerless hnone] at h
    rw [h.eq_empty, Builder.add, if_neg hi] at ha
    cases ha
  · obtain ⟨done, hbefore, hafter⟩ := hlast.ofCode_concat hi
    rw [hbefore] at h
    rw [hafter]
    rw [h.eq_current, Builder.add, if_neg hi] at ha
    obtain ⟨r, hr, ha⟩ := bind_eq_ok.1 ha
    cases ha
    have hlast : Routine.Loadable last.body := h.loadable last (by simp)
    obtain ⟨hload, rfl⟩ := hlast.add hi hr
    refine .current ?_ ?_
    · have names := h.names
      rw [List.map_append] at names ⊢
      exact names
    · intro b hb
      rcases List.mem_append.1 hb with hb | hb
      · exact h.loadable b (List.mem_append_left _ hb)
      · exact List.mem_singleton.1 hb ▸ hload

/-- An instruction is refused exactly if it is at fault. -/
theorem Built.add_eq_error_iff (h : Built b (Block.ofCode before)) :
    b.add (before.length + 1) i = .error e ↔ Fault before i e := by
  by_cases hi : i.op = .define
  · have taken : i.target ∈ b.finish.routines ↔
        ∃ j ∈ before, j.op = .define ∧ j.target = i.target := by
      rw [h.finish_eq, mem_ofBlocks h.names, Block.exists_mem_ofCode]
    rw [Builder.add, if_pos hi, Fault.of_marker hi, ← taken]
    split
    · next hmem => simp [hmem, eq_comm]
    · next hmem => simp [hmem]
  rcases Block.markerless_or_last before with hnone | ⟨last, hlast⟩
  · rw [Block.ofCode_markerless hnone] at h
    rw [h.eq_empty, Builder.add, if_neg hi, Fault.of_markerless hi hnone]
    exact ⟨fun h => (Except.error.inj h).symm, fun h => h ▸ rfl⟩
  · obtain ⟨done, hbefore, -⟩ := hlast.ofCode_concat hi
    rw [hbefore] at h
    rw [h.eq_current, Builder.add, if_neg hi, Fault.of_last hi hlast, ← Routine.add_eq_error_iff]
    exact bind_pure_eq_error_iff

theorem Built.addLines_ofCode {lines : List Line} (h : Built b (Block.ofCode before))
    (ha : lines.foldlM Builder.addLine b = .ok b') : ∃ code,
      lines.map Line.content = code.map .ok ∧ Built b' (Block.ofCode (before ++ code)) := by
  induction lines generalizing b before with
  | nil =>
    cases ha
    exact ⟨[], rfl, (List.append_nil before).symm ▸ h⟩
  | cons line lines ih =>
    rw [List.foldlM_cons] at ha
    obtain ⟨next, hnext, ha⟩ := bind_eq_ok.1 ha
    obtain ⟨i, hi, hnext⟩ := bind_eq_ok.1 hnext
    obtain ⟨code, hcode, built⟩ := ih (h.add_ofCode hnext) ha
    refine ⟨i :: code, ?_, ?_⟩
    · rw [List.map_cons, List.map_cons, hi, hcode]
    · rwa [List.append_assoc, List.singleton_append] at built

end Builder

/-- Instructions of which one is at fault after those before them, but none earlier. -/
inductive Refused : List Instruction → List Instruction → LoadError → Prop where
  | here {before : List Instruction} {i : Instruction} {after : List Instruction} {e : LoadError} :
      Fault before i e → Refused before (i :: after) e
  | later {before : List Instruction} {i : Instruction} {after : List Instruction} {e : LoadError} :
      (∀ e', ¬Fault before i e') → Refused (before ++ [i]) after e → Refused before (i :: after) e

theorem Builder.Built.addLines_eq_error_iff {b : Builder} {before code : List Instruction}
    {e : LoadError} (h : Built b (Block.ofCode before)) :
    ((code.zipIdx (before.length + 1)).map fun (i, line) => Line.mk line (.ok i)).foldlM
      Builder.addLine b = .error e ↔ Refused before code e := by
  induction code generalizing b before with
  | nil => exact ⟨nofun, nofun⟩
  | cons i code ih =>
    rw [List.zipIdx_cons, List.map_cons, List.foldlM_cons]
    change (b.add (before.length + 1) i >>= _) = _ ↔ _
    cases hadd : b.add (before.length + 1) i with
    | error e' =>
      constructor
      · intro he
        cases he
        exact .here (h.add_eq_error_iff.1 hadd)
      · intro refused
        have hfault := h.add_eq_error_iff.1 hadd
        cases refused with
        | here hfault' =>
          rw [h.add_eq_error_iff.2 hfault'] at hadd
          exact hadd ▸ rfl
        | later hnone => exact absurd hfault (hnone e')
    | ok next =>
      have hnone : ∀ e', ¬Fault before i e' := by
        intro e' hfault
        rw [h.add_eq_error_iff.2 hfault] at hadd
        cases hadd
      have ih := ih (h.add_ofCode hadd)
      rw [List.length_append, List.length_singleton] at ih
      refine ih.trans ⟨.later hnone, fun refused => ?_⟩
      cases refused with
      | here hfault => exact absurd hfault (hnone e)
      | later _ refused => exact refused

variable {before middle after code : List Instruction} {i : Instruction} {e : LoadError}

theorem Refused.exists_fault (h : Refused before code e) :
    ∃ middle i after, code = middle ++ i :: after ∧
      (∀ front j back e', middle = front ++ j :: back → ¬Fault (before ++ front) j e') ∧
        Fault (before ++ middle) i e := by
  induction h with
  | @here before i after e hfault =>
    refine ⟨[], i, after, rfl, ?_, (List.append_nil before).symm ▸ hfault⟩
    intro front j back e' hnil
    exact absurd hnil.symm (List.append_ne_nil_of_right_ne_nil _ (List.cons_ne_nil _ _))
  | @later before i _ e hnone _ ih =>
    obtain ⟨middle, j, after, rfl, hfirst, hfault⟩ := ih
    rw [List.append_assoc, List.singleton_append] at hfault
    refine ⟨i :: middle, j, after, rfl, ?_, hfault⟩
    intro front k back e' hsplit
    rcases List.cons_eq_append_iff.1 hsplit with ⟨rfl, hk⟩ | ⟨front, rfl, hmiddle⟩
    · obtain ⟨rfl, -⟩ := List.cons.inj hk
      rw [List.append_nil]
      exact hnone e'
    · have := hfirst front k back e' hmiddle
      rwa [List.append_assoc, List.singleton_append] at this

theorem refused_of_fault
    (hfirst : ∀ front j back e', middle = front ++ j :: back → ¬Fault (before ++ front) j e')
    (hfault : Fault (before ++ middle) i e) : Refused before (middle ++ i :: after) e := by
  induction middle generalizing before with
  | nil =>
    rw [List.append_nil] at hfault
    exact .here hfault
  | cons j middle ih =>
    refine .later (fun e' => ?_) (ih ?_ ?_)
    · have := hfirst [] j middle e' rfl
      rwa [List.append_nil] at this
    · intro front k back e' hmiddle
      rw [List.append_assoc, List.singleton_append]
      exact hfirst (j :: front) k back e' (by rw [hmiddle, List.cons_append])
    · rwa [List.append_assoc, List.singleton_append]

theorem holds_of_lines {lines : List Line} {image : Image} (h : ofLines lines = .ok image) :
    ∃ code, lines.map Line.content = code.map .ok ∧ image.Holds code := by
  obtain ⟨b, hb, hi⟩ := bind_eq_ok.1 h
  cases hi
  obtain ⟨code, hcode, built⟩ := Builder.Built.nothing.addLines_ofCode hb
  refine ⟨code, hcode, ?_⟩
  rw [List.nil_append] at built
  rw [built.finish_eq]
  constructor
  case names => exact built.names
  case stored =>
    intro b hb
    exact ⟨b.routine, (find?_ofBlocks built.names ..).2 ⟨b, hb, rfl, rfl⟩,
      (built.loadable b hb).describes⟩
  case found =>
    intro name r hr
    obtain ⟨b, hb, hname, rfl⟩ := (find?_ofBlocks built.names ..).1 hr
    exact ⟨b, hb, hname, (built.loadable b hb).describes⟩

theorem holds_of_instructions {image : Image} (h : ofInstructions code = .ok image) :
    image.Holds code := by
  obtain ⟨code', hcode, holds⟩ := holds_of_lines h
  rw [content_numbered] at hcode
  have hok : Function.Injective (Except.ok : Instruction → Except LoadError Instruction) :=
    fun _ _ he => Except.ok.inj he
  rwa [List.map_injective_iff.2 hok hcode]

theorem ofInstructions_eq_error_iff : ofInstructions code = .error e ↔ Refused [] code e := by
  rw [← Builder.Built.nothing.addLines_eq_error_iff]
  exact bind_pure_eq_error_iff

/-- An image has one routine for each function of its code, and code has no image exactly if some
instruction is at fault, the first of which is reported. -/
theorem image_contents :
    (∀ code image, ofInstructions code = .ok image → image.Holds code) ∧
    (∀ text image, load text = .ok image → ∃ code,
      (Loader.lines text).map Line.content = code.map .ok ∧ image.Holds code) ∧
    (∀ code e, ofInstructions code = .error e ↔ ∃ before i after, code = before ++ i :: after ∧
      (∀ front j back e', before = front ++ j :: back → ¬Fault front j e') ∧ Fault before i e) := by
  refine ⟨fun _ _ => holds_of_instructions, fun _ _ => holds_of_lines, fun code e => ?_⟩
  rw [ofInstructions_eq_error_iff]
  constructor
  · exact Refused.exists_fault
  · rintro ⟨before, i, after, rfl, hfirst, hfault⟩
    exact refused_of_fault hfirst hfault

end Image

end BlueCode
