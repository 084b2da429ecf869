import BlueCode.Proofs.Activations

namespace BlueCode

open Compile

/-- A routine of an image, that of a function with at most so many instructions. -/
structure Routine.Compiled (image : Image) (limit : Nat) (r : Routine) : Prop where
  found : image.find? r.name = some r
  built : r = .ofBody r.name r.code.toList
  tidy : Tidy (fun _ => True) r.frameSize r.code.toList
  size_le : r.code.size ≤ limit

def Image.Compiled (limit : Nat) (image : Image) : Prop :=
  ∀ name r, image.find? name = some r → r.name = name ∧ r.Compiled image limit

namespace Routine.Compiled

variable {image : Image} {limit : Nat} {r : Routine} {position : Nat} {i : Instruction}

theorem of_tidy {declared : Nat} {name : String} {body : List Instruction}
    (hf : image.find? name = some (.ofBody name body))
    (h : Tidy (fun _ => True) declared body) (hl : body.length ≤ limit) (hlimit : limit < 2 ^ 63) :
    (Routine.ofBody name body).Compiled image limit where
  found := by
    rw [Routine.ofBody_name]
    exact hf
  built := by rw [Routine.ofBody_name, Routine.ofBody_code]
  tidy := by
    rw [Routine.ofBody_code, h.frameSize_eq (Nat.lt_of_le_of_lt hl hlimit)]
    exact h
  size_le := by
    rw [Routine.ofBody_code]
    exact hl

theorem mem (hi : r.code[position]? = some i) : i ∈ r.code.toList := by
  rw [← Array.getElem?_toList] at hi
  exact List.mem_of_getElem? hi

theorem emitted (h : r.Compiled image limit) (hi : r.code[position]? = some i) :
    Emitted (fun _ => True) r.frameSize i :=
  h.tidy.emitted i (mem hi)

theorem frameSize_le (h : r.Compiled image limit) (hlimit : limit < 2 ^ 63) : r.frameSize ≤ limit := by
  have hsize := h.size_le
  have hlen : r.code.toList.length = r.code.size := Array.length_toList
  have hd := h.tidy.declared_le (by omega)
  omega

theorem position_lt (h : r.Compiled image limit) (hi : r.code[position]? = some i) : position < limit :=
  Nat.lt_of_lt_of_le (Array.getElem?_eq_some_iff.1 hi).1 h.size_le

theorem settle_pending (h : r.Compiled image limit) (hi : r.code[position]? = some i) :
    i.op.settle (pending r.code.toList position) =
      some (pending r.code.toList (position + 1)) := by
  rw [← Array.getElem?_toList] at hi
  exact pending_succ h.tidy.settles hi

theorem pending_end (h : r.Compiled image limit) (hi : r.code[position]? = none) :
    pending r.code.toList position = 0 := by
  rw [← Array.getElem?_toList, List.getElem?_eq_none_iff] at hi
  exact pending_length h.tidy.settles hi

theorem exists_label (h : r.Compiled image limit) {label : String} (hi : r.code[position]? = some i)
    (hj : jumpTarget? i = some label) :
    ∃ k, r.labels[label]? = some k ∧ ∃ j, r.code[k]? = some j ∧ j.op = .label := by
  have hmem : label ∈ labelNames r.code.toList :=
    h.tidy.resolved (List.mem_filterMap.2 ⟨i, mem hi, hj⟩)
  obtain ⟨j, hj, hlabel⟩ := List.mem_filterMap.1 hmem
  obtain ⟨k, hk⟩ := List.mem_iff_getElem?.1 hj
  refine ⟨k, ?_, j, ?_, ?_⟩
  · rw [h.built]
    apply (Routine.ofBody_labels_getElem? h.tidy.labels label k).2
    rw [hk]
    exact hlabel
  · rw [← Array.getElem?_toList]
    exact hk
  · unfold Instruction.label? at hlabel
    split at hlabel
    · next hop => exact hop
    · cases hlabel

end Routine.Compiled

theorem Image.compiled_ofBlocks {blocks : List Block} {limit : Nat}
    (hd : (blocks.map Block.name).Nodup) (hlimit : limit < 2 ^ 63)
    (h : ∀ b ∈ blocks, b.body.length ≤ limit ∧ ∃ declared, Tidy (fun _ => True) declared b.body) :
    (Image.ofBlocks blocks).Compiled limit := by
  intro name r hr
  obtain ⟨b, hb, rfl, rfl⟩ := (Image.find?_ofBlocks hd name r).1 hr
  obtain ⟨hl, declared, htidy⟩ := h b hb
  exact ⟨Routine.ofBody_name _ _, .of_tidy hr htidy hl hlimit⟩

/-- The calls that wait for one with the given frame, each for the next. -/
inductive Waiting (image : Image) (limit : Nat) : List Activation → Frame → Prop where
  | main {frame : Frame} : frame.base = 0 → Waiting image limit [] frame
  | call {caller : Activation} {rest : List Activation} {callee : Frame} :
      Waiting image limit rest caller.frame → caller.frame.routine.Compiled image limit →
      caller.waiting.length = caller.frame.pending →
      caller.frame.instruction? = some (.call callee.routine.name) →
      callee.base = caller.frame.base + caller.frame.routine.frameSize →
      Waiting image limit (caller :: rest) callee

namespace Waiting

variable {image : Image} {limit : Nat} {callers : List Activation} {frame frame' : Frame}

theorem congr (h : Waiting image limit callers frame) (hr : frame'.routine = frame.routine)
    (hb : frame'.base = frame.base) : Waiting image limit callers frame' := by
  cases h with
  | main h => exact .main (hb.trans h)
  | call hw hc hp hi hbase =>
    rw [← hr] at hi
    exact .call hw hc hp hi (hb.trans hbase)

/-- Each call that waits takes less room on the stack than its code is long. -/
theorem returns_le (h : Waiting image limit callers frame) :
    (Calls.returns callers).length ≤ callers.length * limit := by
  induction h with
  | main => exact Nat.zero_le _
  | @call caller rest _ _ hc hp hi _ ih =>
    have hlt := hc.position_lt hi
    have hle : caller.frame.pending ≤ caller.frame.position := pending_le _ _
    rw [Calls.returns, List.length_cons, List.length_append, List.length_cons, Nat.succ_mul]
    omega

theorem base_le (h : Waiting image limit callers frame) (hlimit : limit < 2 ^ 63) :
    frame.base ≤ callers.length * limit := by
  induction h with
  | main h => exact Nat.le_of_eq (h.trans (Nat.zero_mul limit).symm)
  | call _ hc _ _ hb ih =>
    have hle := hc.frameSize_le hlimit
    rw [List.length_cons, Nat.succ_mul]
    omega

end Waiting

namespace Calls

/-- What holds of the calls in every state of a run. -/
structure Proper (settings : Settings) (image : Image) (limit : Nat) (c : Calls) : Prop where
  compiled : c.frame.routine.Compiled image limit
  pending : c.waiting.length = c.frame.pending
  callers : Waiting image limit c.callers c.frame
  height : c.height < 2 ^ 63
  depth : c.callers.length ≤ settings.maxCallDepth

namespace Proper

variable {settings : Settings} {image : Image} {limit : Nat} {c c' : Calls} {i : Instruction}

theorem next (h : c.Proper settings image limit) (hi : c.instruction? = some i)
    (hs : i.op.settle c.waiting.length = some c'.waiting.length)
    (hf : c'.frame = c.advance.frame) (hc : c'.callers = c.callers) (hh : c'.height < 2 ^ 63) :
    c'.Proper settings image limit where
  compiled := by
    rw [hf]
    exact h.compiled
  pending := by
    have hnext := h.compiled.settle_pending hi
    rw [h.pending] at hs
    rw [hf]
    exact Option.some.inj (hs.symm.trans hnext)
  callers := by
    rw [hf, hc]
    exact h.callers.congr rfl rfl
  height := hh
  depth := by
    rw [hc]
    exact h.depth

theorem advance (h : c.Proper settings image limit) (hi : c.instruction? = some i)
    (hs : i.op.settle c.waiting.length = some c.waiting.length)
    (hf : c'.frame = c.frame) (hw : c'.waiting = c.waiting) (hc : c'.callers = c.callers) :
    c'.advance.Proper settings image limit := by
  refine h.next hi ?_ ?_ hc ?_
  · change _ = some c'.waiting.length
    rw [hw]
    exact hs
  · rw [Calls.advance, Calls.goto, hf]
    rfl
  · have hheight : c'.advance.height = c.height := by
      change (c'.waiting ++ returns c'.callers).length = _
      rw [hw, hc]
      rfl
    rw [hheight]
    exact h.height

theorem push (h : c.Proper settings image limit) (hi : c.instruction? = some (.push acc))
    (hh : c.height + 1 < 2 ^ 63) (v : Value) : (c.push v).advance.Proper settings image limit :=
  h.next hi rfl rfl rfl hh

theorem pop (h : c.Proper settings image limit) (hi : c.instruction? = some (.pop (.reg .rb))) :
    ∃ v rest, c.waiting = v :: rest ∧
      (({ c with waiting := rest }).set .rb v).advance.Proper settings image limit := by
  have hnext := h.compiled.settle_pending hi
  change Opcode.settle .pop c.frame.pending = _ at hnext
  rw [← h.pending] at hnext
  cases hw : c.waiting with
  | nil =>
    rw [hw] at hnext
    cases hnext
  | cons v rest =>
    have hheight : c.height = (rest ++ returns c.callers).length + 1 := by
      rw [Calls.height, cells, hw]
      rfl
    have hlt := h.height
    refine ⟨v, rest, rfl, h.next hi ?_ rfl rfl ?_⟩
    · rw [hw]
      rfl
    · change (rest ++ returns c.callers).length < 2 ^ 63
      omega

theorem waiting_eq_nil (h : c.Proper settings image limit) (hi : c.instruction? = some i)
    (hs : ∀ n, i.op.settle (n + 1) = none) : c.waiting = [] := by
  have hnext := h.compiled.settle_pending hi
  change i.op.settle c.frame.pending = _ at hnext
  rw [← h.pending] at hnext
  cases hw : c.waiting with
  | nil => rfl
  | cons v rest =>
    rw [hw, List.length_cons, hs] at hnext
    cases hnext

theorem goto (h : c.Proper settings image limit) (hw : c.waiting = []) {k : Nat} {j : Instruction}
    (hj : c.frame.routine.code[k]? = some j) (hlabel : j.op = .label) :
    (c.goto k).Proper settings image limit where
  compiled := h.compiled
  pending := by
    have hnext := h.compiled.settle_pending hj
    change c.waiting.length = BlueCode.pending c.frame.routine.code.toList k
    rw [hw, List.length_nil]
    rw [hlabel] at hnext
    cases hp : BlueCode.pending c.frame.routine.code.toList k with
    | zero => rfl
    | succ n =>
      rw [hp] at hnext
      cases hnext
  callers := h.callers.congr rfl rfl
  height := h.height
  depth := h.depth

theorem label (h : c.Proper settings image limit) {label : String}
    (hi : c.instruction? = some (.label label)) : c.advance.Proper settings image limit := by
  refine h.advance hi ?_ rfl rfl rfl
  rw [h.waiting_eq_nil hi fun _ => rfl]
  rfl

theorem enter (h : c.Proper settings image limit) {callee : Routine}
    (hi : c.instruction? = some (.call callee.name)) (hcallee : callee.Compiled image limit)
    (hh : c.height + 1 < 2 ^ 63) (hd : ¬ settings.maxCallDepth ≤ c.callers.length + 1) :
    (c.enter callee).Proper settings image limit where
  compiled := hcallee
  pending := rfl
  callers := .call h.callers h.compiled h.pending hi rfl
  height := hh
  depth := Nat.le_of_lt (Nat.not_le.1 hd)

theorem resume (h : c.Proper settings image limit) {caller : Activation} {rest : List Activation}
    (hc : c.callers = caller :: rest) : (c.resume caller rest).Proper settings image limit := by
  have hw := h.callers
  rw [hc] at hw
  cases hw with
  | call hwait hcomp hp hi hb =>
    have hnext := hcomp.settle_pending hi
    have hheight := h.height
    have hdepth := h.depth
    rw [hc, List.length_cons] at hdepth
    rw [Calls.height, cells, hc, returns, List.length_append, List.length_cons] at hheight
    refine ⟨hcomp, ?_, hwait.congr rfl rfl, ?_, Nat.le_of_succ_le hdepth⟩
    · exact hp.trans (Option.some.inj hnext)
    · change (caller.waiting ++ returns rest).length < 2 ^ 63
      omega

theorem room_le (h : c.Proper settings image limit) :
    (c.callers.length + 1) * limit < (settings.maxCallDepth + 1) * (limit + 1) := by
  have hle : (c.callers.length + 1) * limit ≤ (settings.maxCallDepth + 1) * limit :=
    Nat.mul_le_mul_right limit (Nat.succ_le_succ h.depth)
  have hlt : (settings.maxCallDepth + 1) * limit < (settings.maxCallDepth + 1) * (limit + 1) :=
    Nat.mul_lt_mul_of_pos_left (Nat.lt_succ_self limit) (Nat.succ_pos _)
  exact Nat.lt_of_le_of_lt hle hlt

theorem height_lt (h : c.Proper settings image limit) (hi : c.instruction? = some i) :
    c.height + 1 < (settings.maxCallDepth + 1) * (limit + 1) := by
  have hroom := h.room_le
  have hreturns := h.callers.returns_le
  have hlt := h.compiled.position_lt hi
  have hle : c.frame.pending ≤ c.frame.position := pending_le _ _
  have hw := h.pending
  rw [Nat.succ_mul] at hroom
  rw [Calls.height, cells, List.length_append]
  omega

theorem base_lt (h : c.Proper settings image limit) (hlimit : limit < 2 ^ 63) :
    c.frame.base + c.frame.routine.frameSize < (settings.maxCallDepth + 1) * (limit + 1) := by
  have hroom := h.room_le
  have hbase := h.callers.base_le hlimit
  have hframe := h.compiled.frameSize_le hlimit
  rw [Nat.succ_mul] at hroom
  omega

end Proper

end Calls

/-- The errors that are due to code that does not fit the machine, and not to what a program does. -/
def RunError.isInternal : RunError → Bool
  | unresolvedLabel _ _ | nameAsValue _ | missingOperand | badReturnAddress _
  | stackPointerOverflow | addressOverflow _ _ | stackUnderflow | notWritable _ => true
  | _ => false

/-- There are not enough addresses for all calls that may be live. -/
def Settings.Crowded (settings : Settings) (limit : Nat) : Prop :=
  2 ^ 63 ≤ (settings.maxCallDepth + 1) * (limit + 1)

theorem bind_eq_error {ε α β : Type} {x : Except ε α} {f : α → Except ε β} {e : ε} :
    x >>= f = .error e ↔ x = .error e ∨ ∃ a, x = .ok a ∧ f a = .error e := by
  cases x with
  | error e' =>
    refine ⟨fun h => .inl (congrArg Except.error (Except.error.inj h)), fun h => ?_⟩
    rcases h with h | ⟨_, h, _⟩
    · cases h
      rfl
    · cases h
  | ok a =>
    refine ⟨fun h => .inr ⟨a, rfl, h⟩, fun h => h.elim (fun h => (nomatch h)) ?_⟩
    rintro ⟨_, ha, h⟩
    cases ha
    exact h

namespace Calls

inductive Leads (settings : Settings) (image : Image) (limit : Nat) (c : Calls) :
    Except RunError Transition → Prop where
  | moved {c' : Calls} : c'.Proper settings image limit → c'.callers = c.callers →
      Leads settings image limit c (.ok (.moved c'.state))
  | printed {c' : Calls} {text : String} : c'.Proper settings image limit → c'.callers = c.callers →
      Leads settings image limit c (.ok (.printed text c'.state))
  | entered {callee : Routine} : (c.enter callee).Proper settings image limit →
      Leads settings image limit c (.ok (.entered (c.enter callee).state))
  | left {caller : Activation} {rest : List Activation} : c.callers = caller :: rest →
      c.waiting = [] → (c.resume caller rest).Proper settings image limit →
      Leads settings image limit c (.ok (.left (c.resume caller rest).state))
  | halted {halt : Halt} : Leads settings image limit c (.ok (.halted halt))
  | error {e : RunError} : (e.isInternal → settings.Crowded limit) →
      Leads settings image limit c (.error e)

variable {settings : Settings} {image : Image} {limit : Nat} {c : Calls} {i : Instruction}

theorem lt_of_cell_error {base : Nat} {offset : Int} {e : RunError}
    (h : State.cell base offset = .error e) : Int64.maxValue.toInt < base + offset := by
  unfold State.cell at h
  split at h
  · cases h
  · next hle => exact Int.not_le.1 hle

namespace Proper

theorem leave_eq (h : c.Proper settings image limit) (hlimit : limit < 2 ^ 63)
    (hw : c.waiting = []) :
    (c.callers = [] ∧ c.state.leave = .ok (.halted (.returned (c.get .ra)))) ∨
      ∃ caller rest, c.callers = caller :: rest ∧
        c.state.leave = .ok (.left (c.resume caller rest).state) := by
  cases hc : c.callers with
  | nil => exact .inl ⟨rfl, leave_main hc⟩
  | cons caller rest =>
    have hcallers := h.callers
    rw [hc] at hcallers
    cases hcallers with
    | call _ hcomp _ hi _ =>
      have hlt := hcomp.position_lt hi
      exact .inr ⟨caller, rest, rfl, leave_call hc hw h.height (by omega)⟩

theorem leads_leave (h : c.Proper settings image limit) (hlimit : limit < 2 ^ 63)
    (hw : c.waiting = []) : Leads settings image limit c c.state.leave := by
  obtain ⟨-, hs⟩ | ⟨caller, rest, hc, hs⟩ := h.leave_eq hlimit hw
  · rw [hs]
    exact .halted
  · rw [hs]
    exact .left hc hw (h.resume hc)

theorem step_end (h : c.Proper settings image limit) (hi : c.instruction? = none) :
    c.waiting = [] ∧ c.state.step settings image = c.state.leave := by
  have hnone : c.state.instruction? = none := hi
  rw [← List.length_eq_zero_iff, h.pending, State.step, hnone]
  exact ⟨h.compiled.pending_end hi, rfl⟩

theorem step_ret (h : c.Proper settings image limit) (hi : c.instruction? = some .ret) :
    c.waiting = [] ∧ c.state.step settings image = c.state.leave := by
  rw [step_eq_execute hi]
  exact ⟨h.waiting_eq_nil hi fun _ => rfl, rfl⟩

theorem leads_load (h : c.Proper settings image limit) (hlimit : limit < 2 ^ 63) {k : Nat}
    (hi : c.instruction? = some (.mov (.heap (.ofNat k)) acc)) (hk : k < c.frame.routine.frameSize) :
    Leads settings image limit c (c.state.step settings image) := by
  have hframe := h.compiled.frameSize_le hlimit
  rw [step_load hi (by omega), Calls.load]
  cases hcell : State.cell c.frame.base k with
  | error e =>
    apply Leads.error
    intro _
    have hlt := lt_of_cell_error hcell
    have hbase := h.base_lt hlimit
    rw [Int64.toInt_maxValue] at hlt
    rw [Settings.Crowded]
    omega
  | ok cell =>
    cases hv : c.heap.get? cell with
    | none =>
      simp only [Except.bind, hv]
      exact .error fun he => by cases he
    | some v =>
      simp only [Except.bind, hv]
      exact .moved (h.advance hi rfl rfl rfl rfl) rfl

theorem leads_store (h : c.Proper settings image limit) (hlimit : limit < 2 ^ 63) {k : Nat}
    (hi : c.instruction? = some (.mov acc (.heap (.ofNat k)))) (hk : k < c.frame.routine.frameSize) :
    Leads settings image limit c (c.state.step settings image) := by
  have hframe := h.compiled.frameSize_le hlimit
  rw [step_store hi (by omega), Calls.store]
  cases hcell : State.cell c.frame.base k with
  | error e =>
    apply Leads.error
    intro _
    have hlt := lt_of_cell_error hcell
    have hbase := h.base_lt hlimit
    rw [Int64.toInt_maxValue] at hlt
    rw [Settings.Crowded]
    omega
  | ok cell => exact .moved (h.advance hi rfl rfl rfl rfl) rfl

theorem crowded (h : c.Proper settings image limit) (hi : c.instruction? = some i)
    (hh : ¬ c.height + 1 < 2 ^ 63) : settings.Crowded limit := by
  have hlt := h.height_lt hi
  rw [Settings.Crowded]
  omega

theorem height_full (h : c.Proper settings image limit) (hh : ¬ c.height + 1 < 2 ^ 63) :
    c.height + 1 = 2 ^ 63 := by
  have hlt := h.height
  omega

theorem leads_push (h : c.Proper settings image limit) (hi : c.instruction? = some (.push acc)) :
    Leads settings image limit c (c.state.step settings image) := by
  by_cases hh : c.height + 1 < 2 ^ 63
  · rw [step_push hi hh]
    exact .moved (h.push hi hh _) rfl
  · rw [step_push_full hi (h.height_full hh)]
    exact .error fun _ => h.crowded hi hh

theorem leads_start (h : c.Proper settings image limit) (hlimit : limit < 2 ^ 63) {callee : Routine}
    (hi : c.instruction? = some (.call callee.name)) (hcallee : callee.Compiled image limit)
    (hh : c.height + 1 < 2 ^ 63) :
    Leads settings image limit c ((c.start settings callee).map fun next => .entered next.state) := by
  rw [Calls.start]
  by_cases hd : settings.maxCallDepth ≤ c.callers.length + 1
  · rw [if_pos hd]
    exact .error fun he => by cases he
  · rw [if_neg hd]
    have hroom := h.room_le
    have hbase := h.callers.base_le hlimit
    have hframe := h.compiled.frameSize_le hlimit
    have hframe' := hcallee.frameSize_le hlimit
    have hle : (c.callers.length + 2) * limit ≤ (settings.maxCallDepth + 1) * (limit + 1) :=
      Nat.mul_le_mul (by omega) (Nat.le_succ limit)
    rw [Nat.succ_mul, Nat.succ_mul] at hle
    cases hcell : State.cell c.frame.base c.frame.routine.frameSize with
    | error e =>
      apply Leads.error
      intro _
      have hlt := lt_of_cell_error hcell
      rw [Int64.toInt_maxValue] at hlt
      rw [Settings.Crowded]
      omega
    | ok first =>
      simp only [Except.bind]
      cases hlast : State.cell (c.frame.base + c.frame.routine.frameSize : Nat) callee.frameSize with
      | error e =>
        apply Leads.error
        intro _
        have hlt := lt_of_cell_error hlast
        rw [Int64.toInt_maxValue] at hlt
        rw [Settings.Crowded]
        omega
      | ok last => exact .entered (h.enter hi hcallee hh hd)

theorem leads_perform (h : c.Proper settings image limit) {name : String}
    (hi : c.instruction? = some (.call name)) (effect : State.Effect) :
    Leads settings image limit c (.ok (c.perform effect)) := by
  have hnext : c.advance.Proper settings image limit := h.advance hi rfl rfl rfl rfl
  cases effect with
  | nothing => exact .moved hnext rfl
  | print text => exact .printed hnext rfl
  | halt halt => exact .halted

theorem useOutput_not_internal {e : RunError} (h : State.useOutput settings = .error e) :
    e.isInternal = false := by
  unfold State.useOutput at h
  split at h
  · cases h
    rfl
  · cases h

theorem value_not_internal {α : Type} {x : Except ValueError α} {e : RunError}
    (h : x.mapError RunError.value = .error e) : e.isInternal = false := by
  cases x <;> cases h
  rfl

theorem effect_not_internal {acc : Value} {b : Builtin} {e : RunError}
    (h : State.effect settings acc b = .error e) : e.isInternal = false := by
  cases b with
  | print =>
    rcases bind_eq_error.1 h with h | ⟨_, _, h⟩
    · exact useOutput_not_internal h
    · cases h
  | exit =>
    rcases bind_eq_error.1 h with h | ⟨status, _, h⟩
    · exact value_not_internal h
    · split at h
      · cases h
        rfl
      · rcases bind_eq_error.1 h with h | ⟨_, _, h⟩
        · exact useOutput_not_internal h
        · cases h
  | sleep =>
    rcases bind_eq_error.1 h with h | ⟨seconds, _, h⟩
    · exact value_not_internal h
    · split at h
      · cases h
        rfl
      · rcases bind_eq_error.1 h with h | ⟨_, _, h⟩
        · exact useOutput_not_internal h
        · cases h

theorem leads_call (h : c.Proper settings image limit) (hlimit : limit < 2 ^ 63)
    (himage : image.Compiled limit) {name : String} (hi : c.instruction? = some (.call name)) :
    Leads settings image limit c (c.state.step settings image) := by
  by_cases hh : c.height + 1 < 2 ^ 63
  · cases hb : Builtin.ofName? name with
    | some b =>
      rw [step_call_builtin hi hb hh]
      cases he : State.effect settings (c.get .ra) b with
      | error e => exact .error fun hint => by simp [effect_not_internal he] at hint
      | ok effect => exact h.leads_perform hi effect
    | none =>
      cases hf : image.find? name with
      | none =>
        rw [step_call_missing hi hb hf hh]
        exact .error fun he => by cases he
      | some callee =>
        obtain ⟨rfl, hcallee⟩ := himage name callee hf
        rw [step_call hi hb hf hh]
        exact h.leads_start hlimit hi hcallee hh
  · rw [step_call_full hi (h.height_full hh)]
    exact .error fun _ => h.crowded hi hh

theorem leads_jump (h : c.Proper settings image limit) {label : String}
    (hi : c.instruction? = some (.jump label)) :
    Leads settings image limit c (c.state.step settings image) := by
  obtain ⟨k, hl, j, hj, hlabel⟩ := h.compiled.exists_label hi rfl
  have hw := h.waiting_eq_nil hi fun _ => rfl
  rw [step_jump hi hl]
  exact .moved (h.goto hw hj hlabel) rfl

theorem leads_jumpIfNot (h : c.Proper settings image limit) {label : String}
    (hi : c.instruction? = some (.jumpIfNot acc label)) :
    Leads settings image limit c (c.state.step settings image) := by
  obtain ⟨k, hl, j, hj, hlabel⟩ := h.compiled.exists_label hi rfl
  have hw := h.waiting_eq_nil hi fun _ => rfl
  rw [step_jumpIfNot hi hl]
  cases (c.get .ra).asInt with
  | error e => exact .error fun he => by cases he
  | ok n =>
    by_cases hn : n = 0
    · simp only [Except.mapError, Except.map, if_pos hn]
      exact .moved (h.goto hw hj hlabel) rfl
    · simp only [Except.mapError, Except.map, if_neg hn]
      refine .moved (h.advance hi ?_ rfl rfl rfl) rfl
      rw [hw]
      rfl

/-- Every step leads from proper calls to proper calls. -/
theorem leads (h : c.Proper settings image limit) (hlimit : limit < 2 ^ 63)
    (himage : image.Compiled limit) : Leads settings image limit c (c.state.step settings image) := by
  cases hi : c.instruction? with
  | none =>
    obtain ⟨hw, hs⟩ := h.step_end hi
    rw [hs]
    exact h.leads_leave hlimit hw
  | some i =>
    cases h.compiled.emitted hi with
    | constant ho =>
      obtain ⟨v, -, hs⟩ := @step_constant settings image c _ hi ho
      rw [hs]
      exact .moved (h.advance hi rfl rfl rfl rfl) rfl
    | load hk => exact h.leads_load hlimit hi hk
    | store hk => exact h.leads_store hlimit hi hk
    | push => exact h.leads_push hi
    | pop =>
      obtain ⟨v, rest, hw, hnext⟩ := h.pop hi
      rw [step_pop hi hw h.height]
      exact .moved hnext rfl
    | arith op =>
      rw [step_arith hi]
      cases op.apply (c.get .rb) (c.get .ra) with
      | error e => exact .error fun he => by cases he
      | ok v => exact .moved (h.advance hi rfl rfl rfl rfl) rfl
    | compare op =>
      rw [step_compare hi]
      cases op.holds (c.get .rb) (c.get .ra) with
      | error e => exact .error fun he => by cases he
      | ok holds => exact .moved (h.advance hi rfl rfl rfl rfl) rfl
    | call => exact h.leads_call hlimit himage hi
    | ret =>
      obtain ⟨hw, hs⟩ := h.step_ret hi
      rw [hs]
      exact h.leads_leave hlimit hw
    | jump => exact h.leads_jump hi
    | jumpIfNot => exact h.leads_jumpIfNot hi
    | label =>
      rw [step_label hi]
      exact .moved (h.label hi) rfl

theorem initial {main : Routine} (h : main.Compiled image limit) :
    (Calls.initial main).Proper settings image limit where
  compiled := h
  pending := rfl
  callers := .main rfl
  height := Nat.two_pow_pos 63
  depth := Nat.zero_le _

theorem step (h : c.Proper settings image limit) (hlimit : limit < 2 ^ 63)
    (himage : image.Compiled limit) {transition : Transition} {s : State}
    (hs : c.state.step settings image = .ok transition) (hn : transition.next? = some s) :
    ∃ c' : Calls, c'.Proper settings image limit ∧ c'.state = s := by
  have hleads := h.leads hlimit himage
  rw [hs] at hleads
  cases hleads with
  | moved h' hc =>
    cases hn
    exact ⟨_, h', rfl⟩
  | printed h' hc =>
    cases hn
    exact ⟨_, h', rfl⟩
  | entered h' =>
    cases hn
    exact ⟨_, h', rfl⟩
  | left hc hw h' =>
    cases hn
    exact ⟨_, h', rfl⟩
  | halted => cases hn

/-- No step fails because the code does not fit the machine, if there is room. -/
theorem error_not_internal (h : c.Proper settings image limit) (hlimit : limit < 2 ^ 63)
    (himage : image.Compiled limit) (hroom : ¬ settings.Crowded limit) {e : RunError}
    (he : c.state.step settings image = .error e) : e.isInternal = false := by
  have hleads := h.leads hlimit himage
  rw [he] at hleads
  cases hleads with
  | error hcrowded => exact Bool.eq_false_iff.2 fun hinternal => hroom (hcrowded hinternal)

theorem of_reachable (hlimit : limit < 2 ^ 63) (himage : image.Compiled limit) {s : State}
    (h : s.Reachable settings image) :
    ∃ c : Calls, c.Proper settings image limit ∧ c.state = s := by
  induction h with
  | start hmain => exact ⟨_, initial (himage _ _ hmain).2, initial_state _⟩
  | step _ hs hn ih =>
    obtain ⟨c, hc, rfl⟩ := ih
    exact hc.step hlimit himage hs hn

end Proper

end Calls

end BlueCode
