import BlueCode.Proofs.ProperCalls
import BlueCode.Proofs.Thinning

namespace BlueCode

open Compile Peephole

def Routine.thinned (r : Routine) : Routine :=
  .ofBody r.name (thin (.define r.name) r.code.toList)

def Frame.thinned (f : Frame) : Frame where
  routine := f.routine.thinned
  position := kept (.define f.routine.name) f.routine.code.toList f.position
  base := f.base

/-- The last instruction before the place that is kept. -/
def Frame.last (f : Frame) : Instruction :=
  lastKept (.define f.routine.name) (f.routine.code.toList.take f.position)

def Activation.thinned (a : Activation) : Activation :=
  ⟨a.frame.thinned, a.waiting⟩

namespace Routine

@[simp] theorem thinned_name (r : Routine) : r.thinned.name = r.name :=
  ofBody_name _ _

@[simp] theorem thinned_code (r : Routine) :
    r.thinned.code.toList = thin (.define r.name) r.code.toList := by
  rw [thinned, ofBody_code]

namespace Compiled

variable {image : Image} {limit : Nat} {r : Routine}

theorem thinned_frameSize (h : r.Compiled image limit) (hlimit : limit < 2 ^ 63) :
    r.thinned.frameSize = r.frameSize := by
  refine (h.tidy.thin r.name).frameSize_eq ?_ r.name
  have hle := thin_length_le (.define r.name) r.code.toList
  have hlen : r.code.toList.length = r.code.size := Array.length_toList
  have hsize := h.size_le
  omega

theorem thinned_label (h : r.Compiled image limit) {label : String} {k : Nat}
    (hl : r.labels[label]? = some k) :
    r.thinned.labels[label]? = some (kept (.define r.name) r.code.toList k) := by
  have htidy := h.tidy.thin r.name
  rw [h.built, ofBody_labels_getElem? h.tidy.labels] at hl
  obtain ⟨i, hi, hlabel⟩ := Option.bind_eq_some_iff.1 hl
  have hop : i.op = .label := by
    unfold Instruction.label? at hlabel
    split at hlabel
    · next hop => exact hop
    · cases hlabel
  refine (ofBody_labels_getElem? htidy.labels label _).2 ?_
  rw [getElem?_kept hi (isReversedMove_eq_false (by rw [hop]; simp))]
  exact hlabel

end Compiled

end Routine

namespace Calls

def thinned (c : Calls) : Calls where
  general := c.general
  heap := c.heap
  frame := c.frame.thinned
  waiting := c.waiting
  callers := c.callers.map Activation.thinned

/-- The variable that an instruction moves from or to the accumulator is equal to it. -/
def Synced (c : Calls) (i : Instruction) : Prop :=
  ∀ k < c.frame.routine.frameSize,
    i = .mov (.heap (.ofNat k)) acc ∨ i = .mov acc (.heap (.ofNat k)) →
    ∃ cell, State.cell c.frame.base k = .ok cell ∧ c.heap.get? cell = some (c.get .ra)

/-- If the instruction to run is not kept, it has nothing to do. -/
def Calm (c : Calls) : Prop :=
  ∀ i, c.instruction? = some i → isReversedMove c.frame.last i → c.Synced c.frame.last

variable {settings : Settings} {image : Image} {limit : Nat} {c c' : Calls} {i : Instruction}

theorem getElem?_code (hi : c.instruction? = some i) :
    c.frame.routine.code.toList[c.frame.position]? = some i := by
  rw [Array.getElem?_toList]
  exact hi

@[simp] theorem thinned_height (c : Calls) : c.thinned.height = c.height := by
  have hreturns (callers : List Activation) :
      (returns (callers.map Activation.thinned)).length = (returns callers).length := by
    induction callers with
    | nil => rfl
    | cons caller rest ih =>
      rw [List.map_cons, returns, returns, List.length_cons, List.length_cons, List.length_append,
        List.length_append, ih]
      rfl
  rw [height, height, cells, cells, List.length_append, List.length_append]
  exact congrArg (c.waiting.length + ·) (hreturns c.callers)

theorem thinned_instruction (hi : c.instruction? = some i)
    (hr : isReversedMove c.frame.last i = false) : c.thinned.instruction? = some i := by
  change c.frame.routine.thinned.code[_]? = _
  rw [← Array.getElem?_toList, Routine.thinned_code]
  exact getElem?_kept (getElem?_code hi) hr

theorem thinned_instruction_end (hi : c.instruction? = none) : c.thinned.instruction? = none := by
  have hend : c.frame.routine.code.toList[c.frame.position]? = none := by
    rw [Array.getElem?_toList]
    exact hi
  change c.frame.routine.thinned.code[_]? = _
  rw [← Array.getElem?_toList, Routine.thinned_code]
  exact getElem?_kept_of_length_le (List.getElem?_eq_none_iff.1 hend)

theorem advance_thinned (hi : c.instruction? = some i)
    (hr : isReversedMove c.frame.last i = false) : c.advance.thinned = c.thinned.advance := by
  have hkept := kept_succ (getElem?_code hi) hr
  simp only [thinned, advance, goto, Frame.thinned, hkept]

theorem advance_thinned_of_reversed (hi : c.instruction? = some i)
    (hr : isReversedMove c.frame.last i) : c.advance.thinned = c.thinned := by
  have hkept := kept_succ_of_reversed (getElem?_code hi) hr
  simp only [thinned, advance, goto, Frame.thinned, hkept]

theorem last_advance (hi : c.instruction? = some i)
    (hr : isReversedMove c.frame.last i = false) : c.advance.frame.last = i :=
  lastKept_succ (getElem?_code hi) hr

theorem last_advance_of_reversed (hi : c.instruction? = some i)
    (hr : isReversedMove c.frame.last i) : c.advance.frame.last = c.frame.last :=
  lastKept_succ_of_reversed (getElem?_code hi) hr

theorem Calm.of_advance (hi : c.instruction? = some i)
    (hr : isReversedMove c.frame.last i = false) (hf : c'.frame = c.advance.frame)
    (hs : c'.Synced i) : c'.Calm := by
  intro j _ _
  rw [hf, last_advance hi hr]
  exact hs

theorem Synced.of_op (h : i.op ≠ .mov) : c.Synced i := by
  rintro k - (rfl | rfl)
  · exact absurd rfl h
  · exact absurd rfl h

theorem Synced.of_cell {k : Nat} {cell : Int} (hframe : c.frame.routine.frameSize < 2 ^ 63)
    (hi : i = .mov (.heap (.ofNat k)) acc ∨ i = .mov acc (.heap (.ofNat k)))
    (hk : k < c.frame.routine.frameSize) (hcell : State.cell c.frame.base k = .ok cell)
    (hv : c.heap.get? cell = some (c.get .ra)) : c.Synced i := by
  intro l hl hi'
  have hoperand : Operand.heap (.ofNat k) = .heap (.ofNat l) := by
    rcases hi with rfl | rfl <;> rcases hi' with he | he <;>
      simp only [Instruction.mov, Instruction.mk.injEq, Option.some.injEq, acc, reduceCtorEq,
        and_true, true_and, and_false] at he <;> exact he
  have hkl : k = l := ofNat_inj (by omega) (by omega) (Operand.heap.inj hoperand)
  subst hkl
  exact ⟨cell, hcell, hv⟩

theorem Calm.of_op {j : Instruction} (hj : c.instruction? = some j) (h : j.op ≠ .mov) : c.Calm := by
  intro i hi hr
  cases hj.symm.trans hi
  exact absurd (isReversedMove_op hr).2 h

theorem set_get (c : Calls) (r : Register) : c.set r (c.get r) = c :=
  congrArg (fun registers => { c with general := registers.general })
    (Registers.set_get ⟨c.general, 0⟩ r)

namespace Proper

theorem emitted_last (h : c.Proper settings image limit) (hr : isReversedMove c.frame.last i) :
    Emitted (fun _ => True) c.frame.routine.frameSize c.frame.last := by
  rcases List.mem_cons.1 (lastKept_mem (.define c.frame.routine.name)
    (c.frame.routine.code.toList.take c.frame.position)) with hl | hl
  · have hop := (isReversedMove_op hr).1
    rw [Frame.last, hl] at hop
    cases hop
  · exact h.compiled.tidy.emitted _ (List.mem_of_mem_take hl)

/-- A move that is not kept does nothing. -/
theorem step_reversed (h : c.Proper settings image limit) (hlimit : limit < 2 ^ 63)
    (hcalm : c.Calm) (hi : c.instruction? = some i) (hr : isReversedMove c.frame.last i) :
    c.state.step settings image = .ok (.moved c.advance.state) := by
  have hframe := h.compiled.frameSize_le hlimit
  have hlast := h.emitted_last hr
  have hop := (isReversedMove_op hr).2
  cases h.compiled.emitted hi with
  | constant ho =>
    rw [hlast.not_reversed_constant ho] at hr
    cases hr
  | load hk =>
    obtain ⟨cell, hcell, hv⟩ := hcalm _ hi hr _ hk (.inr (hlast.of_reversed_load hr))
    rw [step_load hi (by omega), load, hcell]
    simp only [Except.bind, hv, Except.map, set_get]
  | store hk =>
    obtain ⟨cell, hcell, hv⟩ := hcalm _ hi hr _ hk (.inl (hlast.of_reversed_store hr))
    rw [step_store hi (by omega), store, hcell]
    simp only [Except.map, Memory.set_of_get? hv]
  | _ => cases hop

theorem advance_reversed (h : c.Proper settings image limit) (hi : c.instruction? = some i)
    (hr : isReversedMove c.frame.last i) : c.advance.Proper settings image limit := by
  have hop : i.op.settle c.waiting.length = some c.waiting.length := by
    rw [(isReversedMove_op hr).2]
    rfl
  exact h.advance hi hop rfl rfl rfl

theorem calm_reversed (hcalm : c.Calm) (hi : c.instruction? = some i)
    (hr : isReversedMove c.frame.last i) : c.advance.Calm := by
  intro j _ _
  rw [last_advance_of_reversed hi hr]
  exact hcalm i hi hr

end Proper

/-- The steps of the code and of the thinned code lead to the same, in different places. -/
inductive Agree (settings : Settings) (image : Image) (limit : Nat) :
    Except RunError Transition → Except RunError Transition → Prop where
  | moved {c : Calls} : c.Proper settings image limit → c.Calm →
      Agree settings image limit (.ok (.moved c.state)) (.ok (.moved c.thinned.state))
  | printed {c : Calls} {text : String} : c.Proper settings image limit → c.Calm →
      Agree settings image limit (.ok (.printed text c.state)) (.ok (.printed text c.thinned.state))
  | entered {c : Calls} : c.Proper settings image limit → c.Calm →
      Agree settings image limit (.ok (.entered c.state)) (.ok (.entered c.thinned.state))
  | left {c : Calls} : c.Proper settings image limit → c.Calm →
      Agree settings image limit (.ok (.left c.state)) (.ok (.left c.thinned.state))
  | halted {halt : Halt} : Agree settings image limit (.ok (.halted halt)) (.ok (.halted halt))
  | error {e : RunError} : Agree settings image limit (.error e) (.error e)

def ThinnedImage (image image' : Image) : Prop :=
  ∀ name, image'.find? name = (image.find? name).map Routine.thinned

theorem load_eq_ok {k : Nat} (h : c.load k = .ok c') :
    ∃ cell v, State.cell c.frame.base k = .ok cell ∧ c.heap.get? cell = some v ∧ c' = c.set .ra v := by
  rw [load] at h
  cases hcell : State.cell c.frame.base k with
  | error e =>
    rw [hcell] at h
    cases h
  | ok cell =>
    simp only [hcell, Except.bind] at h
    cases hv : c.heap.get? cell with
    | none =>
      rw [hv] at h
      cases h
    | some v =>
      rw [hv] at h
      exact ⟨cell, v, rfl, hv, (Except.ok.inj h).symm⟩

theorem store_eq_ok {k : Nat} (h : c.store k = .ok c') :
    ∃ cell, State.cell c.frame.base k = .ok cell ∧
      c' = { c with heap := c.heap.set cell (c.get .ra) } := by
  rw [store] at h
  cases hcell : State.cell c.frame.base k with
  | error e =>
    rw [hcell] at h
    cases h
  | ok cell =>
    rw [hcell] at h
    exact ⟨cell, rfl, (Except.ok.inj h).symm⟩

theorem thinned_load (c : Calls) (k : Nat) : c.thinned.load k = (c.load k).map thinned := by
  have hbase : c.thinned.frame.base = c.frame.base := rfl
  have hheap : c.thinned.heap = c.heap := rfl
  rw [load, load, hbase, hheap]
  cases State.cell c.frame.base k with
  | error e => rfl
  | ok cell =>
    simp only [Except.bind]
    cases c.heap.get? cell <;> rfl

theorem thinned_store (c : Calls) (k : Nat) : c.thinned.store k = (c.store k).map thinned := by
  change (State.cell c.frame.base k).map _ = _
  rw [store]
  cases State.cell c.frame.base k <;> rfl

section

variable {image' : Image}

namespace Proper

theorem agree_leave (h : c.Proper settings image limit) (hlimit : limit < 2 ^ 63)
    (hw : c.waiting = []) : Agree settings image limit c.state.leave c.thinned.state.leave := by
  obtain ⟨hc, hs⟩ | ⟨caller, rest, hc, hs⟩ := h.leave_eq hlimit hw
  · have hc' : c.thinned.callers = [] := by rw [thinned, hc, List.map_nil]
    rw [hs, leave_main hc']
    exact .halted
  · have hc' : c.thinned.callers = caller.thinned :: rest.map Activation.thinned := by
      rw [thinned, hc, List.map_cons]
    have hcallers := h.callers
    rw [hc] at hcallers
    cases hcallers with
    | call _ hcomp _ hi _ =>
      have hlt := hcomp.position_lt hi
      have hle : caller.thinned.frame.position ≤ caller.frame.position := kept_le _ _ _
      -- The call instruction is kept, so that the caller goes on behind it in both.
      let before : Calls := ⟨c.general, c.heap, caller.frame, caller.waiting, rest⟩
      have hi' : before.instruction? = some (.call c.frame.routine.name) := hi
      have hcall : (Instruction.call c.frame.routine.name).op ≠ .mov := by simp [Instruction.call]
      have hkept := @isReversedMove_eq_false before.frame.last _ hcall
      have hnext : c.thinned.resume caller.thinned (rest.map Activation.thinned) =
          (c.resume caller rest).thinned := (advance_thinned hi' hkept).symm
      have hheight : c.thinned.height < 2 ^ 63 := by
        rw [thinned_height]
        exact h.height
      rw [hs, leave_call hc' hw hheight (by omega), hnext]
      exact .left (h.resume hc) (.of_advance hi' hkept rfl (.of_op hcall))

theorem agree_advance (h : c.Proper settings image limit) (hi : c.instruction? = some i)
    (hr : isReversedMove c.frame.last i = false)
    (hs : i.op.settle c.waiting.length = some c.waiting.length) (hf : c'.frame = c.frame)
    (hw : c'.waiting = c.waiting) (hc : c'.callers = c.callers) (hsynced : c'.Synced i) :
    Agree settings image limit (.ok (.moved c'.advance.state))
      (.ok (.moved c'.thinned.advance.state)) := by
  have hi' : c'.instruction? = some i := by
    rw [instruction?, hf]
    exact hi
  have hr' : isReversedMove c'.frame.last i = false := by
    rw [hf]
    exact hr
  rw [← advance_thinned hi' hr']
  exact .moved (h.advance hi hs hf hw hc) (.of_advance hi' hr' rfl hsynced)

theorem agree_load (h : c.Proper settings image limit) (hlimit : limit < 2 ^ 63) {k : Nat}
    (hi : c.instruction? = some (.mov (.heap (.ofNat k)) acc)) (hk : k < c.frame.routine.frameSize)
    (hr : isReversedMove c.frame.last (.mov (.heap (.ofNat k)) acc) = false) :
    Agree settings image limit (c.state.step settings image)
      (c.thinned.state.step settings image') := by
  have hframe := h.compiled.frameSize_le hlimit
  rw [step_load hi (by omega), step_load (thinned_instruction hi hr) (by omega), thinned_load]
  cases hload : c.load k with
  | error e => exact .error
  | ok c' =>
    obtain ⟨cell, v, hcell, hv, rfl⟩ := load_eq_ok hload
    refine h.agree_advance hi hr rfl rfl rfl rfl ?_
    refine .of_cell (Nat.lt_of_le_of_lt hframe hlimit) (.inl rfl) hk hcell ?_
    rw [get_set_same]
    exact hv

theorem agree_store (h : c.Proper settings image limit) (hlimit : limit < 2 ^ 63) {k : Nat}
    (hi : c.instruction? = some (.mov acc (.heap (.ofNat k)))) (hk : k < c.frame.routine.frameSize)
    (hr : isReversedMove c.frame.last (.mov acc (.heap (.ofNat k))) = false) :
    Agree settings image limit (c.state.step settings image)
      (c.thinned.state.step settings image') := by
  have hframe := h.compiled.frameSize_le hlimit
  rw [step_store hi (by omega), step_store (thinned_instruction hi hr) (by omega), thinned_store]
  cases hstore : c.store k with
  | error e => exact .error
  | ok c' =>
    obtain ⟨cell, hcell, rfl⟩ := store_eq_ok hstore
    refine h.agree_advance hi hr rfl rfl rfl rfl ?_
    refine .of_cell (Nat.lt_of_le_of_lt hframe hlimit) (.inr rfl) hk hcell ?_
    rw [Memory.get?_set, if_pos rfl]
    rfl

theorem agree_push (h : c.Proper settings image limit) (hi : c.instruction? = some (.push acc)) :
    Agree settings image limit (c.state.step settings image)
      (c.thinned.state.step settings image') := by
  have hpush : (Instruction.push acc).op ≠ .mov := by simp [Instruction.push]
  have hr := @isReversedMove_eq_false c.frame.last _ hpush
  have hi' := thinned_instruction hi hr
  by_cases hh : c.height + 1 < 2 ^ 63
  · rw [step_push hi hh, step_push hi' (by rwa [thinned_height])]
    have hnext : (c.thinned.push (c.thinned.get .ra)).advance = (c.push (c.get .ra)).advance.thinned :=
      (@advance_thinned (c.push (c.get .ra)) _ hi hr).symm
    rw [hnext]
    exact .moved (h.push hi hh _) (@Calm.of_advance (c.push (c.get .ra)) _ _ hi hr rfl (.of_op hpush))
  · rw [step_push_full hi (h.height_full hh), step_push_full hi' (by rw [thinned_height]; exact h.height_full hh)]
    exact .error

theorem agree_pop (h : c.Proper settings image limit) (hi : c.instruction? = some (.pop (.reg .rb))) :
    Agree settings image limit (c.state.step settings image)
      (c.thinned.state.step settings image') := by
  have hpop : (Instruction.pop (.reg .rb)).op ≠ .mov := by simp [Instruction.pop]
  have hr := @isReversedMove_eq_false c.frame.last _ hpop
  obtain ⟨v, rest, hw, hproper⟩ := h.pop hi
  let next := ({ c with waiting := rest }).set .rb v
  have hnext : ({ c.thinned with waiting := rest }.set .rb v).advance = next.advance.thinned :=
    (@advance_thinned next _ hi hr).symm
  have hheight : c.thinned.height < 2 ^ 63 := by
    rw [thinned_height]
    exact h.height
  rw [step_pop hi hw h.height, step_pop (thinned_instruction hi hr) hw hheight, hnext]
  exact .moved hproper (@Calm.of_advance next _ _ hi hr rfl (.of_op hpop))

theorem agree_jump (h : c.Proper settings image limit) {label : String}
    (hi : c.instruction? = some (.jump label)) :
    Agree settings image limit (c.state.step settings image)
      (c.thinned.state.step settings image') := by
  have hjump : (Instruction.jump label).op ≠ .mov := by simp [Instruction.jump]
  have hi' := thinned_instruction hi (@isReversedMove_eq_false c.frame.last _ hjump)
  obtain ⟨k, hl, j, hj, hlabel⟩ := h.compiled.exists_label hi rfl
  have hw := h.waiting_eq_nil hi fun _ => rfl
  rw [step_jump hi hl, step_jump hi' (h.compiled.thinned_label hl)]
  exact .moved (h.goto hw hj hlabel) (.of_op hj (by rw [hlabel]; simp))

theorem agree_jumpIfNot (h : c.Proper settings image limit) {label : String}
    (hi : c.instruction? = some (.jumpIfNot acc label)) :
    Agree settings image limit (c.state.step settings image)
      (c.thinned.state.step settings image') := by
  have hjump : (Instruction.jumpIfNot acc label).op ≠ .mov := by simp [Instruction.jumpIfNot]
  have hr := @isReversedMove_eq_false c.frame.last _ hjump
  have hi' := thinned_instruction hi hr
  obtain ⟨k, hl, j, hj, hlabel⟩ := h.compiled.exists_label hi rfl
  have hw := h.waiting_eq_nil hi fun _ => rfl
  rw [step_jumpIfNot hi hl, step_jumpIfNot hi' (h.compiled.thinned_label hl)]
  change Agree settings image limit _ (((c.get .ra).asInt.mapError RunError.value).map _)
  cases (c.get .ra).asInt with
  | error e => exact .error
  | ok n =>
    by_cases hn : n = 0
    · simp only [Except.mapError, Except.map, if_pos hn]
      exact .moved (h.goto hw hj hlabel) (.of_op hj (by rw [hlabel]; simp))
    · simp only [Except.mapError, Except.map, if_neg hn]
      refine h.agree_advance hi hr ?_ rfl rfl rfl (.of_op hjump)
      rw [hw]
      rfl

theorem enter_thinned (h : c.Proper settings image limit) (hlimit : limit < 2 ^ 63)
    {callee : Routine} (hcallee : callee.Compiled image limit) :
    c.thinned.enter callee.thinned = (c.enter callee).thinned := by
  have hframe : c.thinned.frame.routine.frameSize = c.frame.routine.frameSize :=
    h.compiled.thinned_frameSize hlimit
  have hzero : (c.enter callee).frame.thinned =
      ⟨callee.thinned, 0, c.frame.base + c.frame.routine.frameSize⟩ := by
    rw [Frame.thinned]
    exact congrArg (Frame.mk _ · _) kept_zero
  have hleft : c.thinned.enter callee.thinned = { (c.enter callee).thinned with
      frame := ⟨callee.thinned, 0, c.frame.base + c.frame.routine.frameSize⟩ } := by
    rw [Calls.enter, hframe, hcallee.thinned_frameSize hlimit]
    rfl
  rw [hleft, ← hzero]
  rfl

theorem start_thinned (h : c.Proper settings image limit) (hlimit : limit < 2 ^ 63)
    {callee : Routine} (hcallee : callee.Compiled image limit) :
    c.thinned.start settings callee.thinned = (c.start settings callee).map thinned :=
  start_eq_map (h.compiled.thinned_frameSize hlimit) rfl (List.length_map _)
    (hcallee.thinned_frameSize hlimit) (enter_thinned h hlimit hcallee)

theorem calm_enter (c : Calls) (callee : Routine) : (c.enter callee).Calm :=
  fun _ _ hr => nomatch (isReversedMove_op hr).1

theorem agree_perform (h : c.Proper settings image limit) {name : String}
    (hi : c.instruction? = some (.call name)) (effect : State.Effect) :
    Agree settings image limit (.ok (c.perform effect)) (.ok (c.thinned.perform effect)) := by
  have hcall : (Instruction.call name).op ≠ .mov := by simp [Instruction.call]
  have hr := @isReversedMove_eq_false c.frame.last _ hcall
  cases effect with
  | nothing => exact h.agree_advance hi hr rfl rfl rfl rfl (.of_op hcall)
  | print text =>
    rw [perform, perform, ← advance_thinned hi hr]
    exact .printed (h.advance hi rfl rfl rfl rfl) (.of_advance hi hr rfl (.of_op hcall))
  | halt halt => exact .halted

theorem agree_call (h : c.Proper settings image limit) (hlimit : limit < 2 ^ 63)
    (himage : image.Compiled limit) (himage' : ThinnedImage image image') {name : String}
    (hi : c.instruction? = some (.call name)) :
    Agree settings image limit (c.state.step settings image)
      (c.thinned.state.step settings image') := by
  have hcall : (Instruction.call name).op ≠ .mov := by simp [Instruction.call]
  have hi' := thinned_instruction hi (@isReversedMove_eq_false c.frame.last _ hcall)
  have hheight := thinned_height c
  by_cases hh : c.height + 1 < 2 ^ 63
  · have hh' : c.thinned.height + 1 < 2 ^ 63 := by rwa [hheight]
    cases hb : Builtin.ofName? name with
    | some b =>
      rw [step_call_builtin hi hb hh, step_call_builtin hi' hb hh']
      change Agree settings image limit _ ((State.effect settings (c.get .ra) b).map _)
      cases State.effect settings (c.get .ra) b with
      | error e => exact .error
      | ok effect => exact h.agree_perform hi effect
    | none =>
      have hfind := himage' name
      cases hf : image.find? name with
      | none =>
        rw [hf] at hfind
        rw [step_call_missing hi hb hf hh, step_call_missing hi' hb hfind hh']
        exact .error
      | some callee =>
        rw [hf] at hfind
        obtain ⟨rfl, hcallee⟩ := himage name callee hf
        rw [step_call hi hb hf hh, step_call hi' hb hfind hh', h.start_thinned hlimit hcallee]
        cases hstart : c.start settings callee with
        | error e => exact .error
        | ok c' =>
          obtain ⟨hd, rfl⟩ := enter_of_start hstart
          exact .entered (h.enter hi hcallee hh hd) (calm_enter c callee)
  · rw [step_call_full hi (h.height_full hh),
      step_call_full hi' (by rw [hheight]; exact h.height_full hh)]
    exact .error

/-- Where the instruction is kept, the thinned code takes the same step. -/
theorem agree (h : c.Proper settings image limit) (hlimit : limit < 2 ^ 63)
    (himage : image.Compiled limit) (himage' : ThinnedImage image image')
    (hr : ∀ i, c.instruction? = some i → isReversedMove c.frame.last i = false) :
    Agree settings image limit (c.state.step settings image)
      (c.thinned.state.step settings image') := by
  cases hi : c.instruction? with
  | none =>
    obtain ⟨hw, hs⟩ := h.step_end hi
    have hs' : c.thinned.state.step settings image' = c.thinned.state.leave := by
      have hnone : c.thinned.state.instruction? = none := thinned_instruction_end hi
      rw [State.step, hnone]
    rw [hs, hs']
    exact h.agree_leave hlimit hw
  | some i =>
    have hr := hr i hi
    have hi' := thinned_instruction hi hr
    cases h.compiled.emitted hi with
    | constant ho =>
      obtain ⟨v, hv, hs⟩ := @step_constant settings image c _ hi ho
      obtain ⟨v', hv', hs'⟩ := @step_constant settings image' c.thinned _ hi' ho
      cases hv.symm.trans hv'
      rw [hs, hs']
      refine h.agree_advance hi hr rfl rfl rfl rfl ?_
      rintro k - (he | he) <;> cases ho <;> cases he
    | load hk => exact h.agree_load hlimit hi hk hr
    | store hk => exact h.agree_store hlimit hi hk hr
    | push => exact h.agree_push hi
    | pop => exact h.agree_pop hi
    | arith op =>
      rw [step_arith hi, step_arith hi']
      change Agree settings image limit _
        (((op.apply (c.get .rb) (c.get .ra)).mapError RunError.value).map _)
      cases op.apply (c.get .rb) (c.get .ra) with
      | error e => exact .error
      | ok v => exact h.agree_advance hi hr rfl rfl rfl rfl (.of_op (by simp))
    | compare op =>
      rw [step_compare hi, step_compare hi']
      change Agree settings image limit _
        (((op.holds (c.get .rb) (c.get .ra)).mapError RunError.value).map _)
      cases op.holds (c.get .rb) (c.get .ra) with
      | error e => exact .error
      | ok holds => exact h.agree_advance hi hr rfl rfl rfl rfl (.of_op (by simp))
    | call => exact h.agree_call hlimit himage himage' hi
    | ret =>
      obtain ⟨hw, hs⟩ := h.step_ret hi
      rw [hs, step_eq_execute hi']
      exact h.agree_leave hlimit hw
    | jump => exact h.agree_jump hi
    | jumpIfNot => exact h.agree_jumpIfNot hi
    | label =>
      rw [step_label hi, step_label hi']
      refine h.agree_advance hi hr ?_ rfl rfl rfl (.of_op (by simp [Instruction.label]))
      rw [h.waiting_eq_nil hi fun _ => rfl]
      rfl

/-- There are only so many moves in a row that are not kept; the run goes through them. -/
theorem exists_kept (h : c.Proper settings image limit) (hlimit : limit < 2 ^ 63)
    (hcalm : c.Calm) (out : String) :
    ∃ c' : Calls, Path settings image c.state out c'.state out ∧ c'.thinned = c.thinned ∧
      c'.Proper settings image limit ∧ c'.Calm ∧
      ∀ i, c'.instruction? = some i → isReversedMove c'.frame.last i = false := by
  -- Moves in a row that are not kept come to an end with the code.
  induction hn : c.frame.routine.code.size - c.frame.position generalizing c with
  | zero =>
    refine ⟨c, .refl _ _, rfl, h, hcalm, fun i hi => ?_⟩
    have hlt := (Array.getElem?_eq_some_iff.1 hi).1
    omega
  | succ n ih =>
    by_cases hkept : ∀ i, c.instruction? = some i → isReversedMove c.frame.last i = false
    · exact ⟨c, .refl _ _, rfl, h, hcalm, hkept⟩
    · simp only [not_forall, Bool.not_eq_false] at hkept
      obtain ⟨i, hi, hr⟩ := hkept
      have hnext : c.advance.frame.routine.code.size - c.advance.frame.position = n := by
        change c.frame.routine.code.size - (c.frame.position + 1) = n
        omega
      obtain ⟨c', hpath, hthinned, hc'⟩ :=
        ih (h.advance_reversed hi hr) (calm_reversed hcalm hi hr) hnext
      refine ⟨c', (Path.moved (h.step_reversed hlimit hcalm hi hr)).trans hpath, ?_, hc'⟩
      rw [hthinned, advance_thinned_of_reversed hi hr]

theorem ends_thinned (h : c.Proper settings image limit) (hlimit : limit < 2 ^ 63)
    (himage : image.Compiled limit) (himage' : ThinnedImage image image') (hcalm : c.Calm)
    {fuel : Nat} {out : String} {o : Outcome}
    (hrun : c.state.run settings image fuel out = some o) :
    c.thinned.state.Ends settings image' out o := by
  induction fuel generalizing c out with
  | zero => cases hrun
  | succ fuel ih =>
    by_cases hkept : ∀ i, c.instruction? = some i → isReversedMove c.frame.last i = false
    · have hagree := h.agree hlimit himage himage' hkept
      generalize hs : c.state.step settings image = r at hagree
      generalize hs' : c.thinned.state.step settings image' = r' at hagree
      cases hagree with
      | moved h' hcalm' | printed h' hcalm' | entered h' hcalm' | left h' hcalm' =>
        rw [State.run_next hs rfl] at hrun
        exact .of_next hs' rfl (ih h' hcalm' hrun)
      | halted =>
        rw [State.run_halted hs] at hrun
        cases hrun
        exact .of_halted hs' out
      | error =>
        rw [State.run_error hs] at hrun
        cases hrun
        exact .of_error hs' out
    · simp only [not_forall, Bool.not_eq_false] at hkept
      obtain ⟨i, hi, hr⟩ := hkept
      have hend := State.run_next (h.step_reversed hlimit hcalm hi hr) rfl fuel out
      have htext : (Transition.moved c.advance.state).text = "" := rfl
      rw [hend, htext, String.append_empty] at hrun
      rw [← advance_thinned_of_reversed hi hr]
      exact ih (h.advance_reversed hi hr) (calm_reversed hcalm hi hr) hrun

theorem ends_of_thinned (h : c.Proper settings image limit) (hlimit : limit < 2 ^ 63)
    (himage : image.Compiled limit) (himage' : ThinnedImage image image') (hcalm : c.Calm)
    {fuel : Nat} {out : String} {o : Outcome}
    (hrun : c.thinned.state.run settings image' fuel out = some o) :
    c.state.Ends settings image out o := by
  induction fuel generalizing c out with
  | zero => cases hrun
  | succ fuel ih =>
    obtain ⟨c', hpath, hthinned, h', hcalm', hkept⟩ := h.exists_kept hlimit hcalm out
    refine hpath.ends ?_
    rw [← hthinned] at hrun
    have hagree := h'.agree hlimit himage himage' hkept
    generalize hs : c'.state.step settings image = r at hagree
    generalize hs' : c'.thinned.state.step settings image' = r' at hagree
    cases hagree with
    | moved h' hcalm' | printed h' hcalm' | entered h' hcalm' | left h' hcalm' =>
      rw [State.run_next hs' rfl] at hrun
      exact .of_next hs rfl (ih h' hcalm' hrun)
    | halted =>
      rw [State.run_halted hs'] at hrun
      cases hrun
      exact .of_halted hs out
    | error =>
      rw [State.run_error hs'] at hrun
      cases hrun
      exact .of_error hs out

end Proper

theorem initial_thinned (main : Routine) : (initial main).thinned = initial main.thinned := by
  have hzero : (initial main).frame.thinned = ⟨main.thinned, 0, 0⟩ := by
    rw [Frame.thinned]
    exact congrArg (Frame.mk _ · _) kept_zero
  rw [thinned, hzero]
  rfl

theorem calm_initial (main : Routine) : (initial main).Calm :=
  fun _ _ hr => nomatch (isReversedMove_op hr).1

end

end Calls

/-- Thinning does not change how the runs of an image end. -/
theorem Calls.ThinnedImage.ends_iff {settings : Settings} {image image' : Image} {limit : Nat}
    (h : Calls.ThinnedImage image image') (hlimit : limit < 2 ^ 63)
    (himage : image.Compiled limit) (o : Outcome) :
    (∃ fuel, image'.run settings fuel = some o) ↔ ∃ fuel, image.run settings fuel = some o := by
  have hmain := h "main"
  unfold Image.run
  cases hf : image.find? "main" with
  | none =>
    rw [hf] at hmain
    rw [hmain]
    rfl
  | some main =>
    rw [hf] at hmain
    rw [hmain]
    have hproper : (Calls.initial main).Proper settings image limit := .initial (himage _ _ hf).2
    simp only [Option.map_some, ← Calls.initial_state, ← Calls.initial_thinned]
    constructor
    · rintro ⟨fuel, hrun⟩
      exact hproper.ends_of_thinned hlimit himage h (Calls.calm_initial main) hrun
    · rintro ⟨fuel, hrun⟩
      exact hproper.ends_thinned hlimit himage h (Calls.calm_initial main) hrun

end BlueCode
