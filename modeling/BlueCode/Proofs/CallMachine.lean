import BlueCode.Proofs.Activations
import BlueCode.Proofs.LocalRewrites

namespace BlueCode

open Compile

/-- The operand is neither the stack pointer nor the stack cell that it points to. -/
def Operand.Plain (o : Option Operand) : Prop :=
  o ≠ some .stackPointer ∧ o ≠ some .stackTop

/-- The instruction has the operands that belong to its operation, and none names the stack
pointer. -/
structure Instruction.Plain (i : Instruction) : Prop where
  formed : i.Formed
  src : Operand.Plain i.src
  dst : Operand.Plain i.dst

structure Image.Plain (image : Image) : Prop where
  name {name : String} {r : Routine} : image.find? name = some r → r.name = name
  plain {name : String} {r : Routine} : image.find? name = some r → ∀ i ∈ r.code, i.Plain
  size {name : String} {r : Routine} : image.find? name = some r → r.code.size < 2 ^ 63

inductive Origin where
  | pushed
  | called
  deriving DecidableEq, Repr

namespace State

/-- How the values on the stack have come there, the topmost first, after a step. -/
def trace (s : State) (transition : Transition) (origins : List Origin) : List Origin :=
  match transition with
  | .entered _ => .called :: origins
  | .left _ => origins.tail
  | _ =>
    match s.instruction?.map Instruction.op with
    | some .push => .pushed :: origins
    | some .pop => origins.tail
    | _ => origins

inductive Traced (settings : Settings) (image : Image) : State → List Origin → Prop where
  | start {main : Routine} : image.find? "main" = some main →
      Traced settings image (.start main) []
  | step {s next : State} {origins : List Origin} {transition : Transition} :
      Traced settings image s origins → s.step settings image = .ok transition →
      transition.next? = some next → Traced settings image next (s.trace transition origins)

end State

/-- No `pop` takes the address that a call has pushed, and no call other than the first one of the
main routine takes for its return address what `push` has pushed. Running off the end of the code is
a return. -/
structure Image.Disciplined (settings : Settings) (image : Image) : Prop where
  pops {s : State} {origins : List Origin} {i : Instruction} : s.Traced settings image origins →
    s.instruction? = some i → i.op = .pop → origins.head? ≠ some .called
  returns {s : State} {origins : List Origin} : s.Traced settings image origins →
    (∀ i, s.instruction? = some i → i.op = .ret) → s.callers ≠ #[] → origins.head? ≠ some .pushed

namespace Calls

inductive Move where
  | next (text : String) (calls : Calls)
  | halted (halt : Halt)
  /-- An address is to be taken for a value, or a value for an address. -/
  | mixed

def origins (c : Calls) : List Origin :=
  c.waiting.map (fun _ => .pushed) ++
    c.callers.flatMap fun a => .called :: a.waiting.map fun _ => .pushed

def put (c : Calls) (o : Option Operand) (v : Value) : Except RunError Calls :=
  (c.state.write o v).map fun s => { c with general := s.registers.general, heap := s.heap }

def save (c : Calls) (v : Value) : Except RunError Calls :=
  if c.height + 1 < 2 ^ 63 then .ok (c.push v) else .error .stackPointerOverflow

def jump (c : Calls) (label : String) : Except RunError Calls :=
  match c.frame.routine.labels[label]? with
  | some position => .ok (c.goto position)
  | none => .error (.unresolvedLabel c.frame.routine.name label)

def restore (c : Calls) (o : Option Operand) : Except RunError Move :=
  match c.waiting, c.callers with
  | v :: rest, _ => do return .next "" (← { c with waiting := rest }.put o v).advance
  | [], [] => .error .stackUnderflow
  | [], _ :: _ => .ok .mixed

def quit (c : Calls) : Move :=
  match c.callers with
  | [] => .halted (.returned (c.get .ra))
  | caller :: rest => if c.waiting = [] then .next "" (c.resume caller rest) else .mixed

def proceed (c : Calls) : State.Effect → Move
  | .nothing => .next "" c.advance
  | .print text => .next text c.advance
  | .halt halt => .halted halt

def invoke (settings : Settings) (image : Image) (c : Calls) (name : String) :
    Except RunError Move := do
  let _ ← c.save .null
  match Builtin.ofName? name with
  | some b => return c.proceed (← State.effect settings (c.get .ra) b)
  | none =>
    match image.find? name with
    | some callee => return .next "" (← c.start settings callee)
    | none => throw (.missingFunction name)

def follow (settings : Settings) (image : Image) (c : Calls) (i : Instruction) :
    Except RunError Move :=
  match i.op with
  | .mov => do
    let v ← c.state.read i.src
    return .next "" (← c.put i.dst v).advance
  | .push => do
    let v ← c.state.read i.src
    return .next "" (← c.save v).advance
  | .pop => c.restore i.dst
  | .arith op => do
    let left ← c.state.read i.src
    let right ← c.state.read i.dst
    let v ← (op.apply left right).mapError RunError.value
    return .next "" (← c.put i.dst v).advance
  | .compare op => do
    let left ← c.state.read i.src
    let right ← c.state.read i.dst
    let holds ← (op.holds left right).mapError RunError.value
    return .next "" (c.set .ra (.ofBool holds)).advance
  | .jump => do return .next "" (← c.jump i.target)
  | .jumpIfNot => do
    let v ← c.state.read i.src
    let n ← v.asInt.mapError RunError.value
    if n = 0 then return .next "" (← c.jump i.target) else return .next "" c.advance
  | .call => c.invoke settings image i.target
  | .ret => .ok c.quit
  | .define | .label => .ok (.next "" c.advance)

def next (settings : Settings) (image : Image) (c : Calls) : Except RunError Move :=
  match c.instruction? with
  | some i => c.follow settings image i
  | none => .ok c.quit

/-- The outcome of at most `fuel` steps; there is none inside if values and addresses are mixed. -/
def run (settings : Settings) (image : Image) : Nat → Calls → String → Option (Option Outcome)
  | 0, _, _ => none
  | fuel + 1, c, out =>
    match c.next settings image with
    | .ok (.next text c') => c'.run settings image fuel (out ++ text)
    | .ok (.halted halt) => some (some ⟨.ok halt, out⟩)
    | .ok .mixed => some none
    | .error e => some (some ⟨.error e, out⟩)

/-- The step of the machine is that of the calls, unless values and addresses are mixed. -/
inductive Mirrors (c : Calls) : Except RunError Move → Except RunError Transition → Prop where
  | next {c' : Calls} {transition : Transition} : transition.next? = some c'.state →
      c.state.trace transition c.origins = c'.origins →
      Mirrors c (.ok (.next transition.text c')) (.ok transition)
  | halted {halt : Halt} : Mirrors c (.ok (.halted halt)) (.ok (.halted halt))
  | error {e : RunError} : Mirrors c (.error e) (.error e)
  | mixed {r : Except RunError Transition} : Mirrors c (.ok .mixed) r

/-- The calls are those of a run: the routines belong to the image, the calls wait at call
instructions, and the stack pointer has not gone beyond its range. -/
structure Orderly (image : Image) (c : Calls) : Prop where
  height : c.height < 2 ^ 63
  found : image.find? c.frame.routine.name = some c.frame.routine
  callers : ∀ a ∈ c.callers, image.find? a.frame.routine.name = some a.frame.routine ∧
    ∃ name, a.frame.instruction? = some (.call name)

variable {settings : Settings} {image : Image} {c c' : Calls} {i : Instruction} {v : Value}

theorem run_next {text : String} (h : c.next settings image = .ok (.next text c')) (fuel : Nat)
    (out : String) :
    c.run settings image (fuel + 1) out = c'.run settings image fuel (out ++ text) := by
  rw [run, h]

theorem run_halted {halt : Halt} (h : c.next settings image = .ok (.halted halt)) (fuel : Nat)
    (out : String) : c.run settings image (fuel + 1) out = some (some ⟨.ok halt, out⟩) := by
  rw [run, h]

theorem run_mixed (h : c.next settings image = .ok .mixed) (fuel : Nat) (out : String) :
    c.run settings image (fuel + 1) out = some none := by
  rw [run, h]

theorem run_error {e : RunError} (h : c.next settings image = .error e) (fuel : Nat)
    (out : String) : c.run settings image (fuel + 1) out = some (some ⟨.error e, out⟩) := by
  rw [run, h]

theorem put_eq_ok {o : Option Operand} (h : c.put o v = .ok c') :
    c'.frame = c.frame ∧ c'.waiting = c.waiting ∧ c'.callers = c.callers := by
  unfold put at h
  cases hw : c.state.write o v with
  | error e =>
    rw [hw] at h
    cases h
  | ok s =>
    rw [hw] at h
    cases h
    exact ⟨rfl, rfl, rfl⟩

theorem state_write {o : Option Operand} (h : Operand.Plain o) (v : Value) :
    c.state.write o v = (c.put o v).map state := by
  unfold put
  cases o with
  | none => rfl
  | some o =>
    cases o with
    | reg r => rfl
    | stackPointer => exact absurd rfl h.1
    | stackTop => exact absurd rfl h.2
    | heap address =>
      change State.cell c.frame.base address.toInt >>= _ =
        ((State.cell c.frame.base address.toInt >>= _).map _).map _
      cases State.cell c.frame.base address.toInt <;> rfl
    | _ => rfl

theorem save_eq_ok (h : c.save v = .ok c') : c.height + 1 < 2 ^ 63 ∧ c' = c.push v := by
  unfold save at h
  split at h
  · next hh => exact ⟨hh, (Except.ok.inj h).symm⟩
  · cases h

theorem jump_of_some {label : String} {k : Nat} (h : c.frame.routine.labels[label]? = some k) :
    c.jump label = .ok (c.goto k) := by
  rw [jump, h]

theorem jump_of_none {label : String} (h : c.frame.routine.labels[label]? = none) :
    c.jump label = .error (.unresolvedLabel c.frame.routine.name label) := by
  rw [jump, h]

theorem quit_main (h : c.callers = []) : c.quit = .halted (.returned (c.get .ra)) := by
  rw [quit, h]

theorem quit_call {caller : Activation} {rest : List Activation} (h : c.callers = caller :: rest) :
    c.quit = if c.waiting = [] then .next "" (c.resume caller rest) else .mixed := by
  rw [quit, h]

theorem origins_congr (hw : c'.waiting.length = c.waiting.length) (hc : c'.callers = c.callers) :
    c'.origins = c.origins := by
  rw [origins, origins, hc, List.map_const', List.map_const', hw]

theorem trace_moved {t : State} (hi : c.instruction? = some i)
    (hstay : i.op ≠ .push ∧ i.op ≠ .pop) (origins : List Origin) :
    c.state.trace (.moved t) origins = origins := by
  have hs : c.state.instruction? = some i := hi
  simp only [State.trace, hs, Option.map_some]
  split
  · next hop => exact absurd (Option.some.inj hop) hstay.1
  · next hop => exact absurd (Option.some.inj hop) hstay.2
  · rfl

namespace Mirrors

theorem bind {α : Type} (x : Except RunError α) {f : α → Except RunError Move}
    {g : α → Except RunError Transition} (h : ∀ a, Mirrors c (f a) (g a)) :
    Mirrors c (x >>= f) (x >>= g) := by
  cases x with
  | error e => exact .error
  | ok a => exact h a

theorem moved {t : State} (ht : t = c'.state) (h : c.state.trace (.moved t) c.origins = c'.origins) :
    Mirrors c (.ok (.next "" c')) (.ok (.moved t)) := by
  subst ht
  exact @next c c' (.moved c'.state) rfl h

theorem stayed {t : State} (hi : c.instruction? = some i) (hstay : i.op ≠ .push ∧ i.op ≠ .pop)
    (ht : t = c'.state) (hw : c'.waiting = c.waiting) (hc : c'.callers = c.callers) :
    Mirrors c (.ok (.next "" c')) (.ok (.moved t)) := by
  apply moved ht
  rw [trace_moved hi hstay, origins_congr (congrArg List.length hw) hc]

theorem put (hi : c.instruction? = some i) (hp : i.Plain) (hstay : i.op ≠ .push ∧ i.op ≠ .pop)
    (v : Value) : Mirrors c (c.put i.dst v >>= fun c' => .ok (.next "" c'.advance))
      (c.state.write i.dst v >>= fun t => .ok (.moved t.advance)) := by
  rw [state_write hp.dst]
  cases h : c.put i.dst v with
  | error e => exact .error
  | ok c' =>
    obtain ⟨-, hw, hc⟩ := put_eq_ok h
    exact stayed hi hstay rfl hw hc

theorem jump (hi : c.instruction? = some i) (hstay : i.op ≠ .push ∧ i.op ≠ .pop) (label : String) :
    Mirrors c (c.jump label >>= fun c' => .ok (.next "" c'))
      (c.state.jump label >>= fun t => .ok (.moved t)) := by
  unfold Calls.jump State.jump
  rw [state_frame]
  cases c.frame.routine.labels[label]? with
  | some position => exact stayed hi hstay rfl rfl rfl
  | none => exact .error

theorem push (hh : c.height < 2 ^ 63) (hi : c.instruction? = some i) (hop : i.op = .push)
    (v : Value) : Mirrors c (c.save v >>= fun c' => .ok (.next "" c'.advance))
      (c.state.push v >>= fun t => .ok (.moved t.advance)) := by
  unfold save
  split
  · next hroom =>
    rw [state_push hroom]
    refine moved rfl ?_
    have hs : c.state.instruction? = some i := hi
    simp only [State.trace, hs, Option.map_some, hop]
    rfl
  · rw [state_push_full (by omega)]
    exact .error

theorem pop (hh : c.height < 2 ^ 63) (hi : c.instruction? = some i) (hp : i.Plain)
    (hop : i.op = .pop) : Mirrors c (c.restore i.dst) (c.state.execute settings image i) := by
  have hs : c.state.instruction? = some i := hi
  have hexecute : c.state.execute settings image i = c.state.pop >>= fun p =>
      p.2.write i.dst p.1 >>= fun t => .ok (.moved t.advance) := by
    unfold State.execute
    rw [hop]
    rfl
  rw [hexecute]
  unfold restore
  split
  · next v rest hw =>
    have hv : c.cells = v :: (rest ++ returns c.callers) := by rw [cells, hw, List.cons_append]
    rw [state_pop hv hh]
    change Mirrors c _ (({ c with waiting := rest } : Calls).state.write i.dst v >>= _)
    rw [state_write hp.dst]
    cases h : Calls.put { c with waiting := rest } i.dst v with
    | error e => exact .error
    | ok c' =>
      obtain ⟨-, hw', hc⟩ := put_eq_ok h
      refine moved rfl ?_
      have htail : c.origins.tail = ({ c with waiting := rest } : Calls).origins := by
        rw [origins, hw]
        rfl
      simp only [State.trace, hs, Option.map_some, hop, htail]
      exact (origins_congr (congrArg List.length hw') hc).symm
  · next hw hc =>
    have hempty : c.cells = [] := by rw [cells, hw, hc, returns, List.append_nil]
    have hpop : c.state.pop = .error .stackUnderflow := by
      have hzero : c.state.stackPointer = 0 := by
        rw [State.stackPointer, state, height, hempty]
        rfl
      have hstack : c.state.stack = .empty := by
        rw [state, hempty]
        rfl
      unfold State.pop
      rw [hzero, hstack, if_neg (by decide)]
      simp only [Memory.get?_empty]
    rw [hpop]
    exact .error
  · exact .mixed

theorem call (hh : c.height < 2 ^ 63) {name : String} (hi : c.instruction? = some (.call name)) :
    Mirrors c (c.invoke settings image name) (c.state.step settings image) := by
  have hstay : (Instruction.call name).op ≠ .push ∧ (Instruction.call name).op ≠ .pop :=
    ⟨nofun, nofun⟩
  unfold invoke save
  split
  · next hroom =>
    cases hb : Builtin.ofName? name with
    | some b =>
      rw [step_call_builtin hi hb hroom]
      change Mirrors c (State.effect settings (c.get .ra) b >>= _) _
      cases State.effect settings (c.get .ra) b with
      | error e => exact .error
      | ok effect =>
        cases effect with
        | nothing => exact stayed hi hstay rfl rfl rfl
        | print text =>
          have htrace := trace_moved (t := c.advance.state) hi hstay c.origins
          exact @next c c.advance (.printed text c.advance.state) rfl htrace
        | halt halt => exact .halted
    | none =>
      cases hf : image.find? name with
      | none =>
        rw [step_call_missing hi hb hf hroom]
        exact .error
      | some callee =>
        rw [step_call hi hb hf hroom]
        change Mirrors c (c.start settings callee >>= _) _
        cases hs : c.start settings callee with
        | error e => exact .error
        | ok c' =>
          obtain ⟨-, rfl⟩ := enter_of_start hs
          exact @next c (c.enter callee) (.entered (c.enter callee).state) rfl rfl
  · rw [step_call_full hi (by omega)]
    exact .error

theorem leave (h : c.Orderly image) (himage : image.Plain) :
    Mirrors c (.ok c.quit) c.state.leave := by
  unfold quit
  split
  · next hc =>
    rw [leave_main hc]
    exact .halted
  · next caller rest hc =>
    split
    · next hw =>
      obtain ⟨hfound, name, hi⟩ := h.callers caller (by rw [hc]; exact List.mem_cons_self)
      have hlt : caller.frame.position < caller.frame.routine.code.size :=
        (Array.getElem?_eq_some_iff.1 hi).1
      have hsize := himage.size hfound
      rw [leave_call hc hw h.height (by omega)]
      refine @next c (c.resume caller rest) (.left (c.resume caller rest).state) rfl ?_
      rw [State.trace, origins, hw, hc]
      rfl
    · exact .mixed

end Mirrors

/-- Where no value is taken for an address and no address for a value, the calls tell what the
machine does. -/
theorem mirrors_next (himage : image.Plain) (h : c.Orderly image) :
    Mirrors c (c.next settings image) (c.state.step settings image) := by
  unfold next
  cases hi : c.instruction? with
  | none =>
    have hs : c.state.instruction? = none := hi
    rw [State.step, hs]
    exact .leave h himage
  | some i =>
    have hp := himage.plain h.found i (Array.mem_of_getElem? hi)
    rw [step_eq_execute hi]
    change Mirrors c (c.follow settings image i) _
    cases hop : i.op with
    | mov =>
      rw [follow, State.execute, hop]
      exact .bind _ fun v => .put hi hp (by simp [hop]) v
    | push =>
      rw [follow, State.execute, hop]
      exact .bind _ fun v => .push h.height hi hop v
    | pop =>
      rw [follow, hop]
      exact .pop h.height hi hp hop
    | arith op =>
      rw [follow, State.execute, hop]
      exact .bind _ fun left => .bind _ fun right => .bind _ fun v => .put hi hp (by simp [hop]) v
    | compare op =>
      rw [follow, State.execute, hop]
      exact .bind _ fun left => .bind _ fun right => .bind _ fun holds =>
        .stayed hi (by simp [hop]) rfl rfl rfl
    | jump =>
      rw [follow, State.execute, hop]
      exact .jump hi (by simp [hop]) _
    | jumpIfNot =>
      rw [follow, State.execute, hop]
      apply Mirrors.bind
      intro v
      apply Mirrors.bind
      intro n
      split
      · exact .jump hi (by simp [hop]) _
      · exact .stayed hi (by simp [hop]) rfl rfl rfl
    | call =>
      obtain ⟨name, rfl⟩ := hp.formed.call_eq hop
      rw [← step_eq_execute hi]
      exact .call h.height hi
    | ret =>
      rw [follow, State.execute, hop]
      exact .leave h himage
    | define =>
      rw [follow, State.execute, hop]
      exact .stayed hi (by simp [hop]) rfl rfl rfl
    | label =>
      rw [follow, State.execute, hop]
      exact .stayed hi (by simp [hop]) rfl rfl rfl

inductive Turns (settings : Settings) (image : Image) (c : Calls) : Move → Prop where
  | goes {text : String} {c' : Calls} : c'.frame.routine = c.frame.routine →
      c'.waiting = c.waiting → c'.callers = c.callers → Turns settings image c (.next text c')
  | saves {c' : Calls} {v : Value} : c.height + 1 < 2 ^ 63 → c'.frame.routine = c.frame.routine →
      c'.waiting = v :: c.waiting → c'.callers = c.callers → Turns settings image c (.next "" c')
  | restores {c' : Calls} {v : Value} : c'.frame.routine = c.frame.routine →
      c.waiting = v :: c'.waiting → c'.callers = c.callers → Turns settings image c (.next "" c')
  | enters {name : String} {callee : Routine} : c.height + 1 < 2 ^ 63 →
      c.instruction? = some (.call name) → image.find? name = some callee →
      Turns settings image c (.next "" (c.enter callee))
  | returns {caller : Activation} {rest : List Activation} : c.callers = caller :: rest →
      c.waiting = [] → Turns settings image c (.next "" (c.resume caller rest))
  | halts {halt : Halt} : Turns settings image c (.halted halt)
  | takesAddress {i : Instruction} {caller : Activation} {rest : List Activation} :
      c.instruction? = some i → i.op = .pop → c.waiting = [] → c.callers = caller :: rest →
      Turns settings image c .mixed
  | takesValue : (∀ i, c.instruction? = some i → i.op = .ret) → c.callers ≠ [] → c.waiting ≠ [] →
      Turns settings image c .mixed

namespace Turns

variable {m : Move}

theorem advance_of_put {o : Option Operand} {v : Value}
    (h : (c.put o v >>= fun c' => .ok (.next "" c'.advance)) = Except.ok m) :
    Turns settings image c m := by
  obtain ⟨c', hp, h⟩ := bind_eq_ok.1 h
  cases h
  obtain ⟨hf, hw, hc⟩ := put_eq_ok hp
  exact .goes (show c'.frame.routine = _ by rw [hf]) hw hc

theorem of_jump {label : String}
    (h : (c.jump label >>= fun c' => .ok (.next "" c')) = Except.ok m) :
    Turns settings image c m := by
  obtain ⟨c', hj, h⟩ := bind_eq_ok.1 h
  cases h
  unfold Calls.jump at hj
  split at hj
  · cases hj
    exact .goes rfl rfl rfl
  · cases hj

theorem of_restore {i : Instruction} (hi : c.instruction? = some i) (hop : i.op = .pop)
    (h : c.restore i.dst = .ok m) : Turns settings image c m := by
  unfold restore at h
  split at h
  · next v rest hw =>
    obtain ⟨c', hp, h⟩ := bind_eq_ok.1 h
    cases h
    obtain ⟨hf, hw', hc⟩ := put_eq_ok hp
    refine @restores _ _ _ c'.advance v (show c'.frame.routine = _ by rw [hf]) ?_ hc
    rw [hw]
    exact congrArg (v :: ·) hw'.symm
  · cases h
  · next hw hc =>
    cases h
    exact .takesAddress hi hop hw hc

theorem of_quit (hi : ∀ i, c.instruction? = some i → i.op = .ret) :
    Turns settings image c c.quit := by
  unfold quit
  split
  · exact .halts
  · next hc =>
    split
    · next hw => exact .returns hc hw
    · next hw => exact .takesValue hi (by rw [hc]; exact List.cons_ne_nil _ _) hw

theorem of_invoke {name : String} (hi : c.instruction? = some (.call name))
    (h : c.invoke settings image name = .ok m) : Turns settings image c m := by
  obtain ⟨_, hs, h⟩ := bind_eq_ok.1 h
  obtain ⟨hroom, -⟩ := save_eq_ok hs
  split at h
  · obtain ⟨effect, -, h⟩ := bind_eq_ok.1 h
    cases h
    cases effect with
    | nothing => exact .goes rfl rfl rfl
    | print text => exact .goes rfl rfl rfl
    | halt halt => exact .halts
  · split at h
    · next hf =>
      obtain ⟨c', hs, h⟩ := bind_eq_ok.1 h
      cases h
      obtain ⟨-, rfl⟩ := enter_of_start hs
      exact .enters hroom hi hf
    · cases h

end Turns

theorem turns_next (himage : image.Plain) (h : c.Orderly image) {m : Move}
    (hn : c.next settings image = .ok m) : Turns settings image c m := by
  unfold next at hn
  cases hi : c.instruction? with
  | none =>
    rw [hi] at hn
    cases hn
    apply Turns.of_quit
    intro i h
    cases hi.symm.trans h
  | some i =>
    have hp := himage.plain h.found i (Array.mem_of_getElem? hi)
    rw [hi] at hn
    change c.follow settings image i = .ok m at hn
    cases hop : i.op with
    | mov =>
      rw [follow, hop] at hn
      obtain ⟨v, -, hn⟩ := bind_eq_ok.1 hn
      exact .advance_of_put hn
    | push =>
      rw [follow, hop] at hn
      obtain ⟨v, -, hn⟩ := bind_eq_ok.1 hn
      obtain ⟨c', hs, hn⟩ := bind_eq_ok.1 hn
      cases hn
      obtain ⟨hroom, rfl⟩ := save_eq_ok hs
      exact .saves hroom rfl rfl rfl
    | pop =>
      rw [follow, hop] at hn
      exact .of_restore hi hop hn
    | arith op =>
      rw [follow, hop] at hn
      obtain ⟨left, -, hn⟩ := bind_eq_ok.1 hn
      obtain ⟨right, -, hn⟩ := bind_eq_ok.1 hn
      obtain ⟨v, -, hn⟩ := bind_eq_ok.1 hn
      exact .advance_of_put hn
    | compare op =>
      rw [follow, hop] at hn
      obtain ⟨left, -, hn⟩ := bind_eq_ok.1 hn
      obtain ⟨right, -, hn⟩ := bind_eq_ok.1 hn
      obtain ⟨holds, -, hn⟩ := bind_eq_ok.1 hn
      cases hn
      exact .goes rfl rfl rfl
    | jump =>
      rw [follow, hop] at hn
      exact .of_jump hn
    | jumpIfNot =>
      rw [follow, hop] at hn
      obtain ⟨v, -, hn⟩ := bind_eq_ok.1 hn
      obtain ⟨n, -, hn⟩ := bind_eq_ok.1 hn
      split at hn
      · exact .of_jump hn
      · cases hn
        exact .goes rfl rfl rfl
    | call =>
      obtain ⟨name, rfl⟩ := hp.formed.call_eq hop
      exact .of_invoke hi hn
    | ret =>
      rw [follow, hop] at hn
      cases hn
      refine .of_quit fun j hj => ?_
      cases hi.symm.trans hj
      exact hop
    | define =>
      rw [follow, hop] at hn
      cases hn
      exact .goes rfl rfl rfl
    | label =>
      rw [follow, hop] at hn
      cases hn
      exact .goes rfl rfl rfl

theorem Turns.height {text : String} (h : Turns settings image c (.next text c')) :
    c'.height = c.height ∨ c.height + 1 < 2 ^ 63 ∧ c'.height = c.height + 1 ∨
      c.height = c'.height + 1 := by
  cases h with
  | goes _ hw hc =>
    left
    rw [Calls.height, cells, hw, hc]
    rfl
  | saves hroom _ hw hc =>
    right
    left
    refine ⟨hroom, ?_⟩
    rw [Calls.height, cells, hw, hc]
    rfl
  | restores _ hw hc =>
    right
    right
    rw [Calls.height, cells, hw, ← hc]
    rfl
  | enters hroom => exact .inr (.inl ⟨hroom, rfl⟩)
  | returns hc hw =>
    right
    right
    rw [Calls.height, cells, hw, hc]
    rfl

namespace Orderly

theorem initial {main : Routine} (himage : image.Plain) (hf : image.find? "main" = some main) :
    (Calls.initial main).Orderly image where
  height := Nat.two_pow_pos 63
  found := by
    change image.find? main.name = some main
    rw [himage.name hf, hf]
  callers := nofun

theorem of_turns {text : String} (himage : image.Plain) (h : c.Orderly image)
    (ht : Turns settings image c (.next text c')) : c'.Orderly image where
  height := by
    have hbound := h.height
    have hheight := ht.height
    omega
  found := by
    cases ht with
    | goes hr => exact hr ▸ h.found
    | saves _ hr => exact hr ▸ h.found
    | restores hr => exact hr ▸ h.found
    | @enters name callee _ _ hf =>
      change image.find? callee.name = some callee
      rw [himage.name hf, hf]
    | @returns caller rest hc _ => exact (h.callers caller (by rw [hc]; exact List.mem_cons_self)).1
  callers := by
    cases ht with
    | goes _ _ hc => exact hc ▸ h.callers
    | saves _ _ _ hc => exact hc ▸ h.callers
    | restores _ _ hc => exact hc ▸ h.callers
    | @enters name callee _ hi _ =>
      intro a ha
      rcases List.mem_cons.1 ha with rfl | ha
      · exact ⟨h.found, name, hi⟩
      · exact h.callers a ha
    | returns hc =>
      intro a ha
      apply h.callers
      rw [hc]
      exact List.mem_cons_of_mem _ ha

theorem next {text : String} (himage : image.Plain) (h : c.Orderly image)
    (hn : c.next settings image = .ok (.next text c')) : c'.Orderly image :=
  h.of_turns himage (turns_next himage h hn)

end Orderly

/-- The run of the machine is that of the calls, unless this stops because values and addresses are
mixed. -/
theorem run_eq (himage : image.Plain) (h : c.Orderly image) (fuel : Nat) (out : String) :
    c.run settings image fuel out = some none ∨
      c.run settings image fuel out = (c.state.run settings image fuel out).map some := by
  -- The run on calls goes on as long as the kinds of what lies on the stack are kept apart.
  induction fuel generalizing c out with
  | zero => exact .inr rfl
  | succ fuel ih =>
    have hm : Mirrors c (c.next settings image) (c.state.step settings image) :=
      mirrors_next himage h
    rw [run]
    generalize hn : c.next settings image = r at hm
    generalize hs : c.state.step settings image = r' at hm
    cases hm with
    | next hnext =>
      rw [State.run_next hs hnext]
      exact ih (h.next himage hn) _
    | halted => exact .inr (by rw [State.run_halted hs]; rfl)
    | error => exact .inr (by rw [State.run_error hs]; rfl)
    | mixed => exact .inl rfl

theorem run_ne_mixed (himage : image.Plain) (hd : image.Disciplined settings) (h : c.Orderly image)
    (ht : c.state.Traced settings image c.origins) (fuel : Nat) (out : String) :
    c.run settings image fuel out ≠ some none := by
  induction fuel generalizing c out with
  | zero => exact nofun
  | succ fuel ih =>
    have hm : Mirrors c (c.next settings image) (c.state.step settings image) :=
      mirrors_next himage h
    rw [run]
    generalize hn : c.next settings image = r at hm
    generalize hs : c.state.step settings image = r' at hm
    cases hm with
    | next hnext htrace => exact ih (h.next himage hn) (htrace ▸ .step ht hs hnext) _
    | halted => exact nofun
    | error => exact nofun
    | mixed =>
      cases turns_next himage h hn with
      | takesAddress hi hop hw hc =>
        refine absurd ?_ (hd.pops ht hi hop)
        rw [origins, hw, hc]
        rfl
      | takesValue hi hc hw =>
        obtain ⟨v, rest, hw⟩ := List.exists_cons_of_ne_nil hw
        refine absurd ?_ (hd.returns ht hi ?_)
        · rw [origins, hw]
          rfl
        · simpa [state] using hc

end Calls

end BlueCode
