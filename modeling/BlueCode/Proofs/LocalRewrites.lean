import BlueCode.Proofs.InstructionForm
import BlueCode.Proofs.StepEffects
import BlueCode.Proofs.Thinning

namespace BlueCode

namespace Operand

variable {a b : Operand}

/-- Only numbers can be the same without being equal, and these are no destinations. -/
theorem eq_of_same_left (h : a.same b = true) (ha : a.isWritable = true) : a = b := by
  cases a with
  | float x => cases ha
  | _ => exact of_decide_eq_true h

theorem eq_of_same_right (h : a.same b = true) (hb : b.isWritable = true) : a = b := by
  cases b with
  | float x => cases hb
  | _ => cases a <;> exact of_decide_eq_true h

end Operand

open Peephole

namespace Peephole

theorem isReversedMove_eq {first second : Instruction} (hf : first.Formed) (hs : second.Formed)
    (h : isReversedMove first second = true) :
    ∃ a b, a.isWritable = true ∧ b.isWritable = true ∧ first = .mov a b ∧ second = .mov b a := by
  obtain ⟨hopf, hops⟩ := isReversedMove_op h
  obtain ⟨a, b, hb, rfl⟩ := hf.mov_eq hopf
  obtain ⟨b', a', ha', rfl⟩ := hs.mov_eq hops
  have hsame : a.same a' = true ∧ b.same b' = true := by
    simpa [isReversedMove, Instruction.mov, same] using h
  cases Operand.eq_of_same_right hsame.1 ha'
  cases Operand.eq_of_same_left hsame.2 hb
  exact ⟨a, b, ha', hb, rfl, rfl⟩

theorem fuse?_eq {push pop add fused : Instruction} {rest : List Instruction} (hpush : push.Formed)
    (hpop : pop.Formed) (hadd : add.Formed) (h : fuse? (push :: pop :: add :: rest) = some fused) :
    ∃ x r d, push = .push x ∧ pop = .pop (.reg r) ∧
      add = ⟨.arith .add, some (.reg r), some d⟩ ∧ fused = ⟨.arith .add, some x, some d⟩ ∧
      x ≠ .stackTop ∧ d ≠ .reg r ∧ d.isWritable = true ∧ isDead r rest = true := by
  simp only [fuse?] at h
  split at h
  · next source r hsource hdst =>
    split at h
    · next hc =>
      obtain ⟨hpushop, hpopop, haddop, haddsrc, hadddst, hx, hdead⟩ := hc
      obtain ⟨x, rfl⟩ := hpush.push_eq hpushop
      obtain ⟨b, -, rfl⟩ := hpop.pop_eq hpopop
      obtain ⟨a, d, hd, rfl⟩ := hadd.arith_eq haddop
      cases hsource
      cases hdst
      cases haddsrc
      cases h
      exact ⟨_, r, d, rfl, rfl, rfl, rfl, hx, fun he => hadddst (congrArg some he), hd, hdead⟩
    · cases h
  · cases h

end Peephole

namespace State

variable {settings : Settings} {image : Image} {s t : State} {a b x d : Operand} {v w : Value}
  {r : Register}

theorem advance_inj : s.advance = t.advance ↔ s = t := by
  obtain ⟨registers, heap, stack, ⟨routine, position, base⟩, callers⟩ := s
  obtain ⟨registers', heap', stack', ⟨routine', position', base'⟩, callers'⟩ := t
  simp [advance, goto]

theorem read_of_write (h : s.write (some b) v = .ok t) (hb : b ≠ .stackPointer) :
    t.read (some b) = .ok v := by
  cases b with
  | reg r =>
    cases h
    exact congrArg Except.ok (Registers.get_set_same ..)
  | stackPointer => exact absurd rfl hb
  | stackTop =>
    cases h
    simp [read, stackPointer, Memory.get?_set]
  | heap address =>
    obtain ⟨cell, hcell, h⟩ := Compile.bind_eq_ok.1 h
    cases h
    simp [read, hcell, bind, Except.bind, Memory.get?_set]
    rfl
  | _ => cases h

theorem write_of_read (h : s.read (some a) = .ok v) (ha : a.isWritable = true) :
    s.write (some a) v = .ok s := by
  cases a with
  | reg r =>
    cases h
    exact congrArg (fun registers => Except.ok { s with registers := registers })
      (Registers.set_get s.registers r)
  | stackPointer =>
    cases h
    rfl
  | stackTop =>
    unfold read at h
    simp only at h
    split at h
    · next hget =>
      cases h
      exact congrArg (fun stack => Except.ok { s with stack := stack }) (Memory.set_of_get? hget)
    · cases h
  | heap address =>
    obtain ⟨cell, hcell, h⟩ := Compile.bind_eq_ok.1 h
    split at h
    · next hget =>
      cases h
      simp only [write, hcell]
      exact congrArg (fun heap => Except.ok { s with heap := heap }) (Memory.set_of_get? hget)
    · cases h
  | _ => cases ha

theorem read_after_write (hr : s.read (some a) = .ok v) (hw : s.write (some b) v = .ok t)
    (ha : a.isWritable = true) (hb : b ≠ .stackPointer) : t.read (some a) = .ok v := by
  by_cases hab : a = b
  · rw [hab]
    exact read_of_write hw hb
  · rw [← hr]
    cases b with
    | reg r =>
      cases hw
      cases a with
      | reg q =>
        have hne : r ≠ q := fun he => hab (by rw [he])
        exact congrArg Except.ok (Registers.get_set_other _ v hne)
      | _ => rfl
    | stackPointer => exact absurd rfl hb
    | stackTop =>
      cases hw
      cases a with
      | stackTop => exact absurd rfl hab
      | _ => rfl
    | heap address =>
      obtain ⟨cell, hcell, hw⟩ := Compile.bind_eq_ok.1 hw
      cases hw
      cases a with
      | heap other =>
        obtain ⟨rfl, -⟩ := cell_eq_ok hcell
        obtain ⟨cell', hcell', hr⟩ := Compile.bind_eq_ok.1 hr
        obtain ⟨rfl, -⟩ := cell_eq_ok hcell'
        have hne : address.toInt ≠ other.toInt := fun he => hab (by rw [Int64.toInt_inj.1 he])
        have hcells : (s.frame.base : Int) + address.toInt ≠ s.frame.base + other.toInt := by omega
        simp only [read, hcell', bind, Except.bind, Memory.get?_set, if_neg hcells]
      | _ => rfl
    | _ => cases hw

theorem execute_mov_eq_ok_iff : s.execute settings image (.mov a b) = .ok (.moved t.advance) ↔
    ∃ v, s.read (some a) = .ok v ∧ s.write (some b) v = .ok t := by
  have hexecute : s.execute settings image (.mov a b) = s.read (some a) >>= fun v =>
      s.write (some b) v >>= fun t => .ok (.moved t.advance) := rfl
  rw [hexecute, Compile.bind_eq_ok]
  refine exists_congr fun v => and_congr_right fun _ => ?_
  rw [Compile.bind_eq_ok]
  constructor
  · rintro ⟨u, hu, he⟩
    rw [hu, advance_inj.1 (Transition.moved.inj (Except.ok.inj he))]
  · exact fun h => ⟨t, h, rfl⟩

@[simp] theorem read_advance (s : State) (o : Option Operand) : s.advance.read o = s.read o := rfl

@[simp] theorem write_advance (s : State) (o : Option Operand) (v : Value) :
    s.advance.write o v = (s.write o v).map advance := by
  unfold write
  split
  · rfl
  · cases v.asInt <;> rfl
  · rfl
  · next address =>
    change State.cell s.frame.base address.toInt >>= _ = _
    cases State.cell s.frame.base address.toInt <;> rfl
  · rfl

/-- A move back is idle unless the first move has gone to the stack pointer, which then has to have
what the source holds. -/
theorem execute_mov_back (ha : a.isWritable = true) (hb : b.isWritable = true)
    (h : s.execute settings image (.mov a b) = .ok (.moved t.advance)) :
    t.advance.execute settings image (.mov b a) = .ok (.moved t.advance.advance) ↔
      (b = .stackPointer → t.read (some a) = .ok (.int t.stackPointer)) := by
  obtain ⟨v, hr, hw⟩ := execute_mov_eq_ok_iff.1 h
  have hidle : t.advance.execute settings image (.mov b a) = .ok (.moved t.advance.advance) ↔
      ∃ w, t.read (some b) = .ok w ∧ t.write (some a) w = .ok t := by
    rw [execute_mov_eq_ok_iff]
    refine exists_congr fun w => and_congr_right fun _ => ?_
    rw [write_advance]
    constructor
    · intro h
      cases hwrite : t.write (some a) w with
      | error e =>
        rw [hwrite] at h
        cases h
      | ok u =>
        rw [hwrite] at h
        rw [advance_inj.1 (Except.ok.inj h)]
    · intro h
      rw [h]
      rfl
  rw [hidle]
  by_cases hsp : b = .stackPointer
  · subst hsp
    have hread : t.read (some .stackPointer) = .ok (.int t.stackPointer) := rfl
    simp only [hread, Except.ok.injEq, exists_eq_left', forall_const]
    refine ⟨fun hback => ?_, fun hread' => write_of_read hread' ha⟩
    by_cases hasp : a = .stackPointer
    · rw [hasp, hread]
    · exact read_of_write hback hasp
  · simp only [hsp, false_implies, iff_true]
    exact ⟨v, read_of_write hw hsp, write_of_read (read_after_write hr hw ha hsp) ha⟩

def executeAll (settings : Settings) (image : Image) (s : State) :
    List Instruction → Except RunError Transition
  | [] => .ok (.moved s)
  | i :: rest => do
    match ← s.execute settings image i with
    | .moved next => next.executeAll settings image rest
    | other => return other

/-- The second state is the first one but for what a register holds, and for the place in the
code. -/
def Alike (r : Register) (s t : State) : Prop :=
  ∃ v position, t = (s.setRegister r v).goto position

def addTo (s : State) (v : Value) (d : Operand) : Except RunError State := do
  let w ← s.read (some d)
  s.write (some d) (v.add w)

theorem execute_add (s : State) (x d : Operand) :
    s.execute settings image ⟨.arith .add, some x, some d⟩ =
      s.read (some x) >>= fun v => (s.addTo v d).map fun t => .moved t.advance := by
  change (s.read (some x) >>= fun v => s.read (some d) >>= fun w => _) = _
  cases s.read (some x) with
  | error e => rfl
  | ok v =>
    change s.read (some d) >>= _ = (s.read (some d) >>= _).map _
    cases s.read (some d) with
    | error e => rfl
    | ok w =>
      change s.write (some d) (v.add w) >>= _ = (s.write (some d) (v.add w)).map _
      cases s.write (some d) (v.add w) <;> rfl

theorem addTo_frame (hd : d ≠ .reg r) (hs : d ≠ .stackTop) (u v : Value) (stack : Memory)
    (position : Nat) :
    (({ s with stack := stack }.setRegister r u).goto position).addTo v d =
      (s.addTo v d).map fun t => ({ t with stack := stack }.setRegister r u).goto position := by
  unfold addTo
  cases d with
  | reg q =>
    have hne : r ≠ q := fun he => hd (by rw [he])
    simp only [read, write, setRegister, goto, bind, Except.bind, Except.map,
      Registers.get_set_other _ u hne, Registers.set_comm _ _ _ hne]
  | stackPointer =>
    simp only [read, write, bind, Except.bind]
    change ((v.add (.int s.stackPointer)).asInt.mapError RunError.value).map _ = _
    cases (v.add (.int s.stackPointer)).asInt <;> rfl
  | stackTop => exact absurd rfl hs
  | heap address =>
    simp only [read, write, setRegister, goto]
    cases State.cell s.frame.base address.toInt with
    | error e => rfl
    | ok cell =>
      simp only [bind, Except.bind]
      cases s.heap.get? cell <;> rfl
  | _ => rfl

theorem stack_of_addTo (hs : d ≠ .stackTop) (h : s.addTo v d = .ok t) : t.stack = s.stack := by
  obtain ⟨w, -, h⟩ := Compile.bind_eq_ok.1 h
  cases d with
  | reg r => cases h; rfl
  | stackPointer =>
    change ((v.add w).asInt.mapError RunError.value).map _ = _ at h
    cases hv : (v.add w).asInt with
    | error e => rw [hv] at h; cases h
    | ok n => rw [hv] at h; cases h; rfl
  | stackTop => exact absurd rfl hs
  | heap address =>
    obtain ⟨cell, -, h⟩ := Compile.bind_eq_ok.1 h
    cases h
    rfl
  | _ => cases h

theorem pop_push (h : s.stackPointer ≠ Int64.maxValue) (v : Value) : ∃ t, s.push v = .ok t ∧
    t.advance.pop = .ok (v, { s with stack := s.stack.erase s.stackPointer.toInt }.advance) := by
  have hpush : s.push v = .ok (setStackPointer
      { s with stack := s.stack.set s.stackPointer.toInt v } (s.stackPointer + 1)) := by
    rw [push, if_neg h]
  have hne : s.stackPointer + 1 ≠ Int64.minValue := fun he => h (by
    rw [← Int64.add_sub_cancel s.stackPointer 1, he]
    rfl)
  have htop : s.stackPointer + 1 - 1 = s.stackPointer := Int64.add_sub_cancel ..
  have hget : (s.stack.set s.stackPointer.toInt v).get? (s.stackPointer + 1 - 1).toInt = some v := by
    rw [htop, Memory.get?_set, if_pos rfl]
  refine ⟨_, hpush, ?_⟩
  rw [@pop_of_get? (setStackPointer { s with stack := s.stack.set s.stackPointer.toInt v }
    (s.stackPointer + 1)).advance v hne hget]
  change Except.ok (v, (State.mk ⟨s.registers.general, s.stackPointer + 1 - 1⟩ s.heap
    ((s.stack.set s.stackPointer.toInt v).erase (s.stackPointer + 1 - 1).toInt) s.frame
    s.callers).advance) = _
  rw [htop, Memory.erase_set]
  rfl

/-- The state after a value has been pushed and then taken back into a register. -/
def passed (s : State) (r : Register) (v : Value) : State :=
  ({ s with stack := s.stack.erase s.stackPointer.toInt }.setRegister r v).goto
    (s.frame.position + 2)

theorem addTo_passed (s : State) (r : Register) (v w : Value) :
    (s.passed r v).addTo w .stackTop = .error .stackUnderflow := by
  have hgone : (s.stack.erase s.stackPointer.toInt).get? s.stackPointer.toInt = none := by
    rw [Memory.get?_erase, if_pos rfl]
  have hread : (s.passed r v).read (some .stackTop) = .error .stackUnderflow := by
    rw [read_stackTop]
    change ((s.stack.erase s.stackPointer.toInt).get? s.stackPointer.toInt).elim _ _ = _
    rw [hgone]
    rfl
  rw [addTo, hread]
  rfl

theorem addTo_stackTop (h : s.stack.get? s.stackPointer.toInt = some w) (v : Value) :
    s.addTo v .stackTop =
      .ok { s with stack := s.stack.set s.stackPointer.toInt (v.add w) } := by
  simp [addTo, read, write, h, bind, Except.bind]

theorem executeAll_of_full (hr : s.read (some x) = .ok v) (h : s.stackPointer = Int64.maxValue)
    (rest : List Instruction) :
    s.executeAll settings image (.push x :: rest) = .error .stackPointerOverflow := by
  have first : s.execute settings image (.push x) = .error .stackPointerOverflow := by
    change s.read (some x) >>= _ = _
    rw [hr]
    change s.push v >>= _ = _
    rw [push, if_pos h]
    rfl
  rw [executeAll, first]
  rfl

theorem executeAll_push_pop (hr : s.read (some x) = .ok v) (h : s.stackPointer ≠ Int64.maxValue)
    (rest : List Instruction) :
    s.executeAll settings image (.push x :: .pop (.reg r) :: rest) =
      (s.passed r v).executeAll settings image rest := by
  obtain ⟨pushed, hpush, hpop⟩ := pop_push h v
  have first : s.execute settings image (.push x) = .ok (.moved pushed.advance) := by
    change s.read (some x) >>= _ = _
    rw [hr]
    change s.push v >>= _ = _
    rw [hpush]
    rfl
  have second : pushed.advance.execute settings image (.pop (.reg r)) =
      .ok (.moved (s.passed r v)) := by
    change pushed.advance.pop >>= _ = _
    rw [hpop]
    rfl
  rw [executeAll, first]
  change pushed.advance.executeAll settings image _ = _
  rw [executeAll, second]
  rfl

theorem executeAll_add (s : State) (r : Register) (d : Operand) :
    s.executeAll settings image [⟨.arith .add, some (.reg r), some d⟩] =
      (s.addTo (s.registers.get r) d).map fun t => .moved t.advance := by
  rw [executeAll, execute_add]
  change (s.addTo _ d).map _ >>= _ = _
  cases s.addTo (s.registers.get r) d <;> rfl

theorem alike_iff {stack : Memory} {position : Nat} :
    Alike r s (({ s with stack := stack }.setRegister r v).goto position) ↔ stack = s.stack := by
  constructor
  · rintro ⟨w, p, he⟩
    exact congrArg State.stack he
  · rintro rfl
    exact ⟨v, position, rfl⟩

theorem cell_ne_overflow {base : Nat} {offset : Int} :
    cell base offset ≠ .error .stackPointerOverflow := by
  unfold cell
  split <;> simp

theorem read_ne_overflow {o : Option Operand} : s.read o ≠ .error .stackPointerOverflow := by
  intro h
  unfold read at h
  cases o with
  | none => cases h
  | some o =>
    cases o with
    | stackTop =>
      dsimp only at h
      split at h <;> cases h
    | heap address =>
      rcases bind_eq_error.1 h with h | ⟨cell, -, h⟩
      · exact cell_ne_overflow h
      · split at h <;> cases h
    | _ => cases h

theorem write_ne_overflow {o : Option Operand} : s.write o v ≠ .error .stackPointerOverflow := by
  intro h
  unfold write at h
  cases o with
  | none => cases h
  | some o =>
    cases o with
    | stackPointer =>
      dsimp only at h
      cases hv : v.asInt <;> rw [hv] at h <;> cases h
    | heap address =>
      rcases bind_eq_error.1 h with h | ⟨cell, -, h⟩
      · exact cell_ne_overflow h
      · cases h
    | _ => cases h

theorem addTo_ne_overflow : s.addTo v d ≠ .error .stackPointerOverflow := by
  intro h
  rcases bind_eq_error.1 h with h | ⟨w, -, h⟩
  · exact read_ne_overflow h
  · exact write_ne_overflow h

/-- The sum in place of three instructions has the same effect except where the stack is full, and
where the cell that is freed was in use: there it matters unless the sum fails without it. -/
theorem fuse_exact_iff (hd : d ≠ .reg r) :
    Concur (Transition.Both (Alike r)) (s.execute settings image ⟨.arith .add, some x, some d⟩)
        (s.executeAll settings image
          [.push x, .pop (.reg r), ⟨.arith .add, some (.reg r), some d⟩]) ↔
      (∃ e, s.read (some x) = .error e) ∨ s.stackPointer ≠ Int64.maxValue ∧
        (s.stack.get? s.stackPointer.toInt = none ∨ d ≠ .stackTop ∧
          ∃ e, s.execute settings image ⟨.arith .add, some x, some d⟩ = .error e) := by
  rw [execute_add]
  cases hr : s.read (some x) with
  | error e =>
    have first : s.executeAll settings image
        [.push x, .pop (.reg r), ⟨.arith .add, some (.reg r), some d⟩] = .error e := by
      have hpush : s.execute settings image (.push x) = .error e := by
        change s.read (some x) >>= _ = _
        rw [hr]
        rfl
      rw [executeAll, hpush]
      rfl
    rw [first]
    simp [bind, Except.bind]
  | ok v =>
    simp only [bind, Except.bind, reduceCtorEq, exists_false, false_or]
    by_cases hfull : s.stackPointer = Int64.maxValue
    · rw [executeAll_of_full hr hfull]
      simp only [hfull, ne_eq, not_true, false_and, iff_false]
      cases hadd : s.addTo v d with
      | error e =>
        have hne : e ≠ .stackPointerOverflow := fun he => addTo_ne_overflow (he ▸ hadd)
        simpa [Except.map] using hne
      | ok t => simp [Except.map]
    · have hget : (s.passed r v).registers.get r = v := Registers.get_set_same ..
      rw [executeAll_push_pop hr hfull, executeAll_add, hget]
      simp only [hfull, ne_eq, not_false_eq_true, true_and]
      -- Of all destinations only `[rsp]` is the cell that the pop has freed.
      by_cases htop : d = .stackTop
      · subst htop
        rw [addTo_passed]
        cases hcell : s.stack.get? s.stackPointer.toInt with
        | none => simp [addTo, read, hcell, bind, Except.bind, Except.map]
        | some w => simp [addTo_stackTop hcell, Except.map]
      · rw [passed, addTo_frame hd htop]
        cases hadd : s.addTo v d with
        | error e => simp [Except.map, htop]
        | ok t =>
          simp only [Except.map, Concur.ok_iff, Transition.both_moved, reduceCtorEq, exists_false,
            and_false, or_false]
          rw [← Memory.erase_eq_iff, ← stack_of_addTo htop hadd]
          exact @alike_iff t.advance v r _ (s.frame.position + 3)

end State

namespace Peephole

variable {settings : Settings} {image : Image} {s t : State} {first second : Instruction}

theorem execute_second_iff (hf : first.Shaped) (hs : second.Shaped)
    (hr : isReversedMove first second = true)
    (h : s.execute settings image first = .ok (.moved t)) :
    t.execute settings image second = .ok (.moved t.advance) ↔
      (first.dst = some .stackPointer → t.read first.src = .ok (.int t.stackPointer)) := by
  obtain ⟨a, b, ha, hb, rfl, rfl⟩ := isReversedMove_eq hf.formed hs.formed hr
  obtain ⟨v, -, h'⟩ := Compile.bind_eq_ok.1 h
  obtain ⟨u, -, h'⟩ := Compile.bind_eq_ok.1 h'
  cases h'
  have hdst : (Instruction.mov a b).dst = some .stackPointer ↔ b = .stackPointer :=
    Option.some_inj
  rw [State.execute_mov_back ha hb h, hdst]
  rfl

theorem execute_fused_iff {push pop add fused : Instruction} {rest : List Instruction}
    (hpush : push.Shaped) (hpop : pop.Shaped) (hadd : add.Shaped)
    (hf : fuse? (push :: pop :: add :: rest) = some fused) : ∃ r, pop.dst = some (.reg r) ∧
      (Concur (Transition.Both (State.Alike r)) (s.execute settings image fused)
          (s.executeAll settings image [push, pop, add]) ↔
        (∃ e, s.read push.src = .error e) ∨ s.stackPointer ≠ Int64.maxValue ∧
          (s.stack.get? s.stackPointer.toInt = none ∨ add.dst ≠ some .stackTop ∧
            ∃ e, s.execute settings image fused = .error e)) := by
  obtain ⟨x, r, d, rfl, rfl, rfl, rfl, -, hd, -, -⟩ :=
    fuse?_eq hpush.formed hpop.formed hadd.formed hf
  have htop : (⟨.arith .add, some (.reg r), some d⟩ : Instruction).dst ≠ some .stackTop ↔
      d ≠ .stackTop := not_congr Option.some_inj
  refine ⟨r, rfl, ?_⟩
  rw [State.fuse_exact_iff hd, htop]
  rfl

/-- When a rewrite has the effect of what it replaces: which values a move back does not change, and
what a fused sum finds on the stack. -/
theorem rewrites_exact_iff (settings : Settings) (image : Image) (s : State) :
    (∀ {first second : Instruction} {t : State}, first.Shaped → second.Shaped →
      isReversedMove first second = true → s.execute settings image first = .ok (.moved t) →
      (t.execute settings image second = .ok (.moved t.advance) ↔
        (first.dst = some .stackPointer → t.read first.src = .ok (.int t.stackPointer)))) ∧
    (∀ {push pop add fused : Instruction} {rest : List Instruction}, push.Shaped → pop.Shaped →
      add.Shaped → fuse? (push :: pop :: add :: rest) = some fused →
      ∃ r, pop.dst = some (.reg r) ∧
        (Concur (Transition.Both (State.Alike r)) (s.execute settings image fused)
            (s.executeAll settings image [push, pop, add]) ↔
          (∃ e, s.read push.src = .error e) ∨ s.stackPointer ≠ Int64.maxValue ∧
            (s.stack.get? s.stackPointer.toInt = none ∨ add.dst ≠ some .stackTop ∧
              ∃ e, s.execute settings image fused = .error e))) :=
  ⟨execute_second_iff, execute_fused_iff⟩

def copies : List Instruction :=
  [.mov (.reg .ra) (.reg .rb), .mov (.reg .rb) (.reg .ra), .push (.reg .ra), .pop (.reg .rb),
    ⟨.arith .add, some (.reg .rb), some (.reg .rc)⟩, .mov (.int 0) (.reg .rb)]

theorem rewrites_exact_iff_copies :
    (∃ t, (State.start (.empty "main")).execute {} ⟨∅⟩ copies[0] = .ok (.moved t) ∧
      t.execute {} ⟨∅⟩ copies[1] = .ok (.moved t.advance)) ∧
    ∃ fused, fuse? (copies.drop 2) = some fused ∧ ∃ r, copies[3].dst = some (.reg r) ∧
      Concur (Transition.Both (State.Alike r))
        ((State.start (.empty "main")).execute {} ⟨∅⟩ fused)
        ((State.start (.empty "main")).executeAll {} ⟨∅⟩ [copies[2], copies[3], copies[4]]) := by
  have shaped : ∀ i ∈ copies, i.Shaped := by
    decide +kernel
  obtain ⟨hback, hfuse⟩ := rewrites_exact_iff {} ⟨∅⟩ (.start (.empty "main"))
  constructor
  · have idle := hback (shaped copies[0] (by decide)) (shaped copies[1] (by decide)) rfl rfl
    exact ⟨_, rfl, idle.2 nofun⟩
  · have fused : fuse? (copies[2] :: copies[3] :: copies[4] :: copies.drop 5) =
        some ⟨.arith .add, some (.reg .ra), some (.reg .rc)⟩ := rfl
    obtain ⟨r, hr, hconcur⟩ := hfuse (shaped copies[2] (by decide)) (shaped copies[3] (by decide))
      (shaped copies[4] (by decide)) fused
    exact ⟨_, rfl, r, hr, hconcur.2 (.inr ⟨by decide, .inl (Memory.get?_empty _)⟩)⟩

/-- Code in which a move to the stack pointer rounds the value that the next one moves back. -/
def rounding : Block :=
  ⟨"main", [.mov (.float 2.5) (.reg .ra), .mov (.reg .ra) .stackPointer,
    .mov .stackPointer (.reg .ra), .ret]⟩

/-- Code that keeps a value above the stack and adds to it. -/
def overStack : Block :=
  ⟨"main", [.mov (.int 7) .stackTop, .push (.int 1), .pop (.reg .rb),
    ⟨.arith .add, some (.reg .rb), some .stackTop⟩, .mov (.int 0) (.reg .rb), .ret]⟩

theorem exists_image_of_block {b : Block} (h : Routine.Loadable b.body) :
    Image.ofInstructions b.code = .ok (.ofBlocks [b]) ∧
      (Image.ofBlocks [b]).find? b.name = some b.routine := by
  have hd : ([b].map Block.name).Nodup := List.nodup_singleton _
  refine ⟨?_, (Image.find?_ofBlocks hd ..).2 ⟨b, List.mem_singleton_self b, rfl, rfl⟩⟩
  simpa using Image.ofInstructions_blocks hd fun c hc => List.mem_singleton.1 hc ▸ h

/-- In code that loads, each of the two rewrites can be made where it changes what happens. -/
theorem rewrites_differ :
    (∃ (image : Image) (s t u : State) (first second : Instruction),
      Image.ofInstructions rounding.code = .ok image ∧ s.Reachable {} image ∧
      s.instruction? = some first ∧ s.step {} image = .ok (.moved t) ∧
      t.instruction? = some second ∧ isReversedMove first second = true ∧
      t.step {} image = .ok (.moved u) ∧
      u.registers.accumulator ≠ t.registers.accumulator) ∧
    (∃ (image : Image) (s : State) (push pop add fused : Instruction) (rest : List Instruction),
      Image.ofInstructions overStack.code = .ok image ∧ s.Reachable {} image ∧
      s.frame.routine.code.toList.drop s.frame.position = push :: pop :: add :: rest ∧
      fuse? (push :: pop :: add :: rest) = some fused ∧
      s.executeAll {} image [push, pop, add] = .error .stackUnderflow ∧
      ∃ t, s.execute {} image fused = .ok (.moved t)) := by
  constructor
  · obtain ⟨hload, hmain⟩ := @exists_image_of_block rounding ⟨by decide, by decide, by decide⟩
    refine ⟨_, _, _, _, _, _, hload, .step (.start hmain) rfl rfl, rfl, rfl, rfl, rfl, rfl, ?_⟩
    decide +kernel
  · obtain ⟨hload, hmain⟩ := @exists_image_of_block overStack ⟨by decide, by decide, by decide⟩
    refine ⟨_, _, _, _, _, _, _, hload, .step (.start hmain) rfl rfl, rfl, rfl, ?_, ?_⟩
    · rw [State.executeAll_push_pop rfl (by decide), State.executeAll_add, State.addTo_passed]
      rfl
    · rw [State.execute_add]
      change ∃ t, Except.map _ (State.addTo _ _ _) = _
      have top : (Memory.empty.set 0 (.int 7)).get? 0 = some (.int 7) := by
        rw [Memory.get?_set, if_pos rfl]
      rw [State.addTo_stackTop top]
      exact ⟨_, rfl⟩

end Peephole

end BlueCode
