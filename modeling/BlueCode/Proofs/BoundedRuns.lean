import BlueCode.Proofs.ForwardCode
import BlueCode.Proofs.StepEffects

namespace BlueCode

open Compile

/-- The current call is at another place: the next one, or a label that its instruction jumps to. -/
def State.GoesOn (s next : State) : Prop :=
  ∃ i position, s.instruction? = some i ∧ next.frame = { s.frame with position := position } ∧
    (position = s.frame.position + 1 ∨
      ∃ label, jumpTarget? i = some label ∧ s.frame.routine.labels[label]? = some position)

def Transition.GoesOn (s : State) : Transition → Prop
  | .moved next | .printed _ next => s.GoesOn next
  | .entered _ | .left _ | .halted _ => True

namespace State

variable {settings : Settings} {image : Image} {s t : State} {i : Instruction}
variable {transition : Transition}

theorem goesOn_advance (hi : s.instruction? = some i) (hf : t.frame = s.frame) :
    s.GoesOn t.advance := by
  refine ⟨i, s.frame.position + 1, hi, ?_, .inl rfl⟩
  rw [advance, goto, hf]

theorem goesOn_jump (hi : s.instruction? = some i) (hj : jumpTarget? i = some i.target)
    (h : s.jump i.target = .ok t) : s.GoesOn t := by
  unfold jump at h
  split at h
  · next position hposition =>
    cases h
    exact ⟨i, position, hi, rfl, .inr ⟨i.target, hj, hposition⟩⟩
  · cases h

theorem goesOn_leave (h : s.leave = .ok transition) : transition.GoesOn s := by
  unfold leave at h
  split at h
  · cases h
    trivial
  · obtain ⟨⟨v, popped⟩, -, h⟩ := bind_eq_ok.1 h
    obtain ⟨address, -, h⟩ := bind_eq_ok.1 h
    split at h
    · cases h
    · cases h
      trivial

theorem goesOn_of_does (hi : s.instruction? = some i) (h : s.Does settings image i transition) :
    transition.GoesOn s := by
  cases h with
  | advances hb => exact goesOn_advance hi hb.frame
  | writes hb hw => exact goesOn_advance hi ((write_frame hw).trans hb.frame)
  | jumps htarget hj => exact goesOn_jump hi htarget hj
  | prints hb => exact goesOn_advance hi hb.frame
  | halts => trivial
  | enters => trivial
  | leaves hl => exact goesOn_leave hl

theorem goesOn_step (h : s.step settings image = .ok transition) : transition.GoesOn s := by
  unfold step at h
  split at h
  · next i hi => exact goesOn_of_does hi (execute_does h)
  · exact goesOn_leave h

end State

def Frame.remaining (f : Frame) : Nat :=
  f.routine.code.size - f.position

namespace Calls

/-- A bound for the steps of the calls that wait, once they are returned to. The first calls count
`base` times as much as those that they start, up to the greatest depth. -/
def waitingSteps (base depth : Nat) : List Activation → Nat
  | [] => 0
  | caller :: rest =>
    caller.frame.remaining * base ^ (depth - rest.length) + waitingSteps base depth rest

/-- A bound for the steps of all live calls. Behind its code, the current one has to return. -/
def steps (base depth : Nat) (c : Calls) : Nat :=
  (c.frame.remaining + 1) * base ^ (depth - c.callers.length) + waitingSteps base depth c.callers

variable {settings : Settings} {image : Image} {limit base depth : Nat} {c c' : Calls}

theorem steps_pos (hbase : 0 < base) : 0 < c.steps base depth :=
  Nat.add_pos_left (Nat.mul_pos (Nat.succ_pos _) (Nat.pow_pos hbase)) _

theorem steps_lt_of_remaining (hbase : 0 < base) (hc : c'.callers = c.callers)
    (h : c'.frame.remaining < c.frame.remaining) : c'.steps base depth < c.steps base depth := by
  rw [steps, steps, hc]
  exact Nat.add_lt_add_right
    (Nat.mul_lt_mul_of_pos_right (Nat.succ_lt_succ h) (Nat.pow_pos hbase)) _

/-- A call that starts takes fewer steps than one instruction of its caller is counted as. -/
theorem steps_enter_lt {callee : Routine} (hdepth : c.callers.length + 1 ≤ depth)
    (hsize : callee.code.size + 1 < base) : (c.enter callee).steps base depth < c.steps base depth := by
  have hpower : base ^ (depth - c.callers.length) = base ^ (depth - (c.callers.length + 1)) * base := by
    rw [← Nat.pow_succ]
    congr 1
    omega
  have hlt : (callee.code.size + 1) * base ^ (depth - (c.callers.length + 1)) <
      base ^ (depth - c.callers.length) := by
    rw [hpower, Nat.mul_comm]
    exact Nat.mul_lt_mul_of_pos_left hsize (Nat.pow_pos (Nat.zero_lt_of_lt hsize))
  calc (c.enter callee).steps base depth
    _ = (callee.code.size + 1) * base ^ (depth - (c.callers.length + 1)) +
        waitingSteps base depth (⟨c.frame, c.waiting⟩ :: c.callers) := rfl
    _ < base ^ (depth - c.callers.length) +
        waitingSteps base depth (⟨c.frame, c.waiting⟩ :: c.callers) := Nat.add_lt_add_right hlt _
    _ = c.steps base depth := by
      rw [steps, waitingSteps]
      ring

theorem steps_resume_lt {caller : Activation} {rest : List Activation} (hbase : 0 < base)
    (hc : c.callers = caller :: rest) (hp : caller.frame.position < caller.frame.routine.code.size) :
    (c.resume caller rest).steps base depth < c.steps base depth := by
  have hremaining : (c.resume caller rest).frame.remaining + 1 = caller.frame.remaining := by
    change caller.frame.routine.code.size - (caller.frame.position + 1) + 1 =
      caller.frame.routine.code.size - caller.frame.position
    omega
  have hpos : 0 < (c.frame.remaining + 1) * base ^ (depth - c.callers.length) :=
    Nat.mul_pos (Nat.succ_pos _) (Nat.pow_pos hbase)
  rw [steps, hremaining, steps, hc, waitingSteps]
  rw [hc] at hpos
  exact Nat.lt_add_of_pos_left hpos

theorem steps_initial_le {main : Routine} (hsize : main.code.size + 1 ≤ base) :
    (initial main).steps base depth ≤ base ^ (depth + 1) := by
  change (main.code.size - 0 + 1) * base ^ depth + 0 ≤ _
  rw [Nat.pow_succ, Nat.mul_comm (base ^ depth)]
  exact Nat.mul_le_mul_right _ hsize

namespace Proper

theorem remaining_lt (h : c.Proper settings image limit) (hforward : image.Forward)
    (hgoes : c.state.GoesOn c'.state) : c'.frame.remaining < c.frame.remaining := by
  obtain ⟨i, position, hi, hframe, hposition⟩ := hgoes
  have hsize : c.frame.position < c.frame.routine.code.size := (Array.getElem?_eq_some_iff.1 hi).1
  have hlt : c.frame.position < position := by
    rcases hposition with rfl | ⟨label, hj, hk⟩
    · exact Nat.lt_succ_self _
    · exact h.compiled.lt_of_jump (hforward _ _ h.compiled.found) hi hj hk
  have hremaining : c'.frame.remaining = c.frame.routine.code.size - position :=
    congrArg Frame.remaining hframe
  rw [hremaining, Frame.remaining]
  omega

/-- Every step brings the end of the run closer. -/
theorem steps_lt (h : c.Proper settings image limit) (hlimit : limit < 2 ^ 63)
    (himage : image.Compiled limit) (hforward : image.Forward) {transition : Transition} {s : State}
    (hs : c.state.step settings image = .ok transition) (hn : transition.next? = some s) :
    ∃ c' : Calls, c'.Proper settings image limit ∧ c'.state = s ∧
      c'.steps (limit + 2) settings.maxCallDepth < c.steps (limit + 2) settings.maxCallDepth := by
  have hgoes := State.goesOn_step hs
  have hleads := h.leads hlimit himage
  rw [hs] at hleads
  cases hleads with
  | moved h' hc =>
    cases hn
    exact ⟨_, h', rfl, steps_lt_of_remaining (Nat.succ_pos _) hc (h.remaining_lt hforward hgoes)⟩
  | printed h' hc =>
    cases hn
    exact ⟨_, h', rfl, steps_lt_of_remaining (Nat.succ_pos _) hc (h.remaining_lt hforward hgoes)⟩
  | entered h' =>
    cases hn
    exact ⟨_, h', rfl, steps_enter_lt h'.depth (Nat.succ_lt_succ (Nat.lt_succ_of_le h'.compiled.size_le))⟩
  | left hc _ h' =>
    cases hn
    have hwaiting := h.callers
    rw [hc] at hwaiting
    cases hwaiting with
    | call _ _ _ hi _ =>
      exact ⟨_, h', rfl, steps_resume_lt (Nat.succ_pos _) hc (Array.getElem?_eq_some_iff.1 hi).1⟩
  | halted => cases hn

theorem run_of_steps_le (h : c.Proper settings image limit) (hlimit : limit < 2 ^ 63)
    (himage : image.Compiled limit) (hforward : image.Forward) {fuel : Nat}
    (hfuel : c.steps (limit + 2) settings.maxCallDepth ≤ fuel) (out : String) :
    ∃ o, c.state.run settings image fuel out = some o := by
  -- An instruction that may start a call counts as more than all that a deeper call can do, so
  -- every step leaves less ahead.
  induction fuel generalizing c out with
  | zero => exact absurd hfuel (Nat.not_le.2 (steps_pos (Nat.succ_pos _)))
  | succ fuel ih =>
    cases hs : c.state.step settings image with
    | error e => exact ⟨_, State.run_error hs fuel out⟩
    | ok transition =>
      cases hn : transition.next? with
      | some s =>
        obtain ⟨c', h', rfl, hlt⟩ := h.steps_lt hlimit himage hforward hs hn
        rw [State.run_next hs hn]
        exact ih h' (Nat.le_of_lt_succ (Nat.lt_of_lt_of_le hlt hfuel)) _
      | none =>
        cases transition with
        | halted halt => exact ⟨_, State.run_halted hs fuel out⟩
        | _ => cases hn

end Proper

end Calls

/-- A program without loops comes to an end, though its functions may call themselves and each other
without end: the number of live calls is limited. Addresses have 64 bits. -/
theorem Program.run_of_loopless {p : Program} {optimized : Bool} {code : List Instruction}
    (hloops : p.Loopless) (hc : p.instructions optimized = .ok code) (hl : code.length < 2 ^ 63)
    (settings : Settings) :
    ∃ image, Image.ofInstructions code = .ok image ∧
      ∃ o, image.run settings ((code.length + 2) ^ (settings.maxCallDepth + 1)) = some o := by
  obtain ⟨sigs, blocks, -, hb, rfl, hd, hp⟩ := Program.instructions_eq_ok hc
  obtain ⟨hload, himage⟩ := Program.exists_image hb hd hp hl
  refine ⟨_, hload, ?_⟩
  unfold Image.run
  split
  · next main hmain =>
    have hmain := (himage _ _ hmain).2
    exact (Calls.Proper.initial hmain).run_of_steps_le hl himage (hloops.forward hb hd hp)
      (Calls.steps_initial_le (Nat.le_succ_of_le (Nat.succ_le_succ hmain.size_le))) ""
  · exact ⟨_, rfl⟩

def Program.pingPong : Program where
  functions :=
    [⟨"main", [], [.effect (.call "ping" [])]⟩, ⟨"ping", [], [.ret (some (.call "pong" []))]⟩,
      ⟨"pong", [], [.ret (some (.call "ping" []))]⟩]

theorem Program.run_of_loopless_pingPong :
    ∃ code image, Program.pingPong.Loopless ∧ Program.pingPong.instructions false = .ok code ∧
      code.length < 2 ^ 63 ∧ Image.ofInstructions code = .ok image ∧
      ∃ fuel o, image.run {} fuel = some o := by
  have loopless : Program.pingPong.Loopless := by decide
  have short : ((Program.pingPong.instructions false).toOption.getD []).length < 2 ^ 63 := by decide
  obtain ⟨image, himage, o, ho⟩ :=
    @Program.run_of_loopless Program.pingPong false _ loopless rfl short {}
  exact ⟨_, image, loopless, rfl, short, himage, _, o, ho⟩

end BlueCode
