import BlueCode.Proofs.Rewriting

namespace BlueCode

open Peephole

namespace Peephole

variable {r : Register} {i : Instruction} {rest : List Instruction}

theorem isDead_mov (hop : i.op = .mov) (h : isDead r (i :: rest) = true) :
    i.src ≠ some (.reg r) ∧ (i.dst = some (.reg r) ∨ isDead r rest = true) := by
  simp only [isDead, hop] at h
  split at h
  · cases h
  · next hs =>
    refine ⟨hs, ?_⟩
    split at h
    · next hd => exact .inl hd
    · exact .inr h

theorem isDead_push (hop : i.op = .push) (h : isDead r (i :: rest) = true) :
    i.src ≠ some (.reg r) ∧ isDead r rest = true := by
  simp only [isDead, hop] at h
  split at h
  · cases h
  · next hs => exact ⟨hs, h⟩

theorem isDead_pop (hop : i.op = .pop) (h : isDead r (i :: rest) = true) :
    i.dst = some (.reg r) ∨ isDead r rest = true := by
  simp only [isDead, hop] at h
  split at h
  · next hd => exact .inl hd
  · exact .inr h

theorem isDead_arith {op : ArithOp} (hop : i.op = .arith op) (h : isDead r (i :: rest) = true) :
    i.src ≠ some (.reg r) ∧ i.dst ≠ some (.reg r) ∧ isDead r rest = true := by
  simp only [isDead, hop] at h
  split at h
  · cases h
  · next hs => exact ⟨fun hsrc => hs (.inl hsrc), fun hdst => hs (.inr hdst), h⟩

theorem isDead_compare {op : CompareOp} (hop : i.op = .compare op)
    (h : isDead r (i :: rest) = true) :
    i.src ≠ some (.reg r) ∧ i.dst ≠ some (.reg r) ∧ (r = .ra ∨ isDead r rest = true) := by
  simp only [isDead, hop] at h
  split at h
  · cases h
  · next hs =>
    refine ⟨fun hsrc => hs (.inl hsrc), fun hdst => hs (.inr hdst), ?_⟩
    split at h
    · next hr => exact .inl hr
    · exact .inr h

end Peephole

def Frame.ahead (f : Frame) : List Instruction :=
  f.routine.code.toList.drop f.position

theorem Frame.ahead_of_instruction? {f : Frame} {i : Instruction} (hi : f.instruction? = some i) :
    f.ahead = i :: ahead { f with position := f.position + 1 } := by
  refine drop_of_getElem? ?_
  rw [Array.getElem?_toList]
  exact hi

theorem Frame.ahead_of_end {f : Frame} (hi : f.instruction? = none) : f.ahead = [] := by
  refine List.drop_eq_nil_of_le ?_
  rw [Array.length_toList]
  exact Array.getElem?_eq_none_iff.1 hi

namespace Edit

variable {e : Edit} {r : Routine} {k : Nat}

def routine (e : Edit) (r : Routine) : Routine :=
  if r.name = e.name then e.new.routine else r

def placeIn (e : Edit) (r : Routine) (k : Nat) : Nat :=
  if r.name = e.name then e.place k else k

/-- The routine is the one that is edited, if it has its name. -/
def Knows (e : Edit) (r : Routine) : Prop :=
  r.name = e.name → r = e.old.routine

/-- The place is not in the stretch, but may be its start. -/
def OutsideIn (e : Edit) (r : Routine) (k : Nat) : Prop :=
  r.name = e.name → k ≤ e.before.length ∨ e.before.length + e.window.length ≤ k

def ApartIn (e : Edit) (r : Routine) (k : Nat) : Prop :=
  r.name = e.name → e.Apart k

def frame (e : Edit) (f : Frame) : Frame :=
  ⟨e.routine f.routine, e.placeIn f.routine f.position, f.base⟩

def activation (e : Edit) (a : Activation) : Activation :=
  ⟨e.frame a.frame, a.waiting⟩

def calls (e : Edit) (c : Calls) : Calls :=
  { c with frame := e.frame c.frame, callers := c.callers.map e.activation }

@[simp] theorem routine_name (e : Edit) (r : Routine) : (e.routine r).name = r.name := by
  unfold routine
  split
  · next h => rw [h, Block.routine, Routine.ofBody_name]; rfl
  · rfl

theorem placeIn_zero (e : Edit) (r : Routine) : e.placeIn r 0 = 0 := by
  unfold placeIn
  split
  · exact place_of_le (Nat.zero_le _)
  · rfl

theorem ApartIn.outsideIn_succ (h : e.ApartIn r k) : e.OutsideIn r (k + 1) := by
  intro hr
  rcases h hr with h | h
  · exact .inl h
  · exact .inr (Nat.le_succ_of_le h)

theorem OutsideIn.start_or_apartIn (h : e.OutsideIn r k) :
    r.name = e.name ∧ k = e.before.length ∨ e.ApartIn r k := by
  by_cases hr : r.name = e.name
  · by_cases hk : k = e.before.length
    · exact .inl ⟨hr, hk⟩
    · exact .inr fun _ => apart_of_ne (h hr) hk
  · exact .inr fun h => absurd h hr

namespace Sound

variable (h : e.Sound)

include h

theorem routine_frameSize (hk : e.Knows r) : (e.routine r).frameSize = r.frameSize := by
  unfold routine
  split
  · next hr => rw [h.frameSize_eq, hk hr]
  · rfl

theorem placeIn_succ (ha : e.ApartIn r k) : e.placeIn r (k + 1) = e.placeIn r k + 1 := by
  unfold placeIn
  split
  · next hr => exact h.place_succ (ha hr)
  · rfl

theorem routine_code (hk : e.Knows r) (ha : e.ApartIn r k) :
    (e.routine r).code[e.placeIn r k]? = r.code[k]? := by
  unfold routine placeIn
  split
  · next hr =>
    rw [hk hr]
    simpa [Block.routine] using h.getElem?_place (ha hr)
  · rfl

theorem routine_labels (hk : e.Knows r) (label : String) :
    (e.routine r).labels[label]? = r.labels[label]?.map (e.placeIn r) := by
  unfold routine
  split
  · next hr =>
    have hplace : e.placeIn r = e.place := funext fun k => if_pos hr
    rw [h.labels_new, hplace, hk hr]
  · next hr =>
    have hplace : e.placeIn r = id := funext fun k => if_neg hr
    rw [hplace, Option.map_id]
    rfl

theorem apartIn_of_label (hk : e.Knows r) {label : String} (hl : r.labels[label]? = some k) :
    e.ApartIn r k := by
  intro hr
  rw [hk hr] at hl
  exact h.apart_of_label hl

theorem apartIn_of_call (hk : e.Knows r) {name : String} (hi : r.code[k]? = some (.call name)) :
    e.ApartIn r k := by
  intro hr
  rw [hk hr] at hi
  have hbody : e.old.body[k]? = some (.call name) := by simpa [Block.routine] using hi
  exact h.apart_of_op hbody (by simp [Instruction.call])

end Sound

/-- The calls are the same after the edit, but for registers of which it does not matter what they
hold. -/
structure Near (e : Edit) (dead : Register → Prop) (c c' : Calls) : Prop where
  eq : c' = { e.calls c with general := c'.general }
  get (r : Register) : dead r ∨ c'.get r = c.get r

namespace Near

variable {dead dead' : Register → Prop} {c c' : Calls} {o : Option Operand}

theorem mono (h : e.Near dead c c') (hd : ∀ r, dead r → dead' r) : e.Near dead' c c' :=
  ⟨h.eq, fun r => (h.get r).imp_left (hd r)⟩

theorem calls (e : Edit) (dead : Register → Prop) (c : Calls) : e.Near dead c (e.calls c) :=
  ⟨rfl, fun _ => .inr rfl⟩

theorem frame_eq (h : e.Near dead c c') : c'.frame = e.frame c.frame :=
  (congrArg Calls.frame h.eq :)

theorem heap_eq (h : e.Near dead c c') : c'.heap = c.heap :=
  (congrArg Calls.heap h.eq :)

theorem waiting_eq (h : e.Near dead c c') : c'.waiting = c.waiting :=
  (congrArg Calls.waiting h.eq :)

theorem callers_eq (h : e.Near dead c c') : c'.callers = c.callers.map e.activation :=
  (congrArg Calls.callers h.eq :)

theorem height_eq (h : e.Near dead c c') : c'.height = c.height := by
  have hreturns (callers : List Activation) : (Calls.returns (callers.map e.activation)).length =
      (Calls.returns callers).length := by
    induction callers with
    | nil => rfl
    | cons a rest ih =>
      simp only [List.map_cons, Calls.returns, List.length_cons, List.length_append, ih]
      rfl
  simp only [Calls.height, Calls.cells, List.length_append, h.waiting_eq, h.callers_eq, hreturns]

theorem eq_calls (h : e.Near dead c c') (hd : ∀ r, ¬ dead r) : c' = e.calls c := by
  have hgeneral : c'.general = c.general := by
    have hget (r : Register) : c'.general[r.index] = c.general[r.index] :=
      (h.get r).resolve_left (hd r)
    refine Vector.ext fun i hi => ?_
    interval_cases i
    · exact hget .ra
    · exact hget .rb
    · exact hget .rc
    · exact hget .rd
    · exact hget .re
    · exact hget .rf
    · exact hget .rg
    · exact hget .rh
  rw [h.eq, hgeneral]
  rfl

theorem read (h : e.Near dead c c') (hp : Operand.Plain o)
    (ho : ∀ r, o = some (.reg r) → ¬ dead r) : c'.state.read o = c.state.read o := by
  cases o with
  | none => rfl
  | some o =>
    cases o with
    | reg r => exact congrArg Except.ok ((h.get r).resolve_left (ho r rfl))
    | stackPointer => exact absurd rfl hp.1
    | stackTop => exact absurd rfl hp.2
    | heap address =>
      have hbase : c'.frame.base = c.frame.base := (congrArg Frame.base h.frame_eq :)
      rw [State.read_heap, State.read_heap]
      change (State.cell c'.frame.base _ >>= fun cell => (c'.heap.get? cell).elim _ _) = _
      rw [hbase, h.heap_eq]
      rfl
    | _ => rfl

theorem set (h : e.Near dead c c') (r : Register) (v : Value) :
    e.Near (fun q => dead q ∧ q ≠ r) (c.set r v) (c'.set r v) where
  eq := by
    rw [h.eq]
    rfl
  get q := by
    by_cases hq : q = r
    · subst hq
      exact .inr (by rw [Calls.get_set_same, Calls.get_set_same])
    · rw [Calls.get_set_other c' v (Ne.symm hq), Calls.get_set_other c v (Ne.symm hq)]
      exact (h.get q).imp_left fun hd => ⟨hd, hq⟩

theorem put (h : e.Near dead c c') (o : Option Operand) (v : Value) :
    Concur (e.Near fun q => dead q ∧ o ≠ some (.reg q)) (c.put o v) (c'.put o v) := by
  cases o with
  | none => exact .error _
  | some o =>
    cases o with
    | reg r => exact .ok ((h.set r v).mono fun q hq => ⟨hq.1, by simpa using Ne.symm hq.2⟩)
    | stackPointer =>
      unfold Calls.put
      change Concur _ (((v.asInt.mapError RunError.value).map _).map _)
        (((v.asInt.mapError RunError.value).map _).map _)
      cases v.asInt with
      | error e => exact .error _
      | ok n => exact .ok ⟨h.eq, fun q => (h.get q).imp_left fun hd => ⟨hd, by simp⟩⟩
    | stackTop => exact .ok ⟨h.eq, fun q => (h.get q).imp_left fun hd => ⟨hd, by simp⟩⟩
    | heap address =>
      change Concur _ ((State.cell c.frame.base _ >>= _).map _)
        ((State.cell c'.frame.base _ >>= _).map _)
      have hbase : c'.frame.base = c.frame.base := (congrArg Frame.base h.frame_eq :)
      rw [hbase]
      cases State.cell c.frame.base address.toInt with
      | error e => exact .error _
      | ok cell =>
        refine .ok ⟨?_, fun q => (h.get q).imp_left fun hd => ⟨hd, by simp⟩⟩
        change ({ c' with heap := c'.heap.set cell v } : Calls) = _
        rw [h.heap_eq, h.eq]
        rfl
    | _ => exact .error _

theorem goto (h : e.Near dead c c') (k : Nat) :
    e.Near dead (c.goto k) (c'.goto (e.placeIn c.frame.routine k)) where
  eq := by
    rw [h.eq]
    rfl
  get := h.get

theorem advance (h : e.Near dead c c') (he : e.Sound)
    (ha : e.ApartIn c.frame.routine c.frame.position) :
    e.Near dead c.advance c'.advance := by
  have hgoto := h.goto (c.frame.position + 1)
  rw [he.placeIn_succ ha] at hgoto
  rw [Calls.advance, Calls.advance, h.frame_eq]
  exact hgoto

end Near

/-- The edited image has the routine of the old block edited, and the others as they are. -/
structure Relates (e : Edit) (image image' : Image) : Prop where
  old {name : String} {r : Routine} : image.find? name = some r → e.Knows r
  new (name : String) : image'.find? name = (image.find? name).map e.routine

/-- The calls are the same after the edit, but for registers that are dead. -/
structure Matches (e : Edit) (c c' : Calls) : Prop where
  near : e.Near (fun r => isDead r c.frame.ahead = true) c c'
  outside : e.OutsideIn c.frame.routine c.frame.position

inductive Agree (e : Edit) : Except RunError Calls.Move → Except RunError Calls.Move → Prop where
  | next {text : String} {c c' : Calls} : e.Matches c c' →
      Agree e (.ok (.next text c)) (.ok (.next text c'))
  | halted {halt : Halt} : Agree e (.ok (.halted halt)) (.ok (.halted halt))
  | mixed : Agree e (.ok .mixed) (.ok .mixed)
  | error {error : RunError} : Agree e (.error error) (.error error)

variable {settings : Settings} {image image' : Image} {c c' d d' : Calls} {i : Instruction}

theorem Agree.bind {α : Type} (x : Except RunError α) {f g : α → Except RunError Calls.Move}
    (h : ∀ a, e.Agree (f a) (g a)) : e.Agree (x >>= f) (x >>= g) := by
  cases x with
  | error e => exact .error
  | ok a => exact h a

theorem matches_calls (h : e.OutsideIn c.frame.routine c.frame.position) :
    e.Matches c (e.calls c) :=
  ⟨.calls e _ c, h⟩

/-- Behind an instruction outside the stretch the calls match if they do so apart from dead
registers. -/
theorem Near.agree_advance {dead : Register → Prop} (h : e.Near dead d d') (he : e.Sound)
    (hf : d.frame = c.frame) (ha : e.ApartIn c.frame.routine c.frame.position)
    (hdead : ∀ r, dead r → isDead r c.advance.frame.ahead = true) (text : String) :
    e.Agree (.ok (.next text d.advance)) (.ok (.next text d'.advance)) := by
  rw [← hf] at ha
  have hahead : d.advance.frame.ahead = c.advance.frame.ahead := by
    rw [Calls.advance, Calls.goto, hf]
    rfl
  refine .next ⟨(h.advance he ha).mono fun r hr => ?_, ha.outsideIn_succ⟩
  rw [hahead]
  exact hdead r hr

theorem Near.agree_put (h : e.Near (fun r => isDead r c.frame.ahead = true) d d') (he : e.Sound)
    (hf : d.frame = c.frame) (hi : c.instruction? = some i)
    (ha : e.ApartIn c.frame.routine c.frame.position)
    (hdead : ∀ r, isDead r (i :: c.advance.frame.ahead) = true →
      i.dst = some (.reg r) ∨ isDead r c.advance.frame.ahead = true) (v : Value) :
    e.Agree (d.put i.dst v >>= fun d => .ok (.next "" d.advance))
      (d'.put i.dst v >>= fun d => .ok (.next "" d.advance)) := by
  have hput := h.put i.dst v
  generalize hp : d.put i.dst v = x at hput
  generalize d'.put i.dst v = y at hput
  cases hput with
  | error => exact .error
  | ok hnear =>
    refine hnear.agree_advance he ((Calls.put_eq_ok hp).1.trans hf) ha (fun r hr => ?_) ""
    rw [Frame.ahead_of_instruction? hi] at hr
    exact (hdead r hr.1).resolve_left hr.2

namespace Matches

theorem eq_calls (h : e.Matches c c') (hd : ∀ r, isDead r c.frame.ahead = false) :
    c' = e.calls c :=
  h.near.eq_calls fun r => by rw [hd r]; exact Bool.false_ne_true

theorem eq_calls_of_op (h : e.Matches c c') (hi : c.instruction? = some i)
    (hd : ∀ r rest, isDead r (i :: rest) = false) : c' = e.calls c :=
  h.eq_calls fun r => by rw [Frame.ahead_of_instruction? hi, hd]

theorem read_src (h : e.Matches c c') (hi : c.instruction? = some i) (hp : i.Plain)
    (hdead : ∀ r, isDead r (i :: c.advance.frame.ahead) = true → i.src ≠ some (.reg r)) :
    c'.state.read i.src = c.state.read i.src := by
  refine h.near.read hp.src fun r hr hd => ?_
  rw [Frame.ahead_of_instruction? hi] at hd
  exact hdead r hd hr

theorem read_dst (h : e.Matches c c') (hi : c.instruction? = some i) (hp : i.Plain)
    (hdead : ∀ r, isDead r (i :: c.advance.frame.ahead) = true → i.dst ≠ some (.reg r)) :
    c'.state.read i.dst = c.state.read i.dst := by
  refine h.near.read hp.dst fun r hr hd => ?_
  rw [Frame.ahead_of_instruction? hi] at hd
  exact hdead r hd hr

theorem agree_push (h : e.Matches c c') (he : e.Sound) (hi : c.instruction? = some i)
    (ha : e.ApartIn c.frame.routine c.frame.position) (hop : i.op = .push) (v : Value) :
    e.Agree (c.save v >>= fun d => .ok (.next "" d.advance))
      (c'.save v >>= fun d => .ok (.next "" d.advance)) := by
  unfold Calls.save
  rw [h.near.height_eq]
  split
  · have hnear : e.Near (fun r => isDead r c.frame.ahead = true) (c.push v) (c'.push v) := by
      refine ⟨?_, h.near.get⟩
      rw [h.near.eq]
      rfl
    refine hnear.agree_advance he rfl ha (fun r hr => ?_) ""
    rw [Frame.ahead_of_instruction? hi] at hr
    exact (isDead_push hop hr).2
  · exact .error

theorem agree_pop (h : e.Matches c c') (he : e.Sound) (hi : c.instruction? = some i)
    (ha : e.ApartIn c.frame.routine c.frame.position) (hop : i.op = .pop) :
    e.Agree (c.restore i.dst) (c'.restore i.dst) := by
  unfold Calls.restore
  rw [h.near.waiting_eq]
  cases c.waiting with
  | cons v rest =>
    have hnear : e.Near (fun r => isDead r c.frame.ahead = true) { c with waiting := rest }
        { c' with waiting := rest } := by
      refine ⟨?_, h.near.get⟩
      rw [h.near.eq]
      rfl
    exact hnear.agree_put he rfl hi ha (fun r => isDead_pop hop) v
  | nil =>
    rw [h.near.callers_eq]
    cases c.callers with
    | nil => exact .error
    | cons caller rest => exact .mixed

theorem agree_compare (h : e.Matches c c') (he : e.Sound) (hi : c.instruction? = some i)
    (ha : e.ApartIn c.frame.routine c.frame.position) {op : CompareOp} (hop : i.op = .compare op)
    (v : Value) : e.Agree (.ok (.next "" (c.set .ra v).advance))
      (.ok (.next "" (c'.set .ra v).advance)) := by
  refine (h.near.set .ra v).agree_advance he rfl ha (fun r hr => ?_) ""
  rw [Frame.ahead_of_instruction? hi] at hr
  exact (isDead_compare hop hr.1).2.2.resolve_left hr.2

end Matches

namespace Sound

variable (he : e.Sound)

include he

theorem agree_advance (hc : e.ApartIn c.frame.routine c.frame.position) (text : String) :
    e.Agree (.ok (.next text c.advance)) (.ok (.next text (e.calls c).advance)) := by
  have hnear := Near.calls e (fun _ => False) c
  exact hnear.agree_advance he rfl hc nofun text

theorem agree_jump (hk : e.Knows c.frame.routine) (label : String) :
    e.Agree (c.jump label >>= fun d => .ok (.next "" d))
      ((e.calls c).jump label >>= fun d => .ok (.next "" d)) := by
  have hlabels : (e.calls c).frame.routine.labels[label]? = _ := he.routine_labels hk label
  cases hl : c.frame.routine.labels[label]? with
  | none =>
    rw [hl] at hlabels
    have hname : (e.calls c).frame.routine.name = c.frame.routine.name := routine_name e _
    rw [Calls.jump_of_none hl, Calls.jump_of_none hlabels, hname]
    exact .error
  | some k =>
    rw [hl] at hlabels
    rw [Calls.jump_of_some hl, Calls.jump_of_some hlabels]
    exact .next (@matches_calls e (c.goto k)
      fun hr => (he.apartIn_of_label hk hl hr).imp_left Nat.le_of_lt)

theorem agree_quit (hrel : e.Relates image image') (ho : c.Orderly image) :
    e.Agree (.ok c.quit) (.ok (e.calls c).quit) := by
  have hcallers : (e.calls c).callers = c.callers.map e.activation := rfl
  have hwaiting : (e.calls c).waiting = c.waiting := rfl
  cases hc : c.callers with
  | nil =>
    rw [hc] at hcallers
    rw [Calls.quit_main hc, Calls.quit_main hcallers]
    exact .halted
  | cons caller rest =>
    rw [hc] at hcallers
    rw [Calls.quit_call hc, Calls.quit_call hcallers, hwaiting]
    split
    · obtain ⟨hfound, name, hi⟩ := ho.callers caller (by rw [hc]; exact List.mem_cons_self)
      have ha := he.apartIn_of_call (hrel.old hfound) hi
      have hresume : (e.calls c).resume (e.activation caller) (rest.map e.activation) =
          e.calls (c.resume caller rest) := by
        have hplace := he.placeIn_succ ha
        simp only [Calls.resume, calls, activation, frame, hplace]
      rw [hresume]
      exact .next (matches_calls ha.outsideIn_succ)
    · exact .mixed

theorem start_eq (hk : e.Knows c.frame.routine) {callee : Routine} (hcallee : e.Knows callee) :
    (e.calls c).start settings (e.routine callee) = (c.start settings callee).map e.calls := by
  have hcaller : (e.calls c).frame.routine.frameSize = c.frame.routine.frameSize :=
    he.routine_frameSize hk
  have hsize : (e.routine callee).frameSize = callee.frameSize := he.routine_frameSize hcallee
  have henter : (e.calls c).enter (e.routine callee) = e.calls (c.enter callee) := by
    have hzero := placeIn_zero e callee
    unfold Calls.enter
    rw [hcaller, hsize]
    simp only [calls, frame, hzero, List.map_cons, activation]
  exact Calls.start_eq_map hcaller rfl (List.length_map _) hsize henter

theorem agree_invoke (hrel : e.Relates image image') (ho : c.Orderly image)
    (ha : e.ApartIn c.frame.routine c.frame.position) (name : String) :
    e.Agree (c.invoke settings image name) ((e.calls c).invoke settings image' name) := by
  have hheight := (Near.calls e (fun _ => False) c).height_eq
  unfold Calls.invoke Calls.save
  rw [hheight, hrel.new name]
  split
  · cases Builtin.ofName? name with
    | some b =>
      change e.Agree (State.effect settings (c.get .ra) b >>= _)
        (State.effect settings (c.get .ra) b >>= _)
      apply Agree.bind
      intro effect
      cases effect with
      | nothing => exact he.agree_advance ha ""
      | print text => exact he.agree_advance ha text
      | halt halt => exact .halted
    | none =>
      cases hf : image.find? name with
      | none => exact .error
      | some callee =>
        change e.Agree (c.start settings callee >>= _)
          ((e.calls c).start settings (e.routine callee) >>= _)
        rw [he.start_eq (hrel.old ho.found) (hrel.old hf)]
        cases hs : c.start settings callee with
        | error e => exact .error
        | ok d =>
          obtain ⟨-, rfl⟩ := Calls.enter_of_start hs
          exact .next (matches_calls fun _ => .inl (Nat.zero_le _))
  · exact .error

end Sound

theorem Matches.instruction?_eq (h : e.Matches c c') (he : e.Sound)
    (hk : e.Knows c.frame.routine) (ha : e.ApartIn c.frame.routine c.frame.position) :
    c'.instruction? = c.instruction? := by
  rw [Calls.instruction?, h.near.frame_eq]
  exact he.routine_code hk ha

/-- Outside the stretch the calls do the same next. -/
theorem Matches.agree (h : e.Matches c c') (he : e.Sound) (hrel : e.Relates image image')
    (himage : image.Plain) (ho : c.Orderly image)
    (ha : e.ApartIn c.frame.routine c.frame.position) :
    e.Agree (c.next settings image) (c'.next settings image') := by
  have hk := hrel.old ho.found
  have hinstruction := h.instruction?_eq he hk ha
  unfold Calls.next
  rw [hinstruction]
  cases hi : c.instruction? with
  | none =>
    rw [h.eq_calls fun r => by rw [Frame.ahead_of_end hi, isDead]]
    exact he.agree_quit hrel ho
  | some i =>
    have hp := himage.plain ho.found i (Array.mem_of_getElem? hi)
    change e.Agree (c.follow settings image i) (c'.follow settings image' i)
    rw [Calls.follow, Calls.follow]
    cases hop : i.op with
    | mov =>
      rw [h.read_src hi hp fun r hr => (isDead_mov hop hr).1]
      exact .bind _ fun v => h.near.agree_put he rfl hi ha (fun r hr => (isDead_mov hop hr).2) v
    | push =>
      rw [h.read_src hi hp fun r hr => (isDead_push hop hr).1]
      exact .bind _ fun v => h.agree_push he hi ha hop v
    | pop => exact h.agree_pop he hi ha hop
    | arith op =>
      rw [h.read_src hi hp fun r hr => (isDead_arith hop hr).1,
        h.read_dst hi hp fun r hr => (isDead_arith hop hr).2.1]
      exact .bind _ fun left => .bind _ fun right => .bind _ fun v =>
        h.near.agree_put he rfl hi ha (fun r hr => .inr (isDead_arith hop hr).2.2) v
    | compare op =>
      rw [h.read_src hi hp fun r hr => (isDead_compare hop hr).1,
        h.read_dst hi hp fun r hr => (isDead_compare hop hr).2.1]
      exact .bind _ fun left => .bind _ fun right => .bind _ fun holds =>
        h.agree_compare he hi ha hop _
    -- The other instructions count as reading all registers.
    | jump =>
      rw [h.eq_calls_of_op hi fun r rest => by simp only [isDead, hop]]
      exact he.agree_jump hk _
    | jumpIfNot =>
      rw [h.eq_calls_of_op hi fun r rest => by simp only [isDead, hop]]
      rw [(Near.calls e (fun _ => False) c).read hp.src fun _ _ => not_false]
      apply Agree.bind
      intro v
      apply Agree.bind
      intro n
      split
      · exact he.agree_jump hk _
      · exact he.agree_advance ha ""
    | call =>
      rw [h.eq_calls_of_op hi fun r rest => by simp only [isDead, hop]]
      exact he.agree_invoke hrel ho ha _
    | ret =>
      rw [h.eq_calls_of_op hi fun r rest => by simp only [isDead, hop]]
      exact he.agree_quit hrel ho
    | define =>
      rw [h.eq_calls_of_op hi fun r rest => by simp only [isDead, hop]]
      exact he.agree_advance ha ""
    | label =>
      rw [h.eq_calls_of_op hi fun r rest => by simp only [isDead, hop]]
      exact he.agree_advance ha ""

end Edit

end BlueCode
