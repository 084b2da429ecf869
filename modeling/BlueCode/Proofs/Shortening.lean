import BlueCode.Proofs.RewrittenRuns

namespace BlueCode

open Peephole

namespace Calls

variable {settings : Settings} {image : Image} {c d : Calls} {a b x : Operand} {v : Value}
  {r : Register}

theorem next_eq_follow {i : Instruction} (hi : c.instruction? = some i) :
    c.next settings image = c.follow settings image i := by
  rw [next, hi]

theorem put_of_read (h : c.state.read (some a) = .ok v) (ha : a.isWritable = true) :
    c.put (some a) v = .ok c := by
  rw [put, State.write_of_read h ha]
  rfl

/-- A value that has been moved can be moved back, which changes nothing. -/
theorem next_mov_back (ha : a.isWritable = true) (hp : Operand.Plain (some b))
    (hr : c.state.read (some a) = .ok v) (hput : c.put (some b) v = .ok d)
    (hi : d.advance.instruction? = some (.mov b a)) :
    d.advance.next settings image = .ok (.next "" d.advance.advance) := by
  have hwrite : c.state.write (some b) v = .ok d.state := by
    rw [state_write hp, hput]
    rfl
  have hsp : b ≠ .stackPointer := fun he => hp.1 (congrArg some he)
  have hread : d.state.read (some b) = .ok v := State.read_of_write hwrite hsp
  have hback : d.state.read (some a) = .ok v := State.read_after_write hr hwrite ha hsp
  have hput : d.advance.put (some a) v = .ok d.advance := put_of_read hback ha
  rw [next_eq_follow hi]
  change d.state.read (some b) >>= _ = _
  rw [hread]
  change d.advance.put (some a) v >>= _ = _
  rw [hput]
  rfl

theorem next_pop (hi : (c.push v).advance.instruction? = some (.pop (.reg r))) :
    (c.push v).advance.next settings image =
      .ok (.next "" ((c.set r v).goto (c.frame.position + 2))) := by
  rw [next_eq_follow hi]
  rfl

def addTo (c : Calls) (v : Value) (o : Operand) : Except RunError Calls := do
  let w ← c.state.read (some o)
  c.put (some o) (v.add w)

theorem next_add {y : Operand} (hi : c.instruction? = some ⟨.arith .add, some x, some y⟩) :
    c.next settings image = c.state.read (some x) >>= fun v =>
      c.addTo v y >>= fun d => .ok (.next "" d.advance) := by
  rw [next_eq_follow hi]
  change (c.state.read (some x) >>= fun v => c.state.read (some y) >>= fun w => _) = _
  refine bind_congr fun v => ?_
  change _ = (c.state.read (some y) >>= _) >>= _
  cases c.state.read (some y) <;> rfl

theorem frame_of_addTo {o : Operand} (h : c.addTo v o = .ok d) : d.frame = c.frame := by
  obtain ⟨w, -, h⟩ := Compile.bind_eq_ok.1 h
  exact (put_eq_ok h).1

theorem addTo_goto (c : Calls) (k : Nat) (v : Value) (o : Operand) :
    (c.goto k).addTo v o = (c.addTo v o).map fun d => d.goto k := by
  have hput (w : Value) : (c.goto k).put (some o) w = (c.put (some o) w).map fun d => d.goto k := by
    unfold put
    cases o with
    | stackPointer =>
      change ((w.asInt.mapError RunError.value).map _).map _ =
        (((w.asInt.mapError RunError.value).map _).map _).map _
      cases w.asInt <;> rfl
    | heap address =>
      change (State.cell c.frame.base address.toInt >>= _).map _ =
        ((State.cell c.frame.base address.toInt >>= _).map _).map _
      cases State.cell c.frame.base address.toInt <;> rfl
    | _ => rfl
  change c.state.read (some o) >>= _ = (c.state.read (some o) >>= _).map _
  cases c.state.read (some o) with
  | error e => rfl
  | ok w => exact hput (v.add w)

end Calls

namespace Edit

variable {e : Edit} {settings : Settings} {image image' : Image} {c c' d d' : Calls} {k : Nat}

/-- What a step of the edited code is for the code itself. -/
inductive Meets (e : Edit) (settings : Settings) (image image' : Image) (c c' : Calls) : Prop where
  | goes {k : Nat} {text : String} {d d' : Calls} :
      (∀ fuel out, c.run settings image (fuel + k + 1) out =
        d.run settings image fuel (out ++ text)) →
      (∀ fuel out, c'.run settings image' (fuel + 1) out =
        d'.run settings image' fuel (out ++ text)) →
      d.Orderly image → e.Matches d d' → Meets e settings image image' c c'
  | ends {k : Nat} {outcome : String → Option Outcome} :
      (∀ fuel out, c.run settings image (fuel + k + 1) out = some (outcome out)) →
      (∀ fuel out, c'.run settings image' (fuel + 1) out = some (outcome out)) →
      Meets e settings image image' c c'
  | overflows {k : Nat} :
      (∀ fuel out, c.run settings image (fuel + k + 1) out =
        some (some ⟨.error .stackPointerOverflow, out⟩)) →
      Meets e settings image image' c c'

theorem Agree.meets (h : e.Agree (d.next settings image) (c'.next settings image'))
    (himage : image.Plain) (ho : d.Orderly image)
    (hrun : ∀ fuel out, c.run settings image (fuel + k + 1) out =
      d.run settings image (fuel + 1) out) :
    e.Meets settings image image' c c' := by
  generalize hn : d.next settings image = x at h
  generalize hn' : c'.next settings image' = y at h
  cases h with
  | next hm =>
    exact .goes (fun fuel out => (hrun fuel out).trans (Calls.run_next hn fuel out))
      (Calls.run_next hn') (ho.next himage hn) hm
  | halted =>
    exact .ends (fun fuel out => (hrun fuel out).trans (Calls.run_halted hn fuel out))
      (Calls.run_halted hn')
  | mixed =>
    exact .ends (fun fuel out => (hrun fuel out).trans (Calls.run_mixed hn fuel out))
      (Calls.run_mixed hn')
  | error =>
    exact .ends (fun fuel out => (hrun fuel out).trans (Calls.run_error hn fuel out))
      (Calls.run_error hn')

structure AtStart (e : Edit) (c : Calls) : Prop where
  routine : c.frame.routine = e.old.routine
  position : c.frame.position = e.before.length

namespace AtStart

variable (h : e.AtStart c)

include h

theorem instruction? (hd : d.frame.routine = c.frame.routine)
    (hp : d.frame.position = c.frame.position + k) {i : Instruction}
    (hi : e.window[k]? = some i) : d.instruction? = some i := by
  obtain ⟨hk, -⟩ := List.getElem?_eq_some_iff.1 hi
  rw [Calls.instruction?, Frame.instruction?, hd, hp, h.routine, h.position, Block.routine,
    Routine.ofBody_code, List.getElem?_toArray, old, List.append_assoc,
    List.getElem?_append_right (by omega), Nat.add_sub_cancel_left,
    List.getElem?_append_left hk, hi]

theorem ahead : c.frame.ahead = e.window ++ e.after := by
  rw [Frame.ahead, h.routine, h.position, Block.routine, Routine.ofBody_code, old,
    List.append_assoc, List.drop_left]

theorem ahead_goto (hd : d.frame.routine = c.frame.routine) :
    (d.goto (c.frame.position + e.window.length)).frame.ahead = e.after := by
  change d.frame.routine.code.toList.drop (c.frame.position + e.window.length) = _
  rw [hd, h.routine, h.position, Block.routine, Routine.ofBody_code, old, ← List.length_append,
    List.drop_left]

theorem instead (hf : c'.frame = e.frame c.frame) : c'.instruction? = some e.instead := by
  have hname : c.frame.routine.name = e.name := by
    rw [h.routine, Block.routine, Routine.ofBody_name]
    rfl
  have hplace : e.place e.before.length = e.before.length := place_of_le (Nat.le_refl _)
  rw [Calls.instruction?, hf, frame, Edit.routine, placeIn, if_pos hname, if_pos hname, h.position,
    hplace, Frame.instruction?]
  simp [Block.routine, new]

end AtStart

theorem Near.matches_end {dead : Register → Prop} (h : e.Near dead d d') (he : e.Sound)
    (hs : e.AtStart c) (hd : d.frame = c.frame) (hdead : ∀ r, dead r → isDead r e.after = true) :
    e.Matches (d.goto (c.frame.position + e.window.length)) d'.advance where
  near := by
    have hname : d.frame.routine.name = e.name := by
      rw [hd, hs.routine, Block.routine, Routine.ofBody_name]
      rfl
    have hplace : e.placeIn d.frame.routine (c.frame.position + e.window.length) =
        d'.frame.position + 1 := by
      rw [h.frame_eq, frame, placeIn, placeIn, if_pos hname, if_pos hname, hd, hs.position,
        he.place_end, place_of_le (Nat.le_refl _)]
    have hgoto := h.goto (c.frame.position + e.window.length)
    rw [hplace] at hgoto
    refine hgoto.mono fun r hr => ?_
    rw [hs.ahead_goto (congrArg Frame.routine hd)]
    exact hdead r hr
  outside := fun _ => .inr (Nat.add_le_add_right (Nat.le_of_eq hs.position.symm) _)

theorem Near.set_left {dead : Register → Prop} (h : e.Near dead c c') (r : Register) (v : Value) :
    e.Near (fun q => dead q ∨ q = r) (c.set r v) c' where
  eq := by
    rw [h.eq]
    rfl
  get q := by
    by_cases hq : q = r
    · exact .inl (.inr hq)
    · rw [Calls.get_set_other c v (Ne.symm hq)]
      exact (h.get q).imp_left .inl

theorem Near.addTo {dead : Register → Prop} (h : e.Near dead c c') {o : Operand}
    (hp : Operand.Plain (some o)) (ho : ∀ r, some o = some (.reg r) → ¬ dead r) (v : Value) :
    Concur (e.Near dead) (c.addTo v o) (c'.addTo v o) := by
  unfold Calls.addTo
  rw [h.read hp ho]
  cases c.state.read (some o) with
  | error e => exact .error e
  | ok w =>
    have hput := h.put (some o) (v.add w)
    change Concur _ (c.put (some o) (v.add w)) (c'.put (some o) (v.add w))
    generalize c.put (some o) (v.add w) = x at hput
    generalize c'.put (some o) (v.add w) = y at hput
    cases hput with
    | error => exact .error _
    | ok hnear => exact .ok (hnear.mono fun q hq => hq.1)

section Unmove

variable {a b : Operand}

theorem AtStart.isDead_unmove (hs : e.AtStart c) (hw : e.window = [.mov a b, .mov b a])
    {r : Register} (hr : isDead r c.frame.ahead = true) :
    some a ≠ some (.reg r) ∧ (some b = some (.reg r) ∨ isDead r e.after = true) := by
  rw [hs.ahead, hw] at hr
  obtain ⟨hsrc, hr⟩ := isDead_mov rfl hr
  exact ⟨hsrc, hr.imp_right fun hr => (isDead_mov rfl hr).2.resolve_left hsrc⟩

theorem AtStart.next_unmove (hs : e.AtStart c) (he : e.Sound) (ha : a.isWritable = true)
    (hw : e.window = [.mov a b, .mov b a]) {v : Value} (hr : c.state.read (some a) = .ok v)
    (hput : c.put (some b) v = .ok d) :
    d.advance.next settings image = .ok (.next "" d.advance.advance) := by
  have hplain : (Instruction.mov a b).Plain := he.plain_of_window (by simp [hw])
  have hframe : d.advance.frame = c.advance.frame := by
    rw [Calls.advance, Calls.goto, (Calls.put_eq_ok hput).1]
    rfl
  refine Calls.next_mov_back ha hplain.dst hr hput ?_
  exact hs.instruction? (k := 1) (congrArg Frame.routine hframe :) (congrArg Frame.position hframe :)
    (by rw [hw]; rfl)

theorem Matches.meets_unmove (h : e.Matches c c') (he : e.Sound) (himage : image.Plain)
    (ho : c.Orderly image) (hs : e.AtStart c) (ha : a.isWritable = true)
    (hw : e.window = [.mov a b, .mov b a]) (hi : e.instead = .mov a b) :
    e.Meets settings image image' c c' := by
  have hplain : (Instruction.mov a b).Plain := he.plain_of_window (by simp [hw])
  have hfirst : c.instruction? = some (.mov a b) :=
    hs.instruction? (k := 0) rfl rfl (by rw [hw]; rfl)
  have hinstead : c'.instruction? = some (.mov a b) := by
    rw [hs.instead h.near.frame_eq, hi]
  have hread : c'.state.read (some a) = c.state.read (some a) :=
    h.near.read hplain.src fun r hr hd => (hs.isDead_unmove hw hd).1 hr
  have hmove : c.next settings image = c.state.read (some a) >>= fun v =>
      c.put (some b) v >>= fun d => .ok (.next "" d.advance) := by
    rw [Calls.next_eq_follow hfirst]
    rfl
  have hmove' : c'.next settings image' = c'.state.read (some a) >>= fun v =>
      c'.put (some b) v >>= fun d => .ok (.next "" d.advance) := by
    rw [Calls.next_eq_follow hinstead]
    rfl
  rw [hread] at hmove'
  cases hr : c.state.read (some a) with
  | error error =>
    rw [hr] at hmove hmove'
    exact .ends (k := 0) (Calls.run_error hmove) (Calls.run_error hmove')
  | ok v =>
    rw [hr] at hmove hmove'
    change c.next settings image = c.put (some b) v >>= _ at hmove
    change c'.next settings image' = c'.put (some b) v >>= _ at hmove'
    have hput := h.near.put (some b) v
    generalize hd : c.put (some b) v = x at hput hmove
    generalize c'.put (some b) v = y at hput hmove'
    cases hput with
    | error => exact .ends (k := 0) (Calls.run_error hmove) (Calls.run_error hmove')
    | @ok d d' hnear =>
      have hframe : d.frame = c.frame := (Calls.put_eq_ok hd).1
      have hback : d.advance.next settings image = .ok (.next "" d.advance.advance) :=
        hs.next_unmove he ha hw hr hd
      have hend := hnear.matches_end he hs hframe fun r hr =>
        (hs.isDead_unmove hw hr.1).2.resolve_left hr.2
      rw [hw, ← hframe] at hend
      refine .goes (k := 1) (fun fuel out => ?_) (Calls.run_next hmove')
        ((ho.next himage hmove).next himage hback) hend
      rw [Calls.run_next hmove, Calls.run_next hback, String.append_empty]

end Unmove

section Fuse

variable {x y : Operand} {r : Register}
  (hw : e.window = [.push x, .pop (.reg r), ⟨.arith .add, some (.reg r), some y⟩])

include hw

theorem AtStart.isDead_fuse (hs : e.AtStart c) {q : Register}
    (hq : isDead q c.frame.ahead = true) :
    some x ≠ some (.reg q) ∧ (r = q ∨ some y ≠ some (.reg q) ∧ isDead q e.after = true) := by
  rw [hs.ahead, hw] at hq
  obtain ⟨hsrc, hq⟩ := isDead_push rfl hq
  refine ⟨hsrc, (isDead_pop rfl hq).imp (fun hr => ?_) fun hq => (isDead_arith rfl hq).2⟩
  exact Operand.reg.inj (Option.some.inj hr)

theorem AtStart.next_fuse_pop (hs : e.AtStart c) (v : Value) :
    (c.push v).advance.next settings image =
      .ok (.next "" ((c.set r v).goto (c.frame.position + 2))) := by
  have hi : (c.push v).advance.instruction? = some (.pop (.reg r)) :=
    hs.instruction? (d := (c.push v).advance) (k := 1) rfl rfl (by rw [hw]; rfl)
  exact Calls.next_pop hi

theorem AtStart.next_fuse_add (hs : e.AtStart c) (v : Value) :
    ((c.set r v).goto (c.frame.position + 2)).next settings image =
      (c.set r v).addTo v y >>= fun d => .ok (.next "" (d.goto (c.frame.position + 3))) := by
  have hi : ((c.set r v).goto (c.frame.position + 2)).instruction? =
      some ⟨.arith .add, some (.reg r), some y⟩ :=
    hs.instruction? (d := (c.set r v).goto (c.frame.position + 2)) (k := 2) rfl rfl
      (by rw [hw]; rfl)
  rw [Calls.next_add hi]
  change Calls.addTo _ ((c.set r v).get r) y >>= _ = _
  rw [Calls.get_set_same, Calls.addTo_goto]
  cases (c.set r v).addTo v y <;> rfl

/-- The sum does not depend on the register that the value has gone through. -/
theorem Matches.agree_fuse (h : e.Matches c c') (he : e.Sound) (hs : e.AtStart c)
    (hy : y ≠ .reg r) (hlast : isDead r e.after = true) (v : Value) :
    e.Agree ((c.set r v).addTo v y >>= fun d => .ok (.next "" (d.goto (c.frame.position + 3))))
      (c'.addTo v y >>= fun d => .ok (.next "" d.advance)) := by
  have hadd : (⟨.arith .add, some (.reg r), some y⟩ : Instruction).Plain :=
    he.plain_of_window (by simp [hw])
  have hsame := (h.near.set_left r v).addTo hadd.dst (fun q hq hd => ?_) v
  · generalize hd : (c.set r v).addTo v y = s at hsame
    generalize c'.addTo v y = t at hsame
    cases hsame with
    | error => exact .error
    | @ok d d' hnear =>
      have hframe : d.frame = c.frame := Calls.frame_of_addTo (c := c.set r v) hd
      have hend := hnear.matches_end he hs hframe fun q hq => ?_
      · rw [hw] at hend
        exact .next hend
      · rcases hq with hq | rfl
        · rcases (hs.isDead_fuse hw hq).2 with rfl | hq
          · exact hlast
          · exact hq.2
        · exact hlast
  · have hne : r ≠ q := fun he => hy (by rw [Option.some.inj hq, he])
    rcases hd with hd | rfl
    · exact ((hs.isDead_fuse hw hd).2.resolve_left hne).1 hq
    · exact hne rfl

theorem Matches.meets_fuse (h : e.Matches c c') (he : e.Sound) (himage : image.Plain)
    (ho : c.Orderly image) (hs : e.AtStart c) (hi : e.instead = ⟨.arith .add, some x, some y⟩)
    (hy : y ≠ .reg r) (hlast : isDead r e.after = true) : e.Meets settings image image' c c' := by
  have hplain : (Instruction.push x).Plain := he.plain_of_window (by simp [hw])
  have hfirst : c.instruction? = some (.push x) :=
    hs.instruction? (k := 0) rfl rfl (by rw [hw]; rfl)
  have hinstead : c'.instruction? = some ⟨.arith .add, some x, some y⟩ := by
    rw [hs.instead h.near.frame_eq, hi]
  have hread : c'.state.read (some x) = c.state.read (some x) :=
    h.near.read hplain.src fun q hq hd => (hs.isDead_fuse hw hd).1 hq
  have hpush : c.next settings image = c.state.read (some x) >>= fun v =>
      c.save v >>= fun d => .ok (.next "" d.advance) := by
    rw [Calls.next_eq_follow hfirst]
    rfl
  have hsum : c'.next settings image' = c'.state.read (some x) >>= fun v =>
      c'.addTo v y >>= fun d => .ok (.next "" d.advance) := Calls.next_add hinstead
  rw [hread] at hsum
  cases hr : c.state.read (some x) with
  | error error =>
    rw [hr] at hpush hsum
    exact .ends (k := 0) (Calls.run_error hpush) (Calls.run_error hsum)
  | ok v =>
    rw [hr] at hpush hsum
    change c.next settings image = c.save v >>= _ at hpush
    change c'.next settings image' = c'.addTo v y >>= _ at hsum
    by_cases hroom : c.height + 1 < 2 ^ 63
    · rw [Calls.save, if_pos hroom] at hpush
      have hpop : (c.push v).advance.next settings image = _ := hs.next_fuse_pop hw v
      refine Agree.meets (k := 2) ?_ himage ((ho.next himage hpush).next himage hpop)
        fun fuel out => ?_
      · rw [hs.next_fuse_add hw, hsum]
        exact h.agree_fuse hw he hs hy hlast v
      · rw [Calls.run_next hpush, Calls.run_next hpop, String.append_empty, String.append_empty]
    · rw [Calls.save, if_neg hroom] at hpush
      exact .overflows (k := 0) (Calls.run_error hpush)

end Fuse

/-- A step of the edited code is one of the code itself, or the steps of the stretch. -/
theorem Matches.meets (h : e.Matches c c') (he : e.Sound) (hrel : e.Relates image image')
    (himage : image.Plain) (ho : c.Orderly image) : e.Meets settings image image' c c' := by
  rcases h.outside.start_or_apartIn with ⟨hname, hposition⟩ | ha
  · have hs : e.AtStart c := ⟨hrel.old ho.found hname, hposition⟩
    rcases he.cases with ⟨a, b, ha, -, hw, hi⟩ | ⟨x, r, y, hw, hi, hy, hlast⟩
    · exact h.meets_unmove he himage ho hs ha hw hi
    · exact h.meets_fuse hw he himage ho hs hi hy hlast
  · exact Agree.meets (k := 0) (h.agree he hrel himage ho ha) himage ho fun _ _ => rfl

end Edit

end BlueCode
