import BlueCode.Proofs.PeepholeFixpoint

namespace BlueCode

namespace Peephole

variable {p q : Place} {rest : List Instruction}

theorem fuse?_eq_none_of_isBoundary {i : Instruction} {code : List Instruction}
    (hi : i ∈ code.take 3) (hop : i.op.isBoundary = true) : fuse? code = none := by
  apply Option.eq_none_iff_forall_ne_some.2
  intro fused hf
  obtain ⟨push, pop, add, after, rfl, hpush, hpop, hadd⟩ := exists_of_fuse? hf
  simp only [List.take_succ_cons, List.take_zero, List.mem_cons, List.not_mem_nil, or_false] at hi
  rcases hi with rfl | rfl | rfl
  · rw [hpush] at hop
    cases hop
  · rw [hpop] at hop
    cases hop
  · rw [hadd] at hop
    cases hop

theorem fuse?_append (h : BeginsBlock rest) (code : List Instruction) :
    fuse? (code ++ rest) = fuse? code := by
  cases rest with
  | nil => rw [List.append_nil]
  | cons i rest =>
    match code with
    | push :: pop :: add :: after => simp only [List.cons_append, fuse?, isDead_append h]
    | [] | [_] | [_, _] => exact fuse?_eq_none_of_isBoundary (i := i) (by simp) (h i rfl)

theorem Shortens.append {window after : List Instruction} {i : Instruction}
    (h : Shortens after window i) (hr : BeginsBlock rest) : Shortens (after ++ rest) window i := by
  cases h with
  | unmove hr => exact .unmove hr
  | @fuse push pop add _ hf => exact .fuse ((fuse?_append hr (push :: pop :: add :: after)).trans hf)

namespace Place

def append (p : Place) (rest : List Instruction) : Place :=
  ⟨p.behind, p.ahead ++ rest⟩

def prepend (before : List Instruction) (p : Place) : Place :=
  ⟨p.behind ++ before, p.ahead⟩

theorem back_append (p : Place) (rest : List Instruction) :
    (p.append rest).back = p.back.append rest := by
  obtain ⟨behind, ahead⟩ := p
  cases behind <;> rfl

theorem back_prepend (before : List Instruction) (h : p.behind ≠ []) :
    (p.prepend before).back = p.back.prepend before := by
  obtain ⟨behind, ahead⟩ := p
  cases behind with
  | nil => exact absurd rfl h
  | cons last earlier => rfl

end Place

theorem Step.append (h : Step p q) (hr : BeginsBlock rest) :
    Step (p.append rest) (q.append rest) := by
  cases h with
  | @advance behind after first second hmove hfuse =>
    exact .advance hmove ((fuse?_append hr (first :: second :: after)).trans hfuse)
  | @rewrite behind window after i hs =>
    rw [← Place.back_append, Place.append, Place.append, List.append_assoc]
    exact .rewrite (hs.append hr)

theorem steps_append (h : Relation.ReflTransGen Step p q) (hr : BeginsBlock rest) :
    Relation.ReflTransGen Step (p.append rest) (q.append rest) :=
  h.lift (·.append rest) fun _ _ hstep => hstep.append hr

/-- In a block nothing is rewritten at its start, so that the pass would go back further. -/
theorem Shortens.behind_ne_nil {behind window after : List Instruction} {i : Instruction}
    (hs : Shortens after window i) (hp : BeginsBlock (Place.code ⟨behind, window ++ after⟩)) :
    behind ≠ [] := by
  rintro rfl
  obtain ⟨first, others, hwindow⟩ := List.exists_cons_of_ne_nil hs.ne_nil
  have hcode : window ++ after = first :: (others ++ after) := by rw [hwindow, List.cons_append]
  have hop := hp first (by simp [Place.code, hcode])
  rcases hs.op_head hcode with hfirst | hfirst <;> rw [hfirst] at hop <;> cases hop

theorem Step.prepend (h : Step p q) (hp : BeginsBlock p.code) (before : List Instruction) :
    Step (p.prepend before) (q.prepend before) ∧ BeginsBlock q.code := by
  cases h with
  | advance hmove hfuse => exact ⟨.advance hmove hfuse, by simpa [Place.code] using hp⟩
  | @rewrite behind window after i hs =>
    have hne := hs.behind_ne_nil hp
    rw [← Place.back_prepend before hne, Place.code_back]
    have hhead : (Place.code ⟨behind, i :: after⟩).head? =
        (Place.code ⟨behind, window ++ after⟩).head? := by
      rw [Place.code, Place.code, List.head?_append_of_ne_nil _ (by simpa using hne),
        List.head?_append_of_ne_nil _ (by simpa using hne)]
    refine ⟨.rewrite hs, ?_⟩
    rw [BeginsBlock, hhead]
    exact hp

theorem steps_prepend (h : Relation.ReflTransGen Step p q) (hp : BeginsBlock p.code)
    (before : List Instruction) :
    Relation.ReflTransGen Step (p.prepend before) (q.prepend before) := by
  have hsteps : Relation.ReflTransGen Step (p.prepend before) (q.prepend before) ∧
      BeginsBlock q.code := by
    induction h with
    | refl => exact ⟨.refl, hp⟩
    | tail _ hstep ih =>
      obtain ⟨hnext, hblock⟩ := hstep.prepend ih.2 before
      exact ⟨ih.1.tail hnext, hblock⟩
  exact hsteps.1

theorem run_eq_of_steps (h : Relation.ReflTransGen Step p q) :
    Peephole.run p.behind p.ahead = Peephole.run q.behind q.ahead := by
  induction h with
  | refl => rfl
  | tail _ hstep ih => exact ih.trans hstep.run_eq

theorem eq_nil_or_singleton {ahead : List Instruction} (h : ahead.length ≤ 1) :
    ahead = [] ∨ ∃ last, ahead = [last] :=
  (Nat.le_one_iff_eq_zero_or_eq_one.1 h).imp List.length_eq_zero_iff.1 List.length_eq_one_iff.1

theorem run_eq_of_length_le_one (h : p.ahead.length ≤ 1) :
    Peephole.run p.behind p.ahead = p.code := by
  obtain ⟨behind, ahead⟩ := p
  rcases eq_nil_or_singleton h with rfl | ⟨last, rfl⟩ <;> simp [Peephole.run, Place.code]

theorem run_append (h : p.ahead.length ≤ 1) (hr : BeginsBlock rest) :
    Peephole.run p.behind (p.ahead ++ rest) = Peephole.run p.code.reverse rest := by
  obtain ⟨behind, ahead⟩ := p
  rcases eq_nil_or_singleton h with rfl | ⟨last, rfl⟩
  · simp [Place.code]
  · have hcode : Place.code ⟨behind, [last]⟩ = (last :: behind).reverse := by simp [Place.code]
    rw [hcode, List.reverse_reverse]
    -- No window reaches from the last instruction of the block into the next one.
    cases rest with
    | nil => simp [Peephole.run]
    | cons i rest =>
      have hmove : isReversedMove last i = false := by
        apply Bool.eq_false_iff.2
        intro hmove
        have hop := hr i rfl
        rw [(isReversedMove_op hmove).2] at hop
        cases hop
      exact Step.run_eq (.advance hmove (fuse?_append hr [last]))

/-- In a block the pass goes on as if nothing stood before the block. -/
theorem run_eq_append_optimize (before : List Instruction) (hr : BeginsBlock rest) :
    Peephole.run before rest = before.reverse ++ optimize rest := by
  obtain ⟨last, hsteps, hend, hcode⟩ := exists_last_optimize rest
  have hprepend := run_eq_of_steps (steps_prepend hsteps (by simpa [Place.code] using hr) before)
  calc
    Peephole.run before rest
    _ = Peephole.run (last.behind ++ before) last.ahead := hprepend
    _ = (last.behind ++ before).reverse ++ last.ahead :=
      run_eq_of_length_le_one (p := last.prepend before) hend
    _ = before.reverse ++ optimize rest := by simp [hcode, Place.code]

theorem optimize_append {code : List Instruction} (hr : BeginsBlock rest) :
    optimize (code ++ rest) = optimize code ++ optimize rest := by
  obtain ⟨last, hsteps, hend, hcode⟩ := exists_last_optimize code
  calc
    optimize (code ++ rest)
    _ = Peephole.run last.behind (last.ahead ++ rest) := run_eq_of_steps (steps_append hsteps hr)
    _ = Peephole.run last.code.reverse rest := run_append hend hr
    _ = optimize code ++ optimize rest := by
      rw [run_eq_append_optimize _ hr, List.reverse_reverse, hcode]

theorem length_optimize_le (code : List Instruction) : (optimize code).length ≤ code.length :=
  length_le_of_rewrites (rewrites_optimize code)

/-- The pass makes of two blocks what it makes of each of them, and removes as many instructions as
it removes from each. -/
theorem optimize_append_block {code rest : List Instruction} (hr : BeginsBlock rest) :
    optimize (code ++ rest) = optimize code ++ optimize rest ∧
      (code ++ rest).length - (optimize (code ++ rest)).length =
        (code.length - (optimize code).length) + (rest.length - (optimize rest).length) := by
  have happend := @optimize_append rest code hr
  refine ⟨happend, ?_⟩
  have hcode := length_optimize_le code
  have hrest := length_optimize_le rest
  rw [happend, List.length_append, List.length_append]
  omega

def stored : List Instruction :=
  [.push (.int 7), .pop (.reg .rb), ⟨.arith .add, some (.reg .rb), some (.reg .ra)⟩,
    .mov (.int 0) (.reg .rb), .mov (.reg .ra) (.heap 0)]

/-- A block that begins with the reverse of the move before it. -/
def reloaded : List Instruction :=
  [.label "PT_0", .mov (.heap 0) (.reg .ra), .mov (.reg .ra) (.heap 0), .mov (.reg .ra) (.heap 0)]

theorem optimize_append_block_reloaded :
    BeginsBlock reloaded ∧ optimize (stored ++ reloaded) = optimize stored ++ optimize reloaded ∧
      (stored ++ reloaded).length - (optimize (stored ++ reloaded)).length =
        (stored.length - (optimize stored).length) +
          (reloaded.length - (optimize reloaded).length) := by
  have hr : BeginsBlock reloaded := by
    rintro i ⟨⟩
    rfl
  exact ⟨hr, optimize_append_block hr⟩

end Peephole

end BlueCode
