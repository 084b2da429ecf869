import BlueCode.Proofs.Rewriting

namespace BlueCode

namespace Peephole

/-- A place of the code: the instructions behind it, the nearest first, and those ahead. -/
structure Place where
  behind : List Instruction
  ahead : List Instruction

namespace Place

def code (p : Place) : List Instruction :=
  p.behind.reverse ++ p.ahead

/-- The place before. At the start of the code there is none, and the pass stays. -/
def back : Place → Place
  | ⟨[], ahead⟩ => ⟨[], ahead⟩
  | ⟨last :: earlier, ahead⟩ => ⟨earlier, last :: ahead⟩

@[simp] theorem code_back (p : Place) : p.back.code = p.code := by
  obtain ⟨behind, ahead⟩ := p
  cases behind with
  | nil => rfl
  | cons last earlier => simp [back, code]

end Place

/-- What the pass does at a place where two instructions or more are ahead. -/
inductive Step : Place → Place → Prop where
  | advance {behind rest : List Instruction} {first second : Instruction} :
      isReversedMove first second = false → fuse? (first :: second :: rest) = none →
      Step ⟨behind, first :: second :: rest⟩ ⟨first :: behind, second :: rest⟩
  | rewrite {behind window after : List Instruction} {i : Instruction} :
      Shortens after window i → Step ⟨behind, window ++ after⟩ (Place.back ⟨behind, i :: after⟩)

variable {p q : Place} {code : List Instruction}

theorem isReversedMove_of_fuse? {first second fused : Instruction} {rest : List Instruction}
    (h : fuse? (first :: second :: rest) = some fused) : isReversedMove first second = false := by
  apply Bool.eq_false_iff.2
  intro hr
  have hnone : fuse? (first :: second :: rest) = none := by
    apply fuse?_eq_none
    intro hpush
    rw [(isReversedMove_op hr).1] at hpush
    cases hpush
  rw [hnone] at h
  cases h

theorem Step.run_eq (h : Step p q) :
    Peephole.run p.behind p.ahead = Peephole.run q.behind q.ahead := by
  cases h with
  | advance hr hf =>
    rw [Peephole.run, hr, hf]
    rfl
  | @rewrite behind _ after _ hs =>
    cases hs with
    | unmove hr =>
      rw [List.cons_append, List.singleton_append, Peephole.run, if_pos hr]
      cases behind <;> rfl
    | fuse hf =>
      have hr := isReversedMove_of_fuse? hf
      simp only [List.cons_append, List.nil_append]
      rw [Peephole.run, hr, hf]
      cases behind <;> rfl

/-- What is ahead counts twice, so that a step decreases the sum. -/
def Place.size (p : Place) : Nat :=
  p.behind.length + 2 * p.ahead.length

theorem Place.size_back_le (p : Place) : p.back.size ≤ p.size + 1 := by
  obtain ⟨behind, ahead⟩ := p
  cases behind with
  | nil => exact Nat.le_succ _
  | cons last earlier =>
    simp only [back, size, List.length_cons]
    omega

theorem Shortens.two_le_length {after window : List Instruction} {i : Instruction}
    (h : Shortens after window i) : 2 ≤ window.length := by
  cases h <;> simp

theorem Step.size_lt (h : Step p q) : q.size < p.size := by
  cases h with
  | advance =>
    simp only [Place.size, List.length_cons]
    omega
  | @rewrite behind window after i hs =>
    have hback := Place.size_back_le ⟨behind, i :: after⟩
    have hlength := hs.two_le_length
    simp only [Place.size, List.length_cons, List.length_append] at hback ⊢
    omega

theorem exists_step {behind rest : List Instruction} {first second : Instruction} :
    ∃ q, Step ⟨behind, first :: second :: rest⟩ q := by
  cases hr : isReversedMove first second with
  | true => exact ⟨_, @Step.rewrite behind [first, second] rest _ (.unmove hr)⟩
  | false =>
    cases hf : fuse? (first :: second :: rest) with
    | none => exact ⟨_, .advance hr hf⟩
    | some fused =>
      cases rest with
      | nil => cases hf
      | cons third after => exact ⟨_, @Step.rewrite behind [first, second, third] after _ (.fuse hf)⟩

theorem exists_last (p : Place) : ∃ last, Relation.ReflTransGen Step p last ∧
    last.ahead.length ≤ 1 ∧ Peephole.run p.behind p.ahead = last.code := by
  -- A rewrite makes the code shorter, and else less is ahead.
  induction hn : p.size using Nat.strong_induction_on generalizing p with
  | _ n ih =>
    subst hn
    obtain ⟨behind, ahead⟩ := p
    match ahead with
    | [] => exact ⟨⟨behind, []⟩, .refl, Nat.zero_le 1, by simp [Peephole.run, Place.code]⟩
    | [i] => exact ⟨⟨behind, [i]⟩, .refl, Nat.le_refl 1, by simp [Peephole.run, Place.code]⟩
    | first :: second :: rest =>
      obtain ⟨q, hq⟩ := @exists_step behind rest first second
      obtain ⟨last, hlast, hend, hrun⟩ := ih q.size hq.size_lt q rfl
      exact ⟨last, .head hq hlast, hend, hq.run_eq.trans hrun⟩

theorem exists_last_optimize (code : List Instruction) :
    ∃ last, Relation.ReflTransGen Step ⟨[], code⟩ last ∧ last.ahead.length ≤ 1 ∧
      optimize code = last.code :=
  exists_last ⟨[], code⟩

theorem Shortens.rewrite_code {behind window after : List Instruction} {i : Instruction}
    (h : Shortens after window i) :
    Rewrite (Place.code ⟨behind, window ++ after⟩) (Place.code (Place.back ⟨behind, i :: after⟩)) := by
  rw [Place.code_back]
  simpa [Place.code] using Rewrite.mk behind.reverse h

theorem Step.code_eq_or_rewrite (h : Step p q) : q.code = p.code ∨ Rewrite p.code q.code := by
  cases h with
  | advance => exact .inl (by simp [Place.code])
  | rewrite hs => exact .inr hs.rewrite_code

theorem rewrites_of_steps (h : Relation.ReflTransGen Step p q) :
    Relation.ReflTransGen Rewrite p.code q.code := by
  induction h with
  | refl => exact .refl
  | tail _ hstep ih =>
    rcases hstep.code_eq_or_rewrite with hcode | hrewrite
    · rw [hcode]
      exact ih
    · exact ih.tail hrewrite

/-- No move behind the place is followed by its reverse. -/
def Place.Settled (p : Place) : Prop :=
  (p.ahead.take 1 ++ p.behind).IsChain fun second first => isReversedMove first second = false

theorem Step.settled (h : Step p q) (hp : p.Settled) : q.Settled := by
  cases h with
  | advance hr => exact List.isChain_cons_cons.2 ⟨hr, hp⟩
  | @rewrite behind window after i hs =>
    have hbehind := hp.right_of_append
    cases behind with
    | nil => exact List.isChain_singleton i
    | cons last earlier => exact hbehind

theorem settled_of_steps (h : Relation.ReflTransGen Step p q) (hp : p.Settled) : q.Settled := by
  induction h with
  | refl => exact hp
  | tail _ hstep ih => exact hstep.settled ih

theorem reverse_of_length_le_one {l : List Instruction} (h : l.length ≤ 1) : l.reverse = l := by
  cases l with
  | nil => rfl
  | cons i rest =>
    cases rest with
    | nil => rfl
    | cons j rest => exact absurd (Nat.le_of_succ_le_succ h) (Nat.not_succ_le_zero _)

/-- The pass leaves no move that is followed by its reverse. -/
theorem isChain_optimize (code : List Instruction) :
    (optimize code).IsChain fun first second => isReversedMove first second = false := by
  obtain ⟨⟨behind, ahead⟩, hsteps, hend, hcode⟩ := exists_last_optimize code
  have hstart : Place.Settled ⟨[], code⟩ := by
    cases code with
    | nil => exact .nil
    | cons i rest => exact List.isChain_singleton i
  have hlast := settled_of_steps hsteps hstart
  rw [Place.Settled, List.take_of_length_le hend] at hlast
  have hreverse := reverse_of_length_le_one hend
  have hall : (ahead ++ behind).reverse = Place.code ⟨behind, ahead⟩ := by
    rw [List.reverse_append, hreverse, Place.code]
  rw [hcode, ← hall]
  exact List.isChain_reverse.2 hlast

end Peephole

end BlueCode
