import BlueCode.Proofs.PeepholeSteps

namespace BlueCode

namespace Peephole

/-- What the three instructions have to be for the sum to take the operand that is pushed instead of
the register that it is popped into. -/
structure Fuses (push pop add : Instruction) (source : Operand) (r : Register) : Prop where
  push_op : push.op = .push
  pop_op : pop.op = .pop
  add_op : add.op = .arith .add
  push_src : push.src = some source
  pop_dst : pop.dst = some (.reg r)
  add_src : add.src = some (.reg r)
  add_dst : add.dst ≠ some (.reg r)
  source_ne : source ≠ .stackTop

theorem fuse?_eq_some_iff {push pop add fused : Instruction} {rest : List Instruction} :
    fuse? (push :: pop :: add :: rest) = some fused ↔
      ∃ source r, Fuses push pop add source r ∧ isDead r rest = true ∧
        fused = { add with src := some source } := by
  constructor
  · intro h
    rw [fuse?] at h
    split at h
    · next source r hsrc hdst =>
      split at h
      · next hc =>
        obtain ⟨hpush, hpop, hadd, hsrc', hdst', hne, hdead⟩ := hc
        cases h
        exact ⟨source, r, ⟨hpush, hpop, hadd, hsrc, hdst, hsrc', hdst', hne⟩, hdead, rfl⟩
      · cases h
    · cases h
  · rintro ⟨source, r, h, hdead, rfl⟩
    simp only [fuse?, h.push_src, h.pop_dst]
    exact if_pos ⟨h.push_op, h.pop_op, h.add_op, h.add_src, h.add_dst, h.source_ne, hdead⟩

theorem exists_of_fuse? {code : List Instruction} {fused : Instruction}
    (h : fuse? code = some fused) :
    ∃ push pop add rest, code = push :: pop :: add :: rest ∧ push.op = .push ∧ pop.op = .pop ∧
      add.op = .arith .add := by
  match code, h with
  | push :: pop :: add :: rest, h =>
    obtain ⟨source, r, hf, -, -⟩ := fuse?_eq_some_iff.1 h
    exact ⟨push, pop, add, rest, rfl, hf.push_op, hf.pop_op, hf.add_op⟩

theorem same_eq_some_iff {o p : Option Operand} {a : Operand} (ha : ∀ x, a ≠ .float x)
    (h : same o p = true) : o = some a ↔ p = some a := by
  cases o with
  | none =>
    cases p with
    | none => exact Iff.rfl
    | some b => cases h
  | some b =>
    cases p with
    | none => cases h
    | some c =>
      cases b with
      | float x =>
        cases c with
        | float y => simp [(ha x).symm, (ha y).symm]
        | _ => cases h
      | _ => rw [of_decide_eq_true h]

theorem isDead_shortens {after window : List Instruction} {i : Instruction}
    (h : Shortens after window i) (r : Register) :
    isDead r (window ++ after) = isDead r (i :: after) := by
  cases h with
  | @unmove first second hr =>
    obtain ⟨hfirst, hsecond⟩ := isReversedMove_op hr
    simp only [isReversedMove, Bool.and_eq_true] at hr
    have hsrc := same_eq_some_iff (a := .reg r) (by simp) hr.1.2
    have hdst := same_eq_some_iff (a := .reg r) (by simp) hr.2
    simp only [List.cons_append, List.nil_append, isDead, hfirst, hsecond]
    split
    · rfl
    · next hs =>
      split
      · rfl
      · next hd => rw [if_neg (hdst.not.1 hd), if_neg (hsrc.not.1 hs)]
  | @fuse push pop add fused hw =>
    obtain ⟨source, s, hf, hdead, rfl⟩ := fuse?_eq_some_iff.1 hw
    simp only [List.cons_append, List.nil_append, isDead, hf.push_op, hf.pop_op, hf.add_op,
      hf.push_src, hf.pop_dst, hf.add_src]
    by_cases hsource : source = .reg r
    · simp [hsource]
    · by_cases hs : s = r
      · subst hs
        simp [hsource, hf.add_dst, hdead]
      · simp [hsource, hs]

theorem isDead_append_shortens {after window : List Instruction} {i : Instruction}
    (h : Shortens after window i) (r : Register) (before : List Instruction) :
    isDead r (before ++ (window ++ after)) = isDead r (before ++ i :: after) := by
  induction before with
  | nil => exact isDead_shortens h r
  | cons j before ih => simp only [List.cons_append, isDead, ih]

theorem fuse?_shortens {after window : List Instruction} {i : Instruction}
    (h : Shortens after window i) (first : Instruction) (nearer : List Instruction)
    (hn : 2 ≤ nearer.length) :
    fuse? (first :: (nearer ++ (window ++ after))) = fuse? (first :: (nearer ++ i :: after)) := by
  match nearer, hn with
  | second :: third :: more, _ =>
    simp only [List.cons_append, fuse?, isDead_append_shortens h]

/-- The code starts with a window right after another `push` and `pop`, and the sum that is left of
the window makes a window with these two. -/
inductive StartsRelay : List Instruction → Prop where
  | mk {push pop push' pop' add fused : Instruction} {after : List Instruction} :
      fuse? (push' :: pop' :: add :: after) = some fused →
      (fuse? (push :: pop :: fused :: after)).isSome →
      StartsRelay (push :: pop :: push' :: pop' :: add :: after)

def Relay (code : List Instruction) : Prop :=
  ∃ before stretch, code = before ++ stretch ∧ StartsRelay stretch

theorem StartsRelay.exists_windows {stretch : List Instruction} (h : StartsRelay stretch) :
    ∃ push pop push' pop' add fused after,
      stretch = push :: pop :: push' :: pop' :: add :: after ∧
      (push.op = .push ∧ pop.op = .pop ∧ push'.op = .push ∧ pop'.op = .pop) ∧
      fuse? (push' :: pop' :: add :: after) = some fused ∧
      (fuse? (push :: pop :: fused :: after)).isSome := by
  obtain ⟨hinner, houter⟩ := h
  obtain ⟨_, hfused⟩ := Option.isSome_iff_exists.1 houter
  obtain ⟨_, _, hi, -, -⟩ := fuse?_eq_some_iff.1 hinner
  obtain ⟨_, _, ho, -, -⟩ := fuse?_eq_some_iff.1 hfused
  exact ⟨_, _, _, _, _, _, _, rfl, ⟨ho.push_op, ho.pop_op, hi.push_op, hi.pop_op⟩, hinner, houter⟩

namespace Shortens

variable {after window : List Instruction} {i : Instruction}

theorem op_instead (h : Shortens after window i) : i.op = .mov ∨ i.op = .arith .add := by
  cases h with
  | unmove hr => exact .inl (isReversedMove_op hr).1
  | fuse hw =>
    obtain ⟨_, _, hf, -, rfl⟩ := fuse?_eq_some_iff.1 hw
    exact .inr hf.add_op

theorem op_head (h : Shortens after window i) {first : Instruction} {rest : List Instruction}
    (hw : window ++ after = first :: rest) : first.op = .mov ∨ first.op = .push := by
  cases h with
  | unmove hr =>
    cases hw
    exact .inl (isReversedMove_op hr).1
  | fuse hf =>
    cases hw
    obtain ⟨_, _, hf, -, -⟩ := fuse?_eq_some_iff.1 hf
    exact .inr hf.push_op

/-- A sum that completes a window when it takes its operand from a window was in a relay. -/
theorem startsRelay (h : Shortens after window i) {push pop : Instruction}
    (hf : (fuse? (push :: pop :: i :: after)).isSome) :
    StartsRelay (push :: pop :: (window ++ after)) := by
  cases h with
  | unmove hr =>
    obtain ⟨_, hf⟩ := Option.isSome_iff_exists.1 hf
    obtain ⟨_, _, hf, -, -⟩ := fuse?_eq_some_iff.1 hf
    exact absurd (hf.add_op.symm.trans (isReversedMove_op hr).1) nofun
  | fuse hw => exact .mk hw hf

/-- A stretch that the pass shortens does not reach into a relay that begins behind it. -/
theorem apart (h : Shortens after window i) {between stretch : List Instruction}
    (hs : StartsRelay stretch) (heq : window ++ after = between ++ stretch) :
    ∃ more, between = window ++ more ∧ after = more ++ stretch := by
  obtain ⟨_, _, _, _, _, _, _, rfl, ⟨hpush, -, hpush', -⟩, -, -⟩ := hs.exists_windows
  cases h with
  | @unmove first second hr =>
    obtain ⟨hfirst, hsecond⟩ := isReversedMove_op hr
    match between, heq with
    | [], heq => cases heq; rw [hpush] at hfirst; cases hfirst
    | [_], heq => cases heq; rw [hpush] at hsecond; cases hsecond
    | _ :: _ :: more, heq =>
      cases heq
      exact ⟨more, rfl, rfl⟩
  | fuse hw =>
    obtain ⟨_, _, hf, -, -⟩ := fuse?_eq_some_iff.1 hw
    match between, heq with
    | [], heq => cases heq; exact absurd (hpush'.symm.trans hf.add_op) nofun
    | [_], heq => cases heq; exact absurd (hpush.symm.trans hf.pop_op) nofun
    | [_, _], heq => cases heq; exact absurd (hpush.symm.trans hf.add_op) nofun
    | _ :: _ :: _ :: more, heq =>
      cases heq
      exact ⟨more, rfl, rfl⟩

end Shortens

theorem append_cons_eq_append {α : Type} {before after front tail : List α} {a : α}
    (h : before ++ a :: after = front ++ tail) :
    (∃ more, front = before ++ a :: more ∧ after = more ++ tail) ∨
      ∃ more, before = front ++ more ∧ tail = more ++ a :: after := by
  rcases List.append_eq_append_iff.1 h with ⟨more, hfront, htail⟩ | ⟨more, hbefore, htail⟩
  · cases more with
    | nil => exact .inr ⟨[], by simpa using hfront.symm, htail.symm⟩
    | cons b more =>
      obtain ⟨rfl, rfl⟩ := List.cons.inj htail
      exact .inl ⟨more, hfront, rfl⟩
  · exact .inr ⟨more, hbefore, htail⟩

/-- No rewrite makes a new relay. -/
theorem Relay.of_rewrite {code next : List Instruction} (h : Rewrite code next)
    (hr : Relay next) : Relay code := by
  obtain ⟨before, hs⟩ := h
  rename_i window after i
  obtain ⟨front, stretch, heq, hstretch⟩ := hr
  rcases append_cons_eq_append heq with ⟨more, rfl, rfl⟩ | ⟨more, rfl, hmore⟩
  · exact ⟨before ++ window ++ more, stretch, by simp, hstretch⟩
  · -- What is left of the window is neither a `push` nor a `pop`, so it is behind the first four.
    have hi {j : Instruction} (hj : j.op = .push ∨ j.op = .pop) : i ≠ j := by
      rintro rfl
      rcases hs.op_instead with hop | hop <;> rw [hop] at hj <;> simp at hj
    obtain ⟨push, pop, push', pop', add, fused, rest, rfl, ⟨hpush, hpop, hpush', hpop'⟩, hinner,
      houter⟩ := hstretch.exists_windows
    match more, hmore with
    | [], hmore => cases hmore; exact absurd rfl (hi (.inl hpush))
    | [_], hmore => cases hmore; exact absurd rfl (hi (.inr hpop))
    | [_, _], hmore => cases hmore; exact absurd rfl (hi (.inl hpush'))
    | [_, _, _], hmore => cases hmore; exact absurd rfl (hi (.inr hpop'))
    | [_, _, _, _], hmore =>
      cases hmore
      have hstarts := hs.startsRelay (by rw [hinner]; rfl)
      exact ⟨front ++ [push, pop], _, by simp, hstarts⟩
    | _ :: _ :: _ :: _ :: _ :: more, hmore =>
      cases hmore
      have hinner' := fuse?_shortens hs push' (pop' :: add :: more) (by simp)
      have houter' := fuse?_shortens hs push (pop :: fused :: more) (by simp)
      have hstarts := StartsRelay.mk (hinner'.trans hinner)
        ((congrArg Option.isSome houter').trans houter)
      exact ⟨front, _, by simp, hstarts⟩

variable {p q last : Place} {code next : List Instruction}

/-- Some window that begins behind the place can be fused. -/
def Place.Leaves (p : Place) : Prop :=
  ∃ nearer push earlier, p.behind = nearer ++ push :: earlier ∧
    (fuse? (push :: (nearer.reverse ++ p.ahead))).isSome

theorem Step.leaves (h : Step p q) (hp : p.Leaves) : q.Leaves := by
  obtain ⟨nearer, push, earlier, hbehind, hf⟩ := hp
  cases h with
  | @advance behind rest first second =>
    exact ⟨first :: nearer, push, earlier, congrArg (first :: ·) hbehind, by simpa using hf⟩
  | @rewrite behind window after i hs =>
    obtain ⟨_, hfused⟩ := Option.isSome_iff_exists.1 hf
    obtain ⟨_, pop, add, rest, heq, -, hpop, hadd⟩ := exists_of_fuse? hfused
    obtain ⟨rfl, hwindow⟩ := List.cons.inj heq
    -- Nothing that the pass shortens begins with the `pop` or with the sum of the window.
    match nearer, hbehind with
    | [], _ => rcases hs.op_head hwindow with h | h <;> rw [hpop] at h <;> cases h
    | [_], _ =>
      rcases hs.op_head (List.cons.inj hwindow).2 with h | h <;> rw [hadd] at h <;> cases h
    | last :: second :: more, hbehind =>
      cases hbehind
      have hsame := fuse?_shortens hs push (last :: second :: more).reverse (by simp)
      refine ⟨second :: more, push, earlier, rfl, ?_⟩
      simpa [Place.back] using (congrArg Option.isSome hsame).symm.trans hf

/-- A step goes past a window only where it rewrites the second of a relay. -/
theorem Step.leaves_or_relay (h : Step p q) (hq : q.Leaves) :
    p.Leaves ∨ Rewrite p.code q.code ∧ Relay p.code := by
  obtain ⟨nearer, push, earlier, hbehind, hf⟩ := hq
  cases h with
  | @advance behind rest first second _ hnone =>
    cases nearer with
    | nil =>
      cases hbehind
      rw [List.reverse_nil, List.nil_append, hnone] at hf
      cases hf
    | cons a nearer =>
      cases hbehind
      exact .inl ⟨nearer, push, earlier, rfl, by simpa using hf⟩
  | @rewrite behind window after i hs =>
    cases behind with
    | nil => exact absurd hbehind.symm (by simp [Place.back])
    | cons last behind =>
      rw [Place.back] at hbehind hf
      subst hbehind
      cases nearer with
      | nil =>
        have hstarts := hs.startsRelay hf
        exact .inr ⟨hs.rewrite_code, earlier.reverse, _, by simp [Place.code], hstarts⟩
      | cons second more =>
        have hsame := fuse?_shortens hs push (last :: second :: more).reverse (by simp)
        refine .inl ⟨last :: second :: more, push, earlier, rfl, ?_⟩
        exact (congrArg Option.isSome hsame).trans (by simpa using hf)

/-- The pass has not been at the second window of some relay. -/
inductive Place.Awaits : Place → Prop where
  | ahead {behind stretch : List Instruction} (between : List Instruction) :
      StartsRelay stretch → Awaits ⟨behind, between ++ stretch⟩
  | pop {earlier rest : List Instruction} {push : Instruction} :
      StartsRelay (push :: rest) → Awaits ⟨push :: earlier, rest⟩
  | window {earlier rest : List Instruction} {push pop : Instruction} :
      StartsRelay (push :: pop :: rest) → Awaits ⟨pop :: push :: earlier, rest⟩

theorem Step.awaits (h : Step p q) (hp : p.Awaits) : q.Awaits ∨ q.Leaves := by
  cases hp with
  | @ahead behind stretch between hstarts =>
    left
    generalize hahead : between ++ stretch = ahead at h
    cases h with
    | advance =>
      cases between with
      | nil =>
        rw [List.nil_append] at hahead
        rw [hahead] at hstarts
        exact .pop hstarts
      | cons first between =>
        obtain ⟨rfl, htail⟩ := List.cons.inj hahead
        rw [← htail]
        exact .ahead between hstarts
    | @rewrite _ _ _ i hs =>
      obtain ⟨more, -, rfl⟩ := hs.apart hstarts hahead.symm
      cases behind with
      | nil => exact .ahead (i :: more) hstarts
      | cons last earlier => exact .ahead (last :: i :: more) hstarts
  | @pop _ rest _ hstarts =>
    left
    obtain ⟨_, _, _, _, _, _, _, heq, ⟨-, hpop, -, -⟩, -, -⟩ := hstarts.exists_windows
    obtain ⟨rfl, hrest⟩ := List.cons.inj heq
    cases h with
    | advance => exact .window hstarts
    | rewrite hs => rcases hs.op_head hrest with h | h <;> rw [hpop] at h <;> cases h
  | @window _ rest push pop hstarts =>
    right
    obtain ⟨_, _, push', pop', add, fused, after, heq, ⟨-, -, hpush, -⟩, hinner, houter⟩ :=
      hstarts.exists_windows
    simp only [List.cons.injEq] at heq
    obtain ⟨rfl, rfl, hrest⟩ := heq
    generalize hbehind : pop :: push :: _ = behind at h
    cases h with
    | advance _ hnone =>
      rw [hrest, hinner] at hnone
      cases hnone
    | rewrite hs =>
      cases hs with
      | unmove hr =>
        obtain ⟨rfl, -⟩ := List.cons.inj hrest
        have hmov := (isReversedMove_op hr).1
        rw [hpush] at hmov
        cases hmov
      | fuse hf =>
        cases hrest
        cases hinner.symm.trans hf
        exact ⟨[], push, _, by rw [← hbehind]; rfl, by rw [← hbehind]; exact houter⟩

theorem Place.Awaits.two_le_length (h : p.Awaits) : 2 ≤ p.ahead.length := by
  cases h with
  | ahead between hstarts =>
    obtain ⟨_, _, _, _, _, _, _, rfl, -⟩ := hstarts.exists_windows
    simp only [List.length_append, List.length_cons]
    omega
  | pop hstarts | window hstarts =>
    obtain ⟨_, _, _, _, _, _, _, heq, -⟩ := hstarts.exists_windows
    cases heq
    simp

theorem Place.Leaves.exists_rewrite (h : p.Leaves) : ∃ next, Rewrite p.code next := by
  obtain ⟨nearer, push, earlier, hbehind, hf⟩ := h
  obtain ⟨fused, hfused⟩ := Option.isSome_iff_exists.1 hf
  obtain ⟨_, pop, add, rest, heq, -⟩ := exists_of_fuse? hfused
  obtain ⟨rfl, hrest⟩ := List.cons.inj heq
  have hcode : p.code = earlier.reverse ++ [push, pop, add] ++ rest := by
    simp [Place.code, hbehind, hrest]
  rw [heq] at hfused
  rw [hcode]
  exact ⟨_, .mk earlier.reverse (.fuse hfused)⟩

theorem Place.Leaves.of_rewrite (h : Rewrite last.code next) (hend : last.ahead.length ≤ 1)
    (hc : last.code.IsChain fun first second => isReversedMove first second = false) :
    last.Leaves := by
  generalize hcode : last.code = code at h hc
  obtain ⟨before, hs⟩ := h
  cases hs with
  | unmove hr =>
    have hpair := (List.isChain_append.1 (List.isChain_append.1 hc).1).2.1
    rw [List.isChain_pair, hr] at hpair
    cases hpair
  | @fuse push pop add _ hf =>
    rw [List.append_assoc] at hcode
    rcases append_cons_eq_append hcode.symm with ⟨more, hbehind, hahead⟩ | ⟨more, -, hahead⟩
    · refine ⟨more.reverse, push, before.reverse, ?_, ?_⟩
      · rw [← List.reverse_reverse last.behind, hbehind]
        simp
      · rw [List.reverse_reverse, ← hahead]
        exact Option.isSome_iff_exists.2 ⟨_, hf⟩
    · rw [hahead] at hend
      simp only [List.length_append, List.length_cons, List.append_eq, List.length_nil] at hend
      omega

theorem leaves_of_steps (h : Relation.ReflTransGen Step p last) (hend : last.ahead.length ≤ 1)
    (hp : p.Awaits) : last.Leaves := by
  -- The second window of the relay has not been met, or the first one has been left behind.
  have hlast : last.Awaits ∨ last.Leaves := by
    clear hend
    induction h with
    | refl => exact .inl hp
    | tail _ hstep ih => exact ih.elim hstep.awaits fun hleaves => .inr (hstep.leaves hleaves)
  rcases hlast with hawaits | hleaves
  · exact absurd (Nat.le_trans hawaits.two_le_length hend) (Nat.not_succ_le_self 1)
  · exact hleaves

theorem Rewrite.length_lt (h : Rewrite code next) : next.length < code.length := by
  obtain ⟨before, hs⟩ := h
  have hlength := hs.two_le_length
  simp only [List.length_append, List.length_cons]
  omega

theorem length_le_of_rewrites (h : Relation.ReflTransGen Rewrite code next) :
    next.length ≤ code.length := by
  induction h with
  | refl => exact Nat.le_refl _
  | tail _ hrewrite ih => exact Nat.le_trans (Nat.le_of_lt hrewrite.length_lt) ih

theorem Relay.of_rewrites (h : Relation.ReflTransGen Rewrite code next) (hr : Relay next) :
    Relay code := by
  induction h with
  | refl => exact hr
  | tail _ hrewrite ih => exact ih (.of_rewrite hrewrite hr)

/-- The pass leaves a window only after it has rewritten in a relay. -/
theorem relay_of_steps (h : Relation.ReflTransGen Step p last) (hp : ¬ p.Leaves)
    (hl : last.Leaves) : last.code.length < p.code.length ∧ Relay p.code := by
  induction h with
  | refl => exact absurd hl hp
  | @tail q last hsteps hstep ih =>
    have hrewrites := rewrites_of_steps hsteps
    rcases hstep.leaves_or_relay hl with hq | ⟨hrewrite, hrelay⟩
    · have hstep := length_le_of_rewrites (rewrites_of_steps (.single hstep))
      exact ⟨Nat.lt_of_le_of_lt hstep (ih hq).1, (ih hq).2⟩
    · exact ⟨Nat.lt_of_lt_of_le hrewrite.length_lt (length_le_of_rewrites hrewrites),
        .of_rewrites hrewrites hrelay⟩

theorem not_leaves_start (code : List Instruction) : ¬ Place.Leaves ⟨[], code⟩ := by
  rintro ⟨nearer, push, earlier, h, -⟩
  exact absurd h.symm (by simp)

theorem exists_rewrite_optimize_iff : (∃ next, Rewrite (optimize code) next) ↔ Relay code := by
  obtain ⟨last, hsteps, hend, hcode⟩ := exists_last_optimize code
  constructor
  · rintro ⟨next, hrewrite⟩
    have hchain := isChain_optimize code
    rw [hcode] at hrewrite hchain
    exact (relay_of_steps hsteps (not_leaves_start code)
      (.of_rewrite hrewrite hend hchain)).2
  · rintro ⟨between, stretch, rfl, hstarts⟩
    rw [hcode]
    exact (leaves_of_steps hsteps hend (.ahead between hstarts)).exists_rewrite

theorem optimize_eq_self_iff : optimize code = code ↔ ¬ ∃ next, Rewrite code next := by
  constructor
  · rintro hself ⟨next, hrewrite⟩
    obtain ⟨last, hsteps, hend, hcode⟩ := exists_last_optimize code
    have hchain := isChain_optimize code
    rw [hself] at hcode hchain
    rw [hcode] at hrewrite hchain
    have hlt := (relay_of_steps hsteps (not_leaves_start code)
      (.of_rewrite hrewrite hend hchain)).1
    rw [← hcode] at hlt
    exact absurd hlt (Nat.lt_irrefl _)
  · intro hnone
    rcases (rewrites_optimize code).cases_head with hself | ⟨next, hrewrite, -⟩
    · exact hself.symm
    · exact absurd ⟨next, hrewrite⟩ hnone

/-- The pass leaves no move that is followed by its reverse, but what it leaves is a fixpoint only
of code without a relay. -/
theorem optimize_fixpoint_iff (code : List Instruction) :
    ((optimize code).IsChain fun first second => isReversedMove first second = false) ∧
      ((∃ next, Rewrite (optimize code) next) ↔ Relay code) ∧
      (optimize (optimize code) = optimize code ↔ ¬ Relay code) :=
  ⟨isChain_optimize code, exists_rewrite_optimize_iff,
    optimize_eq_self_iff.trans exists_rewrite_optimize_iff.not⟩

/-- A relay whose one sum takes an operand that has been pushed and popped two times. -/
def relayed : List Instruction :=
  [.push (.int 1), .pop (.reg .rb), .push (.reg .rb), .pop (.reg .rc),
    ⟨.arith .add, some (.reg .rc), some (.reg .ra)⟩, .mov (.int 0) (.reg .rc),
    .mov (.int 0) (.reg .rb)]

theorem relayed_not_fixpoint :
    optimize (optimize relayed) ≠ optimize relayed ∧
      (fuse? (optimize relayed)).isSome = true := by
  decide +kernel

end Peephole

end BlueCode
