import BlueCode.Proofs.ProgramImage
import BlueCode.Proofs.Shortening

namespace BlueCode

open Peephole

/-- The run has failed because there is no room on the stack. -/
def Overflows (o : Option Outcome) : Prop :=
  ∃ out, o = some ⟨.error .stackPointerOverflow, out⟩

/-- How the one run ends tells how the other one does, unless the one needs more room on the
stack. -/
structure Follows (run run' : Nat → Option (Option Outcome)) : Prop where
  onward {fuel : Nat} {o : Option Outcome} :
    run fuel = some o → Overflows o ∨ ∃ fuel', run' fuel' = some o
  back {fuel : Nat} {o : Option Outcome} :
    run' fuel = some o → ∃ fuel' o', run fuel' = some o' ∧ (Overflows o' ∨ o' = o)

namespace Follows

variable {run run' run'' : Nat → Option (Option Outcome)}

theorem refl (run : Nat → Option (Option Outcome)) : Follows run run :=
  ⟨fun h => .inr ⟨_, h⟩, fun h => ⟨_, _, h, .inr rfl⟩⟩

theorem trans (h : Follows run run') (h' : Follows run' run'') : Follows run run'' where
  onward hrun := by
    rcases h.onward hrun with ho | ⟨fuel', hrun'⟩
    · exact .inl ho
    · exact h'.onward hrun'
  back hrun'' := by
    obtain ⟨fuel', o', hrun', ho'⟩ := h'.back hrun''
    obtain ⟨fuel, o, hrun, ho⟩ := h.back hrun'
    refine ⟨fuel, o, hrun, ?_⟩
    rcases ho with ho | rfl
    · exact .inl ho
    · exact ho'

end Follows

namespace Calls

variable {settings : Settings} {image : Image} {c : Calls} {o : Option Outcome}

theorem run_succ {fuel : Nat} {out : String} (h : c.run settings image fuel out = some o) :
    c.run settings image (fuel + 1) out = some o := by
  induction fuel generalizing c out with
  | zero => cases h
  | succ fuel ih =>
    rw [run] at h ⊢
    split at h
    · exact ih h
    all_goals exact h

theorem run_le {m n : Nat} {out : String} (h : c.run settings image m out = some o)
    (hle : m ≤ n) : c.run settings image n out = some o := by
  induction hle with
  | refl => exact h
  | step _ ih => exact run_succ ih

theorem run_eq_of_later {later : Nat → Option (Option Outcome)} {k fuel : Nat} {out : String}
    (hrun : ∀ fuel, c.run settings image (fuel + k + 1) out = later fuel)
    (hzero : later 0 = none) (h : c.run settings image fuel out = some o) :
    ∃ m < fuel, later m = some o := by
  by_cases hk : fuel ≤ k
  · have hlater := hrun 0
    rw [run_le h (by omega), hzero] at hlater
    cases hlater
  · refine ⟨fuel - (k + 1), by omega, ?_⟩
    rw [← hrun, ← h]
    congr 1
    omega

end Calls

namespace Edit

variable {e : Edit} {settings : Settings} {image image' : Image} {c c' : Calls}

theorem Matches.run_onward (he : e.Sound) (hrel : e.Relates image image') (himage : image.Plain)
    {fuel : Nat} {o : Option Outcome} (h : e.Matches c c') (ho : c.Orderly image) {out : String}
    (hrun : c.run settings image fuel out = some o) :
    Overflows o ∨ ∃ fuel', c'.run settings image' fuel' out = some o := by
  -- The code may take several steps for one of the rewritten code, hence the strong induction.
  induction fuel using Nat.strong_induction_on generalizing c c' out with
  | _ fuel ih =>
    have hmore (k : Nat) : c.run settings image (fuel + k + 1) out = some o :=
      Calls.run_le hrun (by omega)
    cases (h.meets he hrel himage ho : e.Meets settings image image' c c') with
    | goes hc hc' hd hm =>
      obtain ⟨m, hlt, hlater⟩ := Calls.run_eq_of_later (fun fuel => hc fuel out) rfl hrun
      rcases ih m hlt hm hd hlater with hover | ⟨fuel', hrun'⟩
      · exact .inl hover
      · exact .inr ⟨fuel' + 1, by rw [hc', hrun']⟩
    | @ends k outcome hc hc' =>
      have hend := hmore k
      rw [hc] at hend
      exact .inr ⟨0 + 1, by rw [hc', hend]⟩
    | @overflows k hc =>
      have hend := hmore k
      rw [hc] at hend
      exact .inl ⟨out, (Option.some.inj hend).symm⟩

theorem Matches.run_back (he : e.Sound) (hrel : e.Relates image image') (himage : image.Plain)
    {fuel : Nat} {o : Option Outcome} (h : e.Matches c c') (ho : c.Orderly image) {out : String}
    (hrun : c'.run settings image' fuel out = some o) :
    ∃ fuel' o', c.run settings image fuel' out = some o' ∧ (Overflows o' ∨ o' = o) := by
  induction fuel generalizing c c' out with
  | zero => cases hrun
  | succ fuel ih =>
    cases (h.meets he hrel himage ho : e.Meets settings image image' c c') with
    | @goes k _ _ _ hc hc' hd hm =>
      rw [hc'] at hrun
      obtain ⟨fuel', o', hrun', ho'⟩ := ih hm hd hrun
      exact ⟨fuel' + k + 1, o', by rw [hc, hrun'], ho'⟩
    | @ends k outcome hc hc' =>
      rw [hc'] at hrun
      exact ⟨0 + k + 1, o, by rw [hc, hrun], .inr rfl⟩
    | @overflows k hc => exact ⟨0 + k + 1, _, hc 0 out, .inl ⟨out, rfl⟩⟩

theorem Matches.follows (he : e.Sound) (hrel : e.Relates image image') (himage : image.Plain)
    (h : e.Matches c c') (ho : c.Orderly image) (out : String) :
    Follows (fun fuel => c.run settings image fuel out)
      (fun fuel => c'.run settings image' fuel out) :=
  ⟨h.run_onward he hrel himage ho, h.run_back he hrel himage ho⟩

end Edit

/-- The outcome of at most `fuel` steps on the calls of the main routine; there is none inside if
values and addresses are mixed. -/
def Image.trial (settings : Settings) (image : Image) (fuel : Nat) : Option (Option Outcome) :=
  match image.find? "main" with
  | some main => (Calls.initial main).run settings image fuel ""
  | none => some (some ⟨.error (.missingFunction "main"), ""⟩)

namespace Image

variable {settings : Settings} {image : Image} {fuel : Nat}

theorem trial_eq (himage : image.Plain) (fuel : Nat) :
    image.trial settings fuel = some none ∨
      image.trial settings fuel = (image.run settings fuel).map some := by
  unfold trial Image.run
  cases hf : image.find? "main" with
  | none => exact .inr rfl
  | some main => exact Calls.run_eq himage (.initial himage hf) fuel ""

theorem trial_ne_mixed (himage : image.Plain) (hd : image.Disciplined settings) (fuel : Nat) :
    image.trial settings fuel ≠ some none := by
  unfold trial
  cases hf : image.find? "main" with
  | none => exact nofun
  | some main => exact Calls.run_ne_mixed himage hd (.initial himage hf) (.start hf) fuel ""

theorem trial_eq_of_disciplined (himage : image.Plain) (hd : image.Disciplined settings)
    (fuel : Nat) : image.trial settings fuel = (image.run settings fuel).map some :=
  (trial_eq himage fuel).resolve_left (trial_ne_mixed himage hd fuel)

theorem run_of_trial (himage : image.Plain) {o : Outcome}
    (h : image.trial settings fuel = some (some o)) : image.run settings fuel = some o := by
  rcases trial_eq himage fuel with hmixed | heq
  · rw [hmixed] at h
    cases h
  · rw [heq] at h
    obtain ⟨o', ho', he⟩ := Option.map_eq_some_iff.1 h
    rw [ho', Option.some.inj he]

theorem trial_of_run (himage : image.Plain) {o : Outcome} (h : image.run settings fuel = some o) :
    ∃ o', image.trial settings fuel = some o' := by
  rcases trial_eq himage fuel with hmixed | heq
  · exact ⟨_, hmixed⟩
  · rw [heq, h]
    exact ⟨_, rfl⟩

end Image

def Fits {α : Type} (x : Except RunError α) : Prop :=
  x ≠ .error .stackPointerOverflow

namespace Fits

variable {α β : Type} {x : Except RunError α} {settings : Settings} {image : Image} {c : Calls}

theorem ok (a : α) : Fits (.ok a) :=
  nofun

theorem bind {f : α → Except RunError β} (hx : Fits x) (hf : ∀ a, Fits (f a)) : Fits (x >>= f) := by
  intro h
  rcases bind_eq_error.1 h with h | ⟨a, -, h⟩
  · exact hx h
  · exact hf a h

theorem mapError (x : Except ValueError α) : Fits (x.mapError RunError.value) := by
  cases x with
  | error e => exact nofun
  | ok a => exact nofun

theorem put (o : Option Operand) (v : Value) : Fits (c.put o v) := by
  intro h
  unfold Calls.put at h
  cases hw : c.state.write o v with
  | error e =>
    rw [hw] at h
    cases h
    exact State.write_ne_overflow hw
  | ok s =>
    rw [hw] at h
    cases h

theorem jump (label : String) : Fits (c.jump label) := by
  unfold Calls.jump
  split
  · exact nofun
  · exact nofun

theorem restore (o : Option Operand) : Fits (c.restore o) := by
  unfold Calls.restore
  split
  · exact .bind (.put _ _) fun d => .ok _
  · exact nofun
  · exact nofun

theorem start (callee : Routine) : Fits (c.start settings callee) := by
  intro h
  unfold Calls.start at h
  split at h
  · cases h
  · rcases bind_eq_error.1 h with h | ⟨first, -, h⟩
    · exact State.cell_ne_overflow h
    · cases hlast : State.cell (c.frame.base + c.frame.routine.frameSize : Nat) callee.frameSize with
      | error e =>
        rw [hlast] at h
        cases h
        exact State.cell_ne_overflow hlast
      | ok last =>
        rw [hlast] at h
        cases h

theorem save (h : c.height + 1 < 2 ^ 63) (v : Value) : Fits (c.save v) := by
  rw [Calls.save, if_pos h]
  exact .ok _

theorem invoke (h : c.height + 1 < 2 ^ 63) (name : String) : Fits (c.invoke settings image name) := by
  apply Fits.bind (.save h .null)
  intro saved
  split
  · apply Fits.bind
    · intro heffect
      cases Calls.Proper.effect_not_internal heffect
    · exact fun effect => .ok _
  · split
    · exact .bind (.start _) fun d => .ok _
    · exact nofun

theorem next (h : c.height + 1 < 2 ^ 63) : Fits (c.next settings image) := by
  have hread (o : Option Operand) : Fits (c.state.read o) := State.read_ne_overflow
  unfold Calls.next
  split
  · next i hi =>
    unfold Calls.follow
    cases i.op with
    | mov => exact .bind (hread _) fun v => .bind (.put _ _) fun d => .ok _
    | push => exact .bind (hread _) fun v => .bind (.save h v) fun d => .ok _
    | pop => exact .restore _
    | arith op =>
      exact .bind (hread _) fun left => .bind (hread _) fun right => .bind (.mapError _) fun v =>
        .bind (.put _ _) fun d => .ok _
    | compare op =>
      exact .bind (hread _) fun left => .bind (hread _) fun right => .bind (.mapError _) fun holds =>
        .ok _
    | jump => exact .bind (.jump _) fun d => .ok _
    | jumpIfNot =>
      apply Fits.bind (hread _)
      intro v
      apply Fits.bind (.mapError _)
      intro n
      split
      · exact .bind (.jump _) fun d => .ok _
      · exact .ok _
    | call => exact .invoke h _
    | ret => exact .ok _
    | define => exact .ok _
    | label => exact .ok _
  · exact .ok _

end Fits

namespace Calls

variable {settings : Settings} {image : Image} {c : Calls} {fuel : Nat} {out : String}

/-- Each step saves at most one value, so it takes many steps until there is no room. -/
theorem run_overflow (himage : image.Plain) {o : Option Outcome} (ho : Overflows o)
    (h : c.Orderly image) (hrun : c.run settings image fuel out = some o) :
    2 ^ 63 ≤ c.height + fuel := by
  obtain ⟨out', rfl⟩ := ho
  induction fuel generalizing c out with
  | zero => cases hrun
  | succ fuel ih =>
    cases hn : c.next settings image with
    | error e =>
      rw [run_error hn] at hrun
      cases hrun
      have hfull : ¬ c.height + 1 < 2 ^ 63 := fun hroom => Fits.next hroom hn
      omega
    | ok m =>
      cases m with
      | next text c' =>
        rw [run_next hn] at hrun
        have hbound := ih (h.next himage hn) hrun
        have hheight := (turns_next himage h hn).height
        omega
      | halted halt =>
        rw [run_halted hn] at hrun
        cases hrun
      | mixed =>
        rw [run_mixed hn] at hrun
        cases hrun

end Calls

theorem Image.trial_overflow {settings : Settings} {image : Image} (himage : image.Plain)
    {fuel : Nat} {o : Option Outcome} (ho : Overflows o)
    (h : image.trial settings fuel = some o) : 2 ^ 63 ≤ fuel := by
  unfold trial at h
  split at h
  · next main hf =>
    have hbound := Calls.run_overflow himage ho (.initial himage hf) h
    have hheight : (Calls.initial main).height = 0 := rfl
    omega
  · obtain ⟨out, rfl⟩ := ho
    cases h

/-- Functions that load, without the stack pointer. -/
structure WellMade (blocks : List Block) : Prop where
  names : (blocks.map Block.name).Nodup
  loadable : ∀ b ∈ blocks, Routine.Loadable b.body
  plain : ∀ b ∈ blocks, ∀ i ∈ b.body, i.Plain
  short : ∀ b ∈ blocks, b.body.length < 2 ^ 63

theorem WellMade.image_plain {blocks : List Block} (h : WellMade blocks) :
    (Image.ofBlocks blocks).Plain where
  name {name r} hf := by
    obtain ⟨b, -, rfl, rfl⟩ := (Image.find?_ofBlocks h.names name r).1 hf
    exact Routine.ofBody_name ..
  plain {name r} hf := by
    obtain ⟨b, hb, -, rfl⟩ := (Image.find?_ofBlocks h.names name r).1 hf
    intro i hi
    rw [Block.routine, Routine.ofBody_code, List.mem_toArray] at hi
    exact h.plain b hb i hi
  size {name r} hf := by
    obtain ⟨b, hb, -, rfl⟩ := (Image.find?_ofBlocks h.names name r).1 hf
    rw [Block.routine, Routine.ofBody_code, List.size_toArray]
    exact h.short b hb

namespace Edit

variable {e : Edit} {first last : List Block} {settings : Settings}

theorem Sound.of_wellMade (h : WellMade (first ++ e.old :: last))
    (hs : Shortens e.after e.window e.instead) : e.Sound :=
  ⟨hs, h.plain e.old (by simp), h.loadable e.old (by simp)⟩

theorem Sound.length_le (he : e.Sound) : e.new.body.length ≤ e.old.body.length := by
  have hpos := he.window_pos
  simp only [new, old, List.length_append, List.length_cons]
  omega

theorem Sound.wellMade (he : e.Sound) (h : WellMade (first ++ e.old :: last)) :
    WellMade (first ++ e.new :: last) where
  names := by
    have hnames := h.names
    simp only [List.map_append, List.map_cons] at hnames ⊢
    exact hnames
  loadable := by
    have hloadable := h.loadable
    simp only [List.forall_mem_append, List.forall_mem_cons] at hloadable ⊢
    exact ⟨hloadable.1, he.new_loadable, hloadable.2.2⟩
  plain := by
    have hplain := h.plain
    simp only [List.forall_mem_append, List.forall_mem_cons] at hplain ⊢
    exact ⟨hplain.1, he.new_plain, hplain.2.2⟩
  short := by
    have hshort := h.short
    have hle := he.length_le
    simp only [List.forall_mem_append, List.forall_mem_cons] at hshort ⊢
    exact ⟨hshort.1, Nat.lt_of_le_of_lt hle hshort.2.1, hshort.2.2⟩

theorem routine_old (e : Edit) : e.routine e.old.routine = e.new.routine :=
  if_pos (Routine.ofBody_name ..)

theorem routine_of_ne {b : Block} (h : b.name ≠ e.name) : e.routine b.routine = b.routine :=
  if_neg fun hname => h ((Routine.ofBody_name ..).symm.trans hname)

theorem relates_ofBlocks (h : WellMade (first ++ e.old :: last))
    (h' : WellMade (first ++ e.new :: last)) :
    e.Relates (.ofBlocks (first ++ e.old :: last)) (.ofBlocks (first ++ e.new :: last)) := by
  have hother : ∀ b ∈ first ++ last, b.name ≠ e.name := by
    intro b hb hname
    have hnames := h.names
    rw [List.map_append, List.map_cons, List.nodup_middle, List.nodup_cons, ← List.map_append]
      at hnames
    exact hnames.1 (List.mem_map.2 ⟨b, hb, hname⟩)
  have hfind {mid : Block} (hw : WellMade (first ++ mid :: last)) (name : String) (r : Routine) :
      (Image.ofBlocks (first ++ mid :: last)).find? name = some r ↔
        mid.name = name ∧ mid.routine = r ∨ ∃ b ∈ first ++ last, b.name = name ∧ b.routine = r := by
    rw [Image.find?_ofBlocks hw.names]
    simp only [List.mem_append, List.mem_cons]
    grind
  constructor
  case old =>
    intro name r hf hname
    rcases (hfind h name r).1 hf with ⟨-, rfl⟩ | ⟨b, hb, -, rfl⟩
    · rfl
    · exact absurd ((Routine.ofBody_name ..).symm.trans hname) (hother b hb)
  case new =>
    intro name
    apply Option.ext
    intro r
    rw [hfind h', Option.map_eq_some_iff]
    constructor
    · rintro (⟨hname, rfl⟩ | ⟨b, hb, hname, rfl⟩)
      · exact ⟨_, (hfind h name _).2 (.inl ⟨hname, rfl⟩), e.routine_old⟩
      · exact ⟨_, (hfind h name _).2 (.inr ⟨b, hb, hname, rfl⟩), routine_of_ne (hother b hb)⟩
    · rintro ⟨old, hf, rfl⟩
      rcases (hfind h name old).1 hf with ⟨hname, rfl⟩ | ⟨b, hb, hname, rfl⟩
      · exact .inl ⟨hname, e.routine_old.symm⟩
      · exact .inr ⟨b, hb, hname, (routine_of_ne (hother b hb)).symm⟩

theorem Sound.follows (he : e.Sound) {image image' : Image} (hrel : e.Relates image image')
    (himage : image.Plain) : Follows (image.trial settings) (image'.trial settings) := by
  have hmain := hrel.new "main"
  cases hf : image.find? "main" with
  | none =>
    rw [hf] at hmain
    have htrial : image'.trial settings = image.trial settings := by
      funext fuel
      rw [Image.trial, Image.trial, hf, hmain]
      rfl
    rw [htrial]
    exact .refl _
  | some main =>
    rw [hf] at hmain
    have hinitial : Calls.initial (e.routine main) = e.calls (.initial main) := by
      simp only [calls, Calls.initial, frame, placeIn_zero, List.map_nil]
    have hmatches : e.Matches (.initial main) (.initial (e.routine main)) := by
      rw [hinitial]
      exact matches_calls fun _ => .inl (Nat.zero_le _)
    have hfollows : Follows (fun fuel => (Calls.initial main).run settings image fuel "")
        (fun fuel => (Calls.initial (e.routine main)).run settings image' fuel "") :=
      hmatches.follows he hrel himage (.initial himage hf) ""
    have htrial : image.trial settings = fun fuel => (Calls.initial main).run settings image fuel "" := by
      funext fuel
      rw [Image.trial, hf]
    have htrial' : image'.trial settings =
        fun fuel => (Calls.initial (e.routine main)).run settings image' fuel "" := by
      funext fuel
      rw [Image.trial, hmain]
      rfl
    rw [htrial, htrial']
    exact hfollows

end Edit

namespace Peephole

variable {blocks : List Block} {code : List Instruction} {settings : Settings}

/-- A rewrite leaves functions that load, and the run follows that of the code before. -/
theorem Rewrite.exists_follows (h : WellMade blocks) (hr : Rewrite (blocks.flatMap Block.code) code)
    (settings : Settings) : ∃ blocks', WellMade blocks' ∧ code = blocks'.flatMap Block.code ∧
      Follows ((Image.ofBlocks blocks).trial settings) ((Image.ofBlocks blocks').trial settings) := by
  obtain ⟨e, first, last, hs, rfl, rfl⟩ := hr.exists_edit
  have he : e.Sound := .of_wellMade h hs
  have h' := he.wellMade h
  exact ⟨_, h', rfl, he.follows (Edit.relates_ofBlocks h h') h.image_plain⟩

theorem exists_follows_optimize (h : WellMade blocks) (settings : Settings) :
    ∃ blocks', WellMade blocks' ∧ optimize (blocks.flatMap Block.code) = blocks'.flatMap Block.code ∧
      Follows ((Image.ofBlocks blocks).trial settings) ((Image.ofBlocks blocks').trial settings) := by
  have hrewrites := rewrites_optimize (blocks.flatMap Block.code)
  generalize optimize (blocks.flatMap Block.code) = final at hrewrites ⊢
  induction hrewrites with
  | refl => exact ⟨blocks, h, rfl, .refl _⟩
  | tail _ hr ih =>
    obtain ⟨middle, hm, rfl, hfollows⟩ := ih
    obtain ⟨blocks', h', hcode, hfollows'⟩ := hr.exists_follows hm settings
    exact ⟨blocks', h', hcode, hfollows.trans hfollows'⟩

end Peephole

theorem Image.wellMade_of_ofInstructions {code : List Instruction} {image : Image}
    (hplain : ∀ i ∈ code, i.Plain) (hlength : code.length < 2 ^ 63)
    (hload : Image.ofInstructions code = .ok image) :
    ∃ blocks, code = blocks.flatMap Block.code ∧ WellMade blocks ∧ image = .ofBlocks blocks := by
  obtain ⟨blocks, rfl, hd, hl, rfl⟩ := Image.exists_blocks hload fun i hi => (hplain i hi).formed
  refine ⟨blocks, rfl, ⟨hd, hl, fun b hb i hi => ?_, fun b hb => ?_⟩, rfl⟩
  · exact hplain i (List.mem_flatMap.2 ⟨b, hb, List.mem_cons_of_mem _ hi⟩)
  · have hle := Block.length_le_of_mem hb
    omega

/-- The pass changes neither how a run ends nor what it prints, if no instruction names the stack
pointer and the run takes saved values for values and return addresses for return addresses. -/
theorem optimize_sound {settings : Settings} {code : List Instruction} {image : Image}
    (hplain : ∀ i ∈ code, i.Plain) (hlength : code.length < 2 ^ 63)
    (hload : Image.ofInstructions code = .ok image) (hd : image.Disciplined settings) :
    ∃ image', Image.ofInstructions (optimize code) = .ok image' ∧
      (∀ fuel o, fuel < 2 ^ 63 → image.run settings fuel = some o →
        ∃ fuel', image'.run settings fuel' = some o) ∧
      ((∀ fuel, image.run settings fuel = none) → ∀ fuel, image'.run settings fuel = none) := by
  obtain ⟨blocks, rfl, h, rfl⟩ := Image.wellMade_of_ofInstructions hplain hlength hload
  obtain ⟨blocks', h', hcode, hfollows⟩ := exists_follows_optimize h settings
  have himage := h.image_plain
  have htrial := Image.trial_eq_of_disciplined himage hd
  refine ⟨.ofBlocks blocks', ?_, ?_, ?_⟩
  · rw [hcode]
    exact Image.ofInstructions_blocks h'.names h'.loadable
  · intro fuel o hfuel hrun
    have hend : (Image.ofBlocks blocks).trial settings fuel = some (some o) := by
      rw [htrial, hrun]
      rfl
    rcases hfollows.onward hend with hover | ⟨fuel', hend'⟩
    · have hbound := Image.trial_overflow himage hover hend
      omega
    · exact ⟨fuel', Image.run_of_trial h'.image_plain hend'⟩
  · intro hrun fuel
    cases hend : (Image.ofBlocks blocks').run settings fuel with
    | none => rfl
    | some o =>
      obtain ⟨o', hend'⟩ := Image.trial_of_run h'.image_plain hend
      obtain ⟨fuel', o'', hback, -⟩ := hfollows.back hend'
      rw [htrial, hrun] at hback
      cases hback

namespace Peephole

def doubling : List Block :=
  [⟨"main", [.mov (.int 20) (.reg .ra), .push (.int 1), .pop (.reg .rb),
      ⟨.arith .add, some (.reg .rb), some (.reg .ra)⟩, .mov (.int 0) (.reg .rb), .call "twice", .ret]⟩,
    ⟨"twice", [.mov (.reg .ra) (.heap 0), .mov (.heap 0) (.reg .ra),
      ⟨.arith .add, some (.heap 0), some (.reg .ra)⟩, .ret]⟩]

end Peephole

def State.isDisciplined (settings : Settings) (image : Image) :
    Nat → State → List Origin → Bool
  | 0, _, _ => false
  | fuel + 1, s, origins =>
    (match s.instruction?.map Instruction.op with
      | some .pop => origins.head? ≠ some .called
      | some .ret | none => s.callers.isEmpty || origins.head? ≠ some .pushed
      | _ => true) &&
    match s.step settings image with
    | .ok transition =>
      match transition.next? with
      | some next => next.isDisciplined settings image fuel (s.trace transition origins)
      | none => true
    | .error _ => true

theorem Image.disciplined_of_isDisciplined {settings : Settings} {image : Image} {fuel : Nat}
    {main : Routine} (hf : image.find? "main" = some main)
    (h : (State.start main).isDisciplined settings image fuel [] = true) :
    image.Disciplined settings := by
  -- A traced state is one that the evaluation passes, and there it has fuel left.
  have hall {s : State} {origins : List Origin} (ht : s.Traced settings image origins) :
      ∃ fuel, s.isDisciplined settings image (fuel + 1) origins = true := by
    induction ht with
    | start hf' =>
      cases hf.symm.trans hf'
      cases fuel with
      | zero => cases h
      | succ fuel => exact ⟨fuel, h⟩
    | step _ hs hn ih =>
      obtain ⟨fuel, hk⟩ := ih
      rw [State.isDisciplined, Bool.and_eq_true, hs] at hk
      simp only [hn] at hk
      cases fuel with
      | zero => cases hk.2
      | succ fuel => exact ⟨fuel, hk.2⟩
  constructor
  case pops =>
    intro s origins i ht hi hop
    obtain ⟨fuel, hk⟩ := hall ht
    rw [State.isDisciplined, Bool.and_eq_true, hi] at hk
    simp only [Option.map_some, hop] at hk
    exact of_decide_eq_true hk.1
  case returns =>
    intro s origins ht hi hc
    obtain ⟨fuel, hk⟩ := hall ht
    rw [State.isDisciplined, Bool.and_eq_true] at hk
    have hcallers : s.callers.isEmpty = false := by simpa using hc
    cases hinstruction : s.instruction? with
    | none =>
      simp only [hinstruction, Option.map_none, hcallers, Bool.false_or] at hk
      exact of_decide_eq_true hk.1
    | some i =>
      simp only [hinstruction, Option.map_some, hi i hinstruction, hcallers, Bool.false_or] at hk
      exact of_decide_eq_true hk.1

namespace Peephole

theorem wellMade_doubling : WellMade doubling := by
  have hplain : ∀ b ∈ doubling, ∀ i ∈ b.body, (Loader.arrange i.op i.operands = i ∧
      List.Forall₂ (fun slot o => Loader.Slot.accepts slot o = true) (Loader.slots i.op)
        i.operands) ∧ (i.src ≠ some .stackPointer ∧ i.src ≠ some .stackTop) ∧
      i.dst ≠ some .stackPointer ∧ i.dst ≠ some .stackTop := by
    decide +kernel
  refine ⟨by decide, ?_, fun b hb i hi => ?_, by decide⟩
  · have hload : ∀ b ∈ doubling, (∀ i ∈ b.body, i.op ≠ .define) ∧ (labelNames b.body).Nodup ∧
        ∀ i ∈ b.body, i.src ≠ some (.heap Int64.maxValue) ∧ i.dst ≠ some (.heap Int64.maxValue) := by
      decide
    exact fun b hb => ⟨(hload b hb).1, (hload b hb).2.1, (hload b hb).2.2⟩
  · obtain ⟨hformed, hsrc, hdst⟩ := hplain b hb i hi
    exact ⟨⟨hformed.1, hformed.2⟩, hsrc, hdst⟩

end Peephole

theorem optimize_sound_doubling : ∃ image image',
    (∀ i ∈ doubling.flatMap Block.code, i.Plain) ∧
      Image.ofInstructions (doubling.flatMap Block.code) = .ok image ∧ image.Disciplined {} ∧
      (optimize (doubling.flatMap Block.code)).length + 3 = (doubling.flatMap Block.code).length ∧
      Image.ofInstructions (optimize (doubling.flatMap Block.code)) = .ok image' ∧
      ∃ fuel, image'.run {} fuel = some ⟨.ok (.returned (.int 42)), ""⟩ := by
  have h := wellMade_doubling
  have hplain : ∀ i ∈ doubling.flatMap Block.code, i.Plain := by
    intro i hi
    obtain ⟨b, hb, hi⟩ := List.mem_flatMap.1 hi
    rcases List.mem_cons.1 hi with rfl | hi
    · exact ⟨⟨rfl, .cons rfl .nil⟩, ⟨nofun, nofun⟩, ⟨nofun, nofun⟩⟩
    · exact h.plain b hb i hi
  have hload := Image.ofInstructions_blocks h.names h.loadable
  have hmain : (Image.ofBlocks doubling).find? "main" = some (Block.routine doubling[0]) :=
    (Image.find?_ofBlocks h.names ..).2 ⟨doubling[0], List.mem_cons_self, rfl, rfl⟩
  have hd : (Image.ofBlocks doubling).Disciplined {} :=
    @Image.disciplined_of_isDisciplined {} _ 20 _ hmain (by decide +kernel)
  obtain ⟨image', hload', hruns, -⟩ := optimize_sound hplain (by decide) hload hd
  have hrun : (Image.ofBlocks doubling).run {} 20 = some ⟨.ok (.returned (.int 42)), ""⟩ := by
    have hkernel : ((Image.ofBlocks doubling).run {} 20).map (fun o => (o.result.toOption, o.output)) =
        some (some (.returned (.int 42)), "") := by
      decide +kernel
    obtain ⟨⟨result, output⟩, ho, he⟩ := Option.map_eq_some_iff.1 hkernel
    rw [ho]
    cases result with
    | error e => cases he
    | ok halt =>
      cases he
      rfl
  exact ⟨_, image', hplain, hload, hd, by decide +kernel, hload', hruns 20 _ (by decide) hrun⟩

end BlueCode
