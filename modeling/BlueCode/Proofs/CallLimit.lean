import BlueCode.Proofs.Emission
import BlueCode.Proofs.Steps

namespace BlueCode

open Compile

deriving instance DecidableEq for Outcome

def Settings.allowing (settings : Settings) (limit : Nat) : Settings :=
  { settings with maxCallDepth := limit }

namespace Path

variable {settings : Settings} {image : Image} {s t : State} {out out' : String}

theorem output_eq (h : Path settings image s out t out') : ∃ rest, out' = out ++ rest := by
  induction h with
  | refl => exact ⟨"", String.append_empty.symm⟩
  | head _ _ _ ih =>
    obtain ⟨rest, rfl⟩ := ih
    exact ⟨_, String.append_assoc⟩

end Path

namespace State

variable {settings : Settings} {limit : Nat} {image : Image} {s : State} {out : String}

/-- What the higher limit leads to: the same as the lower one, unless that one is exceeded. -/
def Agrees {α : Type} (settings : Settings) (lower higher : Except RunError α) : Prop :=
  lower = .error (.tooManyCalls settings.maxCallDepth) ∨ higher = lower

namespace Agrees

variable {α β : Type} {x y : Except RunError α} {f g : α → Except RunError β}

theorem refl (x : Except RunError α) : Agrees settings x x := .inr rfl

theorem bind_left (h : Agrees settings x y) (f : α → Except RunError β) :
    Agrees settings (x >>= f) (y >>= f) := by
  rcases h with h | h
  · left
    rw [h]
    rfl
  · right
    rw [h]

theorem bind_right (x : Except RunError α) (h : ∀ a, Agrees settings (f a) (g a)) :
    Agrees settings (x >>= f) (x >>= g) := by
  cases x with
  | error e => exact refl (.error e)
  | ok a => exact h a

end Agrees

theorem enter_allowing (h : settings.maxCallDepth ≤ limit) (s : State) (callee : Routine) :
    Agrees settings (s.enter settings callee) (s.enter (settings.allowing limit) callee) := by
  by_cases hd : settings.maxCallDepth ≤ s.depth
  · left
    simp only [enter, hd, if_true]
    rfl
  · right
    have hd' : ¬ (settings.allowing limit).maxCallDepth ≤ s.depth :=
      fun hle => hd (h.trans hle)
    simp only [enter, hd, hd', if_false]

theorem effect_allowing (acc : Value) (b : Builtin) :
    effect (settings.allowing limit) acc b = effect settings acc b := by
  cases b <;> rfl

theorem call_allowing (h : settings.maxCallDepth ≤ limit) (s : State) (name : String) :
    Agrees settings (s.call settings image name) (s.call (settings.allowing limit) image name) := by
  apply Agrees.bind_right
  intro pushed
  cases Builtin.ofName? name with
  | some b =>
    simp only [effect_allowing]
    exact .refl _
  | none =>
    cases image.find? name with
    | none => exact .refl _
    | some callee => exact (enter_allowing h pushed callee).bind_left _

theorem execute_allowing (h : settings.maxCallDepth ≤ limit) (s : State) (i : Instruction) :
    Agrees settings (s.execute settings image i) (s.execute (settings.allowing limit) image i) := by
  obtain ⟨op, src, dst⟩ := i
  cases op with
  | call => exact call_allowing h s _
  | _ => exact .refl _

theorem step_allowing (h : settings.maxCallDepth ≤ limit) (s : State) :
    Agrees settings (s.step settings image) (s.step (settings.allowing limit) image) := by
  unfold step
  cases s.instruction? with
  | none => exact .refl _
  | some i => exact execute_allowing h s i

/-- Under a higher limit a run is the same, or it goes on from where the lower limit is exceeded. -/
theorem run_eq_or_exceeds (h : settings.maxCallDepth ≤ limit) (fuel : Nat) (s : State)
    (out : String) :
    s.run (settings.allowing limit) image fuel out = s.run settings image fuel out ∨
      ∃ t out', s.run settings image fuel out =
          some ⟨.error (.tooManyCalls settings.maxCallDepth), out'⟩ ∧
        Path (settings.allowing limit) image s out t out' := by
  -- Only the start of a call looks at the limit: the runs are the same up to one that is forbidden.
  induction fuel generalizing s out with
  | zero => exact .inl rfl
  | succ fuel ih =>
    rcases @step_allowing _ _ image h s with hstep | hstep
    · right
      exact ⟨s, out, run_error hstep fuel out, .refl s out⟩
    · cases hs : s.step settings image with
      | error e =>
        left
        rw [run_error hs, run_error (hstep.trans hs)]
      | ok transition =>
        cases hn : transition.next? with
        | none =>
          left
          cases transition with
          | halted halt => rw [run_halted hs, run_halted (hstep.trans hs)]
          | _ => cases hn
        | some next =>
          rw [run_next hs hn, run_next (hstep.trans hs) hn]
          rcases ih next (out ++ transition.text) with heq | ⟨t, out', hrun, hpath⟩
          · exact .inl heq
          · exact .inr ⟨t, out', hrun, .head (hstep.trans hs) hn hpath⟩

theorem exists_path_of_run {fuel : Nat} {o : Outcome} (h : s.run settings image fuel out = some o) :
    ∃ t, Path settings image s out t o.output := by
  induction fuel generalizing s out with
  | zero => cases h
  | succ fuel ih =>
    cases hs : s.step settings image with
    | error e =>
      rw [run_error hs] at h
      cases h
      exact ⟨s, .refl s out⟩
    | ok transition =>
      cases hn : transition.next? with
      | some next =>
        rw [run_next hs hn] at h
        obtain ⟨t, hpath⟩ := ih h
        exact ⟨t, .head hs hn hpath⟩
      | none =>
        cases transition with
        | halted halt =>
          rw [run_halted hs] at h
          cases h
          exact ⟨s, .refl s out⟩
        | _ => cases hn

theorem output_of_run {fuel : Nat} {o : Outcome} (h : s.run settings image fuel out = some o) :
    ∃ rest, o.output = out ++ rest := by
  obtain ⟨t, hpath⟩ := exists_path_of_run h
  exact hpath.output_eq

end State

theorem Path.output_of_run {settings : Settings} {image : Image} {s t : State} {out out' : String}
    {fuel : Nat} {o : Outcome} (h : Path settings image s out t out')
    (hr : s.run settings image fuel out = some o) : ∃ rest, o.output = out' ++ rest := by
  induction h generalizing fuel with
  | refl => exact State.output_of_run hr
  | head hs hn _ ih =>
    cases fuel with
    | zero => cases hr
    | succ fuel =>
      rw [State.run_next hs hn] at hr
      exact ih hr

namespace Image

variable {settings : Settings} {limit : Nat} {image : Image} {main : Routine} {text : String}

theorem run_eq (hmain : image.find? "main" = some main) (fuel : Nat) :
    image.run settings fuel = (State.start main).run settings image fuel "" := by
  rw [run, hmain]

/-- The run of an image prints the text before anything else, whether it ends or not. -/
structure PrintsFirst (settings : Settings) (image : Image) (text : String) : Prop where
  reached : ∃ main s, image.find? "main" = some main ∧ Path settings image (.start main) "" s text
  outcome {fuel : Nat} {o : Outcome} : image.run settings fuel = some o →
    ∃ rest, o.output = text ++ rest

theorem PrintsFirst.of_path {s : State} (hmain : image.find? "main" = some main)
    (h : Path settings image (.start main) "" s text) : image.PrintsFirst settings text where
  reached := ⟨main, s, hmain, h⟩
  outcome := by
    intro fuel o hr
    rw [run_eq hmain] at hr
    exact h.output_of_run hr

/-- Raising the limit on live calls keeps how a run ends, unless the run exceeds its limit; then the
run under the higher limit first prints the same. A run without an end has none under the higher
limit either. -/
theorem run_allowing (h : settings.maxCallDepth ≤ limit) (image : Image) :
    (∀ fuel o, image.run settings fuel = some o → (∀ n, o.result ≠ .error (.tooManyCalls n)) →
        image.run (settings.allowing limit) fuel = some o) ∧
      (∀ fuel n text, image.run settings fuel = some ⟨.error (.tooManyCalls n), text⟩ →
        image.PrintsFirst (settings.allowing limit) text) ∧
      ((∀ fuel, image.run settings fuel = none) →
        ∀ fuel, image.run (settings.allowing limit) fuel = none) := by
  cases hmain : image.find? "main" with
  | none =>
    -- Without a main routine both runs fail before any call.
    have hrun (settings : Settings) (fuel : Nat) :
        image.run settings fuel = some ⟨.error (.missingFunction "main"), ""⟩ := by
      rw [run, hmain]
    simp [hrun]
  | some main =>
    simp only [run_eq hmain]
    refine ⟨?_, ?_, ?_⟩
    · intro fuel o hr hne
      rcases State.run_eq_or_exceeds h fuel (.start main) "" with heq | ⟨t, text, hrun, -⟩
      · exact heq.trans hr
      · cases hr.symm.trans hrun
        exact absurd rfl (hne _)
    · intro fuel n text hr
      rcases State.run_eq_or_exceeds h fuel (.start main) "" with heq | ⟨t, text', hrun, hpath⟩
      · obtain ⟨t, hpath⟩ := State.exists_path_of_run (heq.trans hr)
        exact .of_path hmain hpath
      · cases hr.symm.trans hrun
        exact .of_path hmain hpath
    · intro hr fuel
      rcases State.run_eq_or_exceeds h fuel (.start main) "" with heq | ⟨t, text, hrun, -⟩
      · exact heq.trans (hr fuel)
      · cases (hr fuel).symm.trans hrun

def descent : List Block :=
  [⟨"main", [.mov (.str "down") (.reg .ra), .call "print", .call "bottom", .ret]⟩,
    ⟨"bottom", [.mov (.int 7) (.reg .ra), .ret]⟩]

theorem run_allowing_descent :
    (ofBlocks descent).run ⟨2, none⟩ 10 = some ⟨.ok (.returned (.int 7)), "down\n"⟩ ∧
      (ofBlocks descent).run ⟨1024, none⟩ 10 = some ⟨.ok (.returned (.int 7)), "down\n"⟩ ∧
      (ofBlocks descent).run ⟨1, none⟩ 10 = some ⟨.error (.tooManyCalls 1), "down\n"⟩ ∧
      (ofBlocks descent).PrintsFirst ⟨2, none⟩ "down\n" := by
  have enough : (ofBlocks descent).run ⟨2, none⟩ 10 =
      some ⟨.ok (.returned (.int 7)), "down\n"⟩ := by
    decide +kernel
  have exceeded : (ofBlocks descent).run ⟨1, none⟩ 10 =
      some ⟨.error (.tooManyCalls 1), "down\n"⟩ := by
    decide +kernel
  have raised := (@run_allowing ⟨2, none⟩ 1024 (by decide) (ofBlocks descent)).1 10 _ enough nofun
  have prints := (@run_allowing ⟨1, none⟩ 2 (by decide) (ofBlocks descent)).2.1 10 _ _ exceeded
  exact ⟨enough, raised, exceeded, prints⟩

end Image

end BlueCode
