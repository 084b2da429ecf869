import BlueCode.Machine

namespace BlueCode

namespace Transition

def next? : Transition → Option State
  | moved s | printed _ s | entered s | left s => some s
  | halted _ => none

def text : Transition → String
  | printed text _ => text
  | _ => ""

end Transition

/-- The first state leads to the second one. What has been printed before and after stands beside
the states. -/
inductive Path (settings : Settings) (image : Image) :
    State → String → State → String → Prop where
  | refl (s : State) (out : String) : Path settings image s out s out
  | head {s next t : State} {out out' : String} {transition : Transition} :
      s.step settings image = .ok transition → transition.next? = some next →
      Path settings image next (out ++ transition.text) t out' →
      Path settings image s out t out'

namespace State

/-- The states that a run of the image can be in. -/
inductive Reachable (settings : Settings) (image : Image) : State → Prop where
  | start {main : Routine} :
      image.find? "main" = some main → Reachable settings image (.start main)
  | step {s next : State} {transition : Transition} :
      Reachable settings image s → s.step settings image = .ok transition →
      transition.next? = some next → Reachable settings image next

/-- The run from the state comes to an end, with the given outcome. -/
def Ends (settings : Settings) (image : Image) (s : State) (out : String) (o : Outcome) : Prop :=
  ∃ fuel, s.run settings image fuel out = some o

/-- The run from the state is not over after fewer than the given number of steps. -/
def Lasts (settings : Settings) (image : Image) (n : Nat) (s : State) : Prop :=
  ∀ out, s.run settings image n out = none

variable {settings : Settings} {image : Image}

theorem run_next {s next : State} {transition : Transition}
    (hs : s.step settings image = .ok transition) (hn : transition.next? = some next)
    (fuel : Nat) (out : String) :
    s.run settings image (fuel + 1) out =
      next.run settings image fuel (out ++ transition.text) := by
  cases transition <;>
    simp_all [run, Transition.next?, Transition.text]

theorem run_error {s : State} {e : RunError} (hs : s.step settings image = .error e)
    (fuel : Nat) (out : String) :
    s.run settings image (fuel + 1) out = some ⟨.error e, out⟩ := by
  simp only [run, hs]

theorem run_halted {s : State} {halt : Halt} (hs : s.step settings image = .ok (.halted halt))
    (fuel : Nat) (out : String) :
    s.run settings image (fuel + 1) out = some ⟨.ok halt, out⟩ := by
  simp only [run, hs]

/-- One more step to spare does not change an outcome. -/
theorem run_succ {s : State} {fuel : Nat} {out : String} {o : Outcome}
    (h : s.run settings image fuel out = some o) :
    s.run settings image (fuel + 1) out = some o := by
  induction fuel generalizing s out with
  | zero => cases h
  | succ fuel ih =>
    cases hs : s.step settings image with
    | error e => rw [run_error hs] at h ⊢; exact h
    | ok transition =>
      cases hn : transition.next? with
      | some next =>
        rw [run_next hs hn] at h ⊢
        exact ih h
      | none =>
        cases transition with
        | halted halt => rw [run_halted hs] at h ⊢; exact h
        | _ => cases hn

theorem run_le {s : State} {m n : Nat} {out : String} {o : Outcome}
    (h : s.run settings image m out = some o) (hle : m ≤ n) :
    s.run settings image n out = some o := by
  induction hle with
  | refl => exact h
  | step _ ih => exact run_succ ih

theorem exists_error {s : State} {fuel : Nat} {out : String} {o : Outcome} {e : RunError}
    (hs : s.Reachable settings image) (h : s.run settings image fuel out = some o)
    (he : o.result = .error e) :
    ∃ t : State, t.Reachable settings image ∧ t.step settings image = .error e := by
  induction fuel generalizing s out with
  | zero => cases h
  | succ fuel ih =>
    cases hstep : s.step settings image with
    | error e' =>
      rw [run_error hstep] at h
      cases h
      cases he
      exact ⟨s, hs, hstep⟩
    | ok transition =>
      cases hn : transition.next? with
      | some next =>
        rw [run_next hstep hn] at h
        exact ih (.step hs hstep hn) h
      | none =>
        cases transition with
        | halted halt =>
          rw [run_halted hstep] at h
          cases h
          cases he
        | _ => cases hn

theorem Ends.unique {s : State} {out : String} {o o' : Outcome}
    (h : s.Ends settings image out o) (h' : s.Ends settings image out o') : o = o' := by
  obtain ⟨m, hm⟩ := h
  obtain ⟨n, hn⟩ := h'
  have hm' := run_le hm (Nat.le_max_left m n)
  have hn' := run_le hn (Nat.le_max_right m n)
  exact Option.some.inj (hm'.symm.trans hn')

theorem Ends.of_error {s : State} {e : RunError} (hs : s.step settings image = .error e)
    (out : String) : s.Ends settings image out ⟨.error e, out⟩ :=
  ⟨1, run_error hs 0 out⟩

theorem Ends.of_halted {s : State} {halt : Halt}
    (hs : s.step settings image = .ok (.halted halt)) (out : String) :
    s.Ends settings image out ⟨.ok halt, out⟩ :=
  ⟨1, run_halted hs 0 out⟩

theorem Ends.of_next {s next : State} {transition : Transition} {out : String} {o : Outcome}
    (hs : s.step settings image = .ok transition) (hn : transition.next? = some next)
    (h : next.Ends settings image (out ++ transition.text) o) : s.Ends settings image out o := by
  obtain ⟨fuel, hf⟩ := h
  exact ⟨fuel + 1, (run_next hs hn fuel out).trans hf⟩

theorem Lasts.zero (s : State) : s.Lasts settings image 0 :=
  fun _ => rfl

theorem Lasts.mono {s : State} {m n : Nat} (h : s.Lasts settings image n) (hle : m ≤ n) :
    s.Lasts settings image m := by
  intro out
  cases hr : s.run settings image m out with
  | none => rfl
  | some o => exact absurd (run_le hr hle) (by rw [h out]; simp)

theorem Lasts.succ {s next : State} {transition : Transition} {n : Nat}
    (hs : s.step settings image = .ok transition) (hn : transition.next? = some next)
    (h : next.Lasts settings image n) : s.Lasts settings image (n + 1) := by
  intro out
  rw [run_next hs hn]
  exact h _

end State

namespace Path

variable {settings : Settings} {image : Image} {s t u : State} {out out' out'' : String}

theorem trans (h : Path settings image s out t out') (h' : Path settings image t out' u out'') :
    Path settings image s out u out'' := by
  induction h with
  | refl => exact h'
  | head hs hn _ ih => exact .head hs hn (ih h')

theorem single {transition : Transition} (hs : s.step settings image = .ok transition)
    (hn : transition.next? = some t) :
    Path settings image s out t (out ++ transition.text) :=
  .head hs hn (.refl ..)

theorem silent {transition : Transition} (hs : s.step settings image = .ok transition)
    (hn : transition.next? = some t) (ht : transition.text = "") :
    Path settings image s out t out := by
  have h : Path settings image s out t (out ++ transition.text) := single hs hn
  rwa [ht, String.append_empty] at h

theorem moved (hs : s.step settings image = .ok (.moved t)) :
    Path settings image s out t out :=
  silent hs rfl rfl

theorem ends {o : Outcome} (h : Path settings image s out t out')
    (ht : t.Ends settings image out' o) : s.Ends settings image out o := by
  induction h with
  | refl => exact ht
  | head hs hn _ ih => exact .of_next hs hn (ih ht)

theorem lasts {n : Nat} (h : Path settings image s out t out') (ht : t.Lasts settings image n) :
    s.Lasts settings image n := by
  induction h with
  | refl => exact ht
  | head hs hn _ ih => exact ((ih ht).succ hs hn).mono (Nat.le_succ n)

end Path

end BlueCode
