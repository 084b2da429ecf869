import BlueCode.Proofs.Evaluation
import BlueCode.Proofs.ProgramImage

namespace BlueCode

open Compile

namespace Calls

def At (c : Calls) (code : List Instruction) : Prop :=
  code <+: c.frame.routine.code.toList.drop c.frame.position

/-- The accumulator, the variables and the output are those of a store. -/
structure Shows (names : List String) (c : Calls) (out : String) (s : Store) : Prop where
  accumulator : c.get .ra = s.accumulator
  values : ∀ (k : Nat) (name : String), names[k]? = some name →
    c.heap.get? (c.frame.base + k) = s.values name
  output : out = s.output

/-- The same call later on, with the same values on the stack. The cells of the calls that wait have
not been touched. -/
structure Keeps (c c' : Calls) : Prop where
  routine : c'.frame.routine = c.frame.routine
  base : c'.frame.base = c.frame.base
  waiting : c'.waiting = c.waiting
  callers : c'.callers = c.callers
  below : ∀ cell < (c.frame.base : Int), c'.heap.get? cell = c.heap.get? cell

/-- The same call so many instructions further on, where a store is shown. -/
structure Arrives (names : List String) (c : Calls) (length : Nat) (s : Store) (c' : Calls)
    (out : String) : Prop where
  keeps : c.Keeps c'
  position : c'.frame.position = c.frame.position + length
  shows : c'.Shows names out s

variable {c c' c'' : Calls} {names : List String} {out : String} {s : Store}

namespace At

variable {i : Instruction} {first rest code : List Instruction}

theorem head (h : c.At (i :: rest)) : c.instruction? = some i := by
  obtain ⟨after, hafter⟩ := h
  have hhead := congrArg (·[0]?) hafter
  simpa [instruction?, Frame.instruction?] using hhead.symm

theorem left (h : c.At (first ++ rest)) : c.At first :=
  (List.prefix_append first rest).trans h

theorem right (h : c.At (first ++ rest)) (hr : c'.frame.routine = c.frame.routine)
    (hp : c'.frame.position = c.frame.position + first.length) : c'.At rest := by
  obtain ⟨after, hafter⟩ := h
  refine ⟨after, ?_⟩
  rw [hr, hp, ← List.drop_drop, ← hafter, List.append_assoc, List.drop_left]

theorem congr (h : c.At code) (hr : c'.frame.routine = c.frame.routine)
    (hp : c'.frame.position = c.frame.position) : c'.At code :=
  @right c c' [] code h hr hp

theorem tail (h : c.At (i :: rest)) (hr : c'.frame.routine = c.frame.routine)
    (hp : c'.frame.position = c.frame.position + 1) : c'.At rest :=
  @right c c' [i] rest h hr hp

theorem advance (h : c.At (i :: rest)) : c.advance.At rest :=
  h.tail rfl rfl

theorem getElem? (h : c.At (first ++ i :: rest)) :
    c.frame.routine.code[c.frame.position + first.length]? = some i := by
  have hright : (c.goto (c.frame.position + first.length)).At (i :: rest) := h.right rfl rfl
  exact hright.head

end At

namespace Keeps

theorem refl (c : Calls) : c.Keeps c :=
  ⟨rfl, rfl, rfl, rfl, fun _ _ => rfl⟩

theorem trans (h : c.Keeps c') (h' : c'.Keeps c'') : c.Keeps c'' where
  routine := h'.routine.trans h.routine
  base := h'.base.trans h.base
  waiting := h'.waiting.trans h.waiting
  callers := h'.callers.trans h.callers
  below cell hcell := (h'.below cell (h.base ▸ hcell)).trans (h.below cell hcell)

theorem goto (c : Calls) (position : Nat) : c.Keeps (c.goto position) :=
  ⟨rfl, rfl, rfl, rfl, fun _ _ => rfl⟩

end Keeps

theorem Shows.congr (h : c.Shows names out s) (ha : c'.get .ra = c.get .ra)
    (hb : c'.frame.base = c.frame.base) (hh : c'.heap = c.heap) : c'.Shows names out s where
  accumulator := ha.trans h.accumulator
  values k name hk := by
    rw [hb, hh]
    exact h.values k name hk
  output := h.output

theorem Shows.goto (h : c.Shows names out s) (position : Nat) :
    (c.goto position).Shows names out s :=
  h.congr rfl rfl rfl

theorem Shows.keep (h : c.Shows names out s) (v : Value) :
    (c.set .ra v).advance.Shows names out (s.keep v) where
  accumulator := get_set_same c .ra v
  values := h.values
  output := h.output

theorem Shows.assign (h : c.Shows names out s) (hd : names.Nodup) {k : Nat} {name : String}
    (hk : names[k]? = some name) :
    ({ c with heap := c.heap.set (c.frame.base + k) (c.get .ra) }).Shows names out
      (s.assign name) where
  accumulator := h.accumulator
  values l other hl := by
    simp only [Memory.get?_set, Store.assign]
    by_cases he : other = name
    · have hkl : k = l := by
        obtain ⟨hk', hkn⟩ := List.getElem?_eq_some_iff.1 hk
        obtain ⟨hl', hln⟩ := List.getElem?_eq_some_iff.1 hl
        exact (List.Nodup.getElem_inj_iff hd).1 (hkn.trans (he.symm.trans hln.symm))
      rw [if_pos he, hkl, if_pos rfl, h.accumulator]
    · have hkl : ¬ (c.frame.base + k : Int) = c.frame.base + l := by
        intro heq
        have hkl : k = l := by omega
        rw [hkl] at hk
        exact he (Option.some.inj (hl.symm.trans hk))
      rw [if_neg he, if_neg hkl]
      exact h.values l other hl
  output := h.output

theorem Arrives.trans {m n : Nat} {s' : Store} {out' : String}
    (h : Arrives names c m s c' out) (h' : Arrives names c' n s' c'' out') :
    Arrives names c (m + n) s' c'' out' where
  keeps := h.keeps.trans h'.keeps
  position := by rw [h'.position, h.position, Nat.add_assoc]
  shows := h'.shows

end Calls

/-- The machine carries out an evaluation from the given calls. -/
inductive Realizes (settings : Settings) (image : Image) (limit fuel : Nat) {α : Type}
    (post : α → Calls → String → Prop) (c : Calls) (out : String) : Evaluation α → Prop where
  | done {a : α} {c' : Calls} {out' : String} : Path settings image c.state out c'.state out' →
      c'.Proper settings image limit → post a c' out' →
      Realizes settings image limit fuel post c out (.done a)
  | ended {o : Outcome} : c.state.Ends settings image out o →
      Realizes settings image limit fuel post c out (.ended o)
  | unfinished : c.state.Lasts settings image fuel →
      Realizes settings image limit fuel post c out .unfinished

namespace Realizes

variable {settings : Settings} {image : Image} {limit fuel : Nat} {α β : Type}
  {post : α → Calls → String → Prop} {post' : β → Calls → String → Prop} {c c' : Calls}
  {out out' : String} {x : Evaluation α}

theorem pure {a : α} (hc : c.Proper settings image limit) (h : post a c out) :
    Realizes settings image limit fuel post c out (.done a) :=
  .done (.refl ..) hc h

theorem path (hp : Path settings image c.state out c'.state out')
    (h : Realizes settings image limit fuel post c' out' x) :
    Realizes settings image limit fuel post c out x := by
  cases h with
  | done hp' hc h => exact .done (hp.trans hp') hc h
  | ended h => exact .ended (hp.ends h)
  | unfinished h => exact .unfinished (hp.lasts h)

theorem moved (hs : c.state.step settings image = .ok (.moved c'.state))
    (h : Realizes settings image limit fuel post c' out x) :
    Realizes settings image limit fuel post c out x :=
  h.path (.moved hs)

theorem later (hs : c.state.step settings image = .ok (.moved c'.state))
    (h : Realizes settings image limit fuel post c' out x) :
    Realizes settings image limit (fuel + 1) post c out x := by
  cases h with
  | done hp hc h => exact .done ((Path.moved hs).trans hp) hc h
  | ended h => exact .ended ((Path.moved hs).ends h)
  | unfinished h => exact .unfinished (h.succ hs rfl)

theorem lower {n : Nat} (h : Realizes settings image limit fuel post c out x) (hle : n ≤ fuel) :
    Realizes settings image limit n post c out x := by
  cases h with
  | done hp hc h => exact .done hp hc h
  | ended h => exact .ended h
  | unfinished h => exact .unfinished (h.mono hle)

theorem error {e : RunError} (hs : c.state.step settings image = .error e) :
    Realizes settings image limit fuel post c out (.ended ⟨.error e, out⟩) :=
  .ended (.of_error hs out)

theorem bind {f : α → Evaluation β} (h : Realizes settings image limit fuel post c out x)
    (hf : ∀ a c' out', c'.Proper settings image limit → post a c' out' →
      Realizes settings image limit fuel post' c' out' (f a)) :
    Realizes settings image limit fuel post' c out (x >>= f) := by
  cases h with
  | done hp hc h => exact (hf _ _ _ hc h).path hp
  | ended h => exact .ended h
  | unfinished h => exact .unfinished h

theorem exists_path {a : α} (h : Realizes settings image limit fuel post c out (.done a)) :
    ∃ c' out', Path settings image c.state out c'.state out' ∧ c'.Proper settings image limit ∧
      post a c' out' := by
  cases h with
  | done hp hc h => exact ⟨_, _, hp, hc, h⟩

theorem onward {post' : α → Calls → String → Prop}
    (h : Realizes settings image limit fuel post c out x)
    (hf : ∀ a c' out', c'.Proper settings image limit → post a c' out' →
      Realizes settings image limit fuel post' c' out' (.done a)) :
    Realizes settings image limit fuel post' c out x := by
  cases h with
  | done hp hc h => exact (hf _ _ _ hc h).path hp
  | ended h => exact .ended h
  | unfinished h => exact .unfinished h

theorem mono {post' : α → Calls → String → Prop}
    (h : Realizes settings image limit fuel post c out x)
    (hpost : ∀ a c' out', post a c' out' → post' a c' out') :
    Realizes settings image limit fuel post' c out x :=
  h.onward fun a c' out' hc hr => .pure hc (hpost a c' out' hr)

end Realizes

end BlueCode
