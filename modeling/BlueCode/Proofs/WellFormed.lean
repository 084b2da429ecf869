import BlueCode.Program.Compile
import Mathlib.Data.List.Nodup

namespace BlueCode

section

variable {α ε β γ : Type} {wrong : List α → α → ε → Prop} {before items more : List α} {item : α}
  {e : ε}

def Faultless (wrong : List α → α → ε → Prop) (before items : List α) : Prop :=
  ∀ front item rest, items = front ++ item :: rest → ∀ e, ¬ wrong (before ++ front) item e

/-- The first item that is wrong with what comes before it is wrong in this way. -/
def First (wrong : List α → α → ε → Prop) (before items : List α) (e : ε) : Prop :=
  ∃ front item rest, items = front ++ item :: rest ∧ Faultless wrong before front ∧
    wrong (before ++ front) item e

theorem faultless_nil : Faultless wrong before [] := by
  intro front item rest h
  exact absurd h.symm (by simp)

theorem faultless_cons : Faultless wrong before (item :: items) ↔
    (∀ e, ¬ wrong before item e) ∧ Faultless wrong (before ++ [item]) items := by
  constructor
  · intro h
    refine ⟨fun e => ?_, fun front other rest hitems e => ?_⟩
    · have hitem := h [] item items rfl e
      rw [List.append_nil] at hitem
      exact hitem
    · have hother := h (item :: front) other rest (congrArg (item :: ·) hitems) e
      rw [List.append_cons] at hother
      exact hother
  · rintro ⟨hitem, hitems⟩ front other rest h e
    cases front with
    | nil =>
      cases h
      rw [List.append_nil]
      exact hitem e
    | cons first front =>
      cases h
      rw [List.append_cons]
      exact hitems front other rest rfl e

theorem faultless_append : Faultless wrong before (items ++ more) ↔
    Faultless wrong before items ∧ Faultless wrong (before ++ items) more := by
  induction items generalizing before with
  | nil => simp [faultless_nil]
  | cons item items ih =>
    rw [List.cons_append, faultless_cons, ih, faultless_cons, and_assoc,
      List.append_cons before item items]

theorem First.not_faultless (h : First wrong before items e) : ¬ Faultless wrong before items := by
  obtain ⟨front, item, rest, hitems, -, hwrong⟩ := h
  exact fun hno => hno front item rest hitems e hwrong

theorem First.append_left (h : First wrong before items e) (more : List α) :
    First wrong before (items ++ more) e := by
  obtain ⟨front, item, rest, rfl, hfront, hwrong⟩ := h
  exact ⟨front, item, rest ++ more, by simp, hfront, hwrong⟩

theorem First.append_right (hno : Faultless wrong before items)
    (h : First wrong (before ++ items) more e) : First wrong before (items ++ more) e := by
  obtain ⟨front, item, rest, rfl, hfront, hwrong⟩ := h
  refine ⟨items ++ front, item, rest, by simp, faultless_append.2 ⟨hno, hfront⟩, ?_⟩
  rw [← List.append_assoc]
  exact hwrong

theorem faultless_iff_forall_not_first :
    Faultless wrong before items ↔ ∀ e, ¬ First wrong before items e := by
  constructor
  · exact fun hno e hfirst => hfirst.not_faultless hno
  · intro h
    induction items generalizing before with
    | nil => exact faultless_nil
    | cons item items ih =>
      have hitem : ∀ e, ¬ wrong before item e := by
        intro e hwrong
        refine h e ⟨[], item, items, rfl, faultless_nil, ?_⟩
        rw [List.append_nil]
        exact hwrong
      have hone : Faultless wrong before [item] := faultless_cons.2 ⟨hitem, faultless_nil⟩
      exact faultless_cons.2 ⟨hitem, ih fun e hfirst => h e (hfirst.append_right hone)⟩

theorem First.unique {e' : ε} (h : First wrong before items e) (h' : First wrong before items e')
    (hu : ∀ {before item e e'}, wrong before item e → wrong before item e' → e = e') : e = e' := by
  obtain ⟨front, item, rest, hitems, hno, hwrong⟩ := h
  obtain ⟨front', item', rest', hitems', hno', hwrong'⟩ := h'
  -- The item that comes before the other one would be wrong and not wrong.
  rcases List.append_eq_append_iff.1 (hitems.symm.trans hitems') with
    ⟨between, rfl, hrest⟩ | ⟨between, rfl, hrest⟩
  · cases between with
    | nil =>
      cases hrest
      rw [List.append_nil] at hwrong'
      exact hu hwrong hwrong'
    | cons other between =>
      cases hrest
      exact absurd hwrong (hno' front item between rfl e)
  · cases between with
    | nil =>
      cases hrest
      rw [List.append_nil] at hwrong
      exact hu hwrong hwrong'
    | cons other between =>
      cases hrest
      exact absurd hwrong' (hno front' item' between rfl e')

/-- The computation gives a result if no item is wrong, and else fails in the way in which the first
wrong one is wrong. -/
inductive Detects (wrong : List α → α → ε → Prop) (before items : List α) : Except ε β → Prop where
  | ok {b : β} : Faultless wrong before items → Detects wrong before items (.ok b)
  | error {e : ε} : First wrong before items e → Detects wrong before items (.error e)

namespace Detects

variable {x : Except ε β} {f : β → Except ε γ}

theorem bind (h : Detects wrong before items x)
    (hf : ∀ b, x = .ok b → Detects wrong (before ++ items) more (f b)) :
    Detects wrong before (items ++ more) (x >>= f) := by
  cases h with
  | error hfirst => exact .error (hfirst.append_left more)
  | @ok b hno =>
    have hmore := hf b rfl
    change Detects wrong before (items ++ more) (f b)
    generalize f b = y at hmore
    cases hmore with
    | ok hno' => exact .ok (faultless_append.2 ⟨hno, hno'⟩)
    | error hfirst => exact .error (hfirst.append_right hno)

theorem bind_ok (h : Detects wrong before items x) (g : β → γ) :
    Detects wrong before items (x >>= fun b => .ok (g b)) := by
  cases h with
  | ok hno => exact .ok hno
  | error hfirst => exact .error hfirst

theorem fail (h : wrong before item e) (items : List α) :
    Detects wrong before (item :: items) (.error e : Except ε β) := by
  refine .error ⟨[], item, items, rfl, faultless_nil, ?_⟩
  rw [List.append_nil]
  exact h

theorem cons (h : ∀ e, ¬ wrong before item e) (hitems : Detects wrong (before ++ [item]) items x) :
    Detects wrong before (item :: items) x := by
  have hitem : Faultless wrong before [item] := faultless_cons.2 ⟨h, faultless_nil⟩
  cases hitems with
  | ok hno => exact .ok (faultless_cons.2 ⟨h, hno⟩)
  | error hfirst => exact .error (hfirst.append_right hitem)

theorem pass (h : ∀ e, ¬ wrong before item e) (b : β) : Detects wrong before [item] (.ok b) :=
  .cons h (.ok faultless_nil)

theorem mapM {f : α → Except ε β} (h : ∀ before, ∀ item ∈ items, Detects wrong before [item] (f item)) :
    Detects wrong before items (items.mapM f) := by
  induction items generalizing before with
  | nil => exact .ok faultless_nil
  | cons item items ih =>
    rw [List.mapM_cons]
    have hitem := h before item List.mem_cons_self
    refine hitem.bind fun b _ => ?_
    exact (ih fun before other hother => h before other (List.mem_cons_of_mem item hother)).bind_ok _

theorem ok_iff (h : Detects wrong before items x) :
    (∃ b, x = .ok b) ↔ Faultless wrong before items := by
  cases h with
  | @ok b hno => exact ⟨fun _ => hno, fun _ => ⟨b, rfl⟩⟩
  | error hfirst => exact ⟨fun ⟨_, h⟩ => (nomatch h), fun hno => absurd hno hfirst.not_faultless⟩

end Detects

end

inductive Mention where
  | text (s : String)
  | read (name : String)
  | target (e : Expr)
  | call (name : String) (count : Nat)
  /-- The end of a declaration. -/
  | declare (name : String)
  | leave (inLoop : Bool)

mutual

/-- What is mentioned in an expression: the left side of `=` before what is on the right, and a call
before its arguments. -/
def Expr.mentions : Expr → List Mention
  | .literal (.str s) => [.text s]
  | .literal _ => []
  | .ident name => [.read name]
  | .assign target value => .target target :: value.mentions
  | .arith _ left right => left.mentions ++ right.mentions
  | .compare _ left right => left.mentions ++ right.mentions
  | .call name args => .call name args.length :: Expr.listMentions args

def Expr.listMentions : List Expr → List Mention
  | [] => []
  | e :: rest => e.mentions ++ Expr.listMentions rest

end

mutual

def Stmt.mentions (inLoop : Bool) : Stmt → List Mention
  | .declare name value => value.mentions ++ [.declare name]
  | .ret none => []
  | .ret (some value) => value.mentions
  | .branch condition onTrue none => condition.mentions ++ Stmt.listMentions inLoop onTrue
  | .branch condition onTrue (some onFalse) =>
    condition.mentions ++ (Stmt.listMentions inLoop onTrue ++ Stmt.listMentions inLoop onFalse)
  | .loop condition body => condition.mentions ++ Stmt.listMentions true body
  | .leave => [.leave inLoop]
  | .effect e => e.mentions

def Stmt.listMentions (inLoop : Bool) : List Stmt → List Mention
  | [] => []
  | s :: rest => s.mentions inLoop ++ Stmt.listMentions inLoop rest

end

namespace Function

def mentions (f : Function) : List Mention :=
  Stmt.listMentions false f.body

/-- The variable is the parameter, or a declaration of it has come to its end, in whatever
branch. -/
def Knows (f : Function) (before : List Mention) (name : String) : Prop :=
  name ∈ f.params ∨ .declare name ∈ before

/-- How the head of a function violates the rules after those of other functions. -/
inductive Misdeclared (before : List Function) (f : Function) : CompileError → Prop where
  | parameters : 1 < f.params.length →
      Misdeclared before f (.tooManyParameters f.name f.params.length)
  | duplicate : f.params.length ≤ 1 → f.name ∈ before.map name →
      Misdeclared before f (.duplicateFunction f.name)

end Function

def Unwritable (s : String) : Prop :=
  '"' ∈ s.toList ∨ '\n' ∈ s.toList ∨ '\r' ∈ s.toList

namespace Program

/-- How a mention in the body of a function violates the rules. -/
inductive Violates (p : Program) (f : Function) (before : List Mention) :
    Mention → CompileError → Prop where
  | text {s : String} : Unwritable s → Violates p f before (.text s) (.invalidString s f.name)
  | read {name : String} : ¬ f.Knows before name →
      Violates p f before (.read name) (.undefinedVariable name f.name)
  | assigned {name : String} : ¬ f.Knows before name →
      Violates p f before (.target (.ident name)) (.undefinedVariable name f.name)
  | target {e : Expr} : (∀ name, e ≠ .ident name) →
      Violates p f before (.target e) (.invalidTarget f.name)
  | builtin {name : String} {builtin : Builtin} {count : Nat} : Builtin.ofName? name = some builtin →
      ¬ (builtin.arity.1 ≤ count ∧ count ≤ builtin.arity.2) →
      Violates p f before (.call name count)
        (.arityMismatch name builtin.arity.1 builtin.arity.2 count)
  | call {name : String} {g : Function} {count : Nat} : Builtin.ofName? name = none →
      g ∈ p.functions → g.name = name → count ≠ g.params.length →
      Violates p f before (.call name count)
        (.arityMismatch name g.params.length g.params.length count)
  | leave : Violates p f before (.leave false) (.breakOutsideLoop f.name)

def FirstInBody (p : Program) (f : Function) (e : CompileError) : Prop :=
  First (p.Violates f) [] f.mentions e

/-- The first violation of the program: those in the heads of the functions come before those in the
bodies. -/
def FirstViolation (p : Program) (e : CompileError) : Prop :=
  First Function.Misdeclared [] p.functions e ∨
    Faultless Function.Misdeclared [] p.functions ∧
      First (fun _ f => p.FirstInBody f) [] p.functions e

structure Allows (p : Program) (f : Function) : Prop where
  leaves : .leave false ∉ f.mentions
  targets : ∀ e, .target e ∈ f.mentions → ∃ name, e = .ident name
  known : ∀ before name rest, f.mentions = before ++ .read name :: rest ∨
    f.mentions = before ++ .target (.ident name) :: rest → f.Knows before name
  builtins : ∀ name count builtin, .call name count ∈ f.mentions →
    Builtin.ofName? name = some builtin → builtin.arity.1 ≤ count ∧ count ≤ builtin.arity.2
  calls : ∀ name count, .call name count ∈ f.mentions → Builtin.ofName? name = none →
    ∀ g ∈ p.functions, g.name = name → count = g.params.length
  strings : ∀ s, .text s ∈ f.mentions → ¬ Unwritable s

/-- The program follows the rules. -/
structure WellFormed (p : Program) : Prop where
  parameters : ∀ f ∈ p.functions, f.params.length ≤ 1
  names : (p.functions.map Function.name).Nodup
  bodies : ∀ f ∈ p.functions, p.Allows f

theorem misdeclared_unique {before : List Function} {f : Function} {e e' : CompileError}
    (h : f.Misdeclared before e) (h' : f.Misdeclared before e') : e = e' := by
  cases h with
  | parameters hp =>
    cases h' with
    | parameters => rfl
    | duplicate hp' => exact absurd hp (Nat.not_lt.2 hp')
  | duplicate hp =>
    cases h' with
    | parameters hp' => exact absurd hp' (Nat.not_lt.2 hp)
    | duplicate => rfl

theorem faultless_misdeclared_iff {fs before : List Function} :
    Faultless Function.Misdeclared before fs ↔ (∀ f ∈ fs, f.params.length ≤ 1) ∧
      (∀ f ∈ fs, f.name ∉ before.map Function.name) ∧ (fs.map Function.name).Nodup := by
  induction fs generalizing before with
  | nil => simp [faultless_nil]
  | cons f fs ih =>
    have hhead : (∀ e, ¬ f.Misdeclared before e) ↔
        f.params.length ≤ 1 ∧ f.name ∉ before.map Function.name := by
      constructor
      · intro h
        have hp : f.params.length ≤ 1 := Nat.not_lt.1 fun hp => h _ (.parameters hp)
        exact ⟨hp, fun hd => h _ (.duplicate hp hd)⟩
      · rintro ⟨hp, hd⟩ e (hp' | ⟨-, hd'⟩)
        · exact Nat.not_lt.2 hp hp'
        · exact hd hd'
    rw [faultless_cons, hhead, ih]
    simp only [List.forall_mem_cons, List.map_append, List.map_cons, List.map_nil, List.mem_append,
      List.mem_singleton, not_or, List.nodup_cons, List.mem_map, not_exists, not_and]
    grind

theorem allows_iff {p : Program} {f : Function} :
    p.Allows f ↔ Faultless (p.Violates f) [] f.mentions := by
  constructor
  · intro h front m rest hm e hwrong
    have hmem : m ∈ f.mentions := by
      rw [hm]
      exact List.mem_append_right _ List.mem_cons_self
    rw [List.nil_append] at hwrong
    cases hwrong with
    | text hs => exact h.strings _ hmem hs
    | read hnot => exact hnot (h.known front _ rest (.inl hm))
    | assigned hnot => exact hnot (h.known front _ rest (.inr hm))
    | target hnot =>
      obtain ⟨name, he⟩ := h.targets _ hmem
      exact hnot name he
    | builtin hb hnot => exact hnot (h.builtins _ _ _ hmem hb)
    | call hb hg hname hne => exact hne (h.calls _ _ hmem hb _ hg hname)
    | leave => exact h.leaves hmem
  · intro h
    have hmem {m : Mention} (hm : m ∈ f.mentions) :
        ∃ front, ∀ e, ¬ p.Violates f front m e := by
      obtain ⟨front, rest, hsplit⟩ := List.append_of_mem hm
      exact ⟨front, h front m rest hsplit⟩
    refine ⟨fun hm => ?_, fun e hm => ?_, fun front name rest hsplit => ?_,
      fun name count builtin hm hb => ?_, fun name count hm hb g hg hname => ?_, fun s hm hs => ?_⟩
    · obtain ⟨front, hno⟩ := hmem hm
      exact hno _ .leave
    · obtain ⟨front, hno⟩ := hmem hm
      by_contra hnot
      exact hno _ (.target fun name he => hnot ⟨name, he⟩)
    · by_contra hnot
      rcases hsplit with hsplit | hsplit
      · exact h front _ rest hsplit _ (.read hnot)
      · exact h front _ rest hsplit _ (.assigned hnot)
    · obtain ⟨front, hno⟩ := hmem hm
      by_contra hnot
      exact hno _ (.builtin hb hnot)
    · obtain ⟨front, hno⟩ := hmem hm
      by_contra hne
      exact hno _ (.call hb hg hname hne)
    · obtain ⟨front, hno⟩ := hmem hm
      exact hno _ (.text hs)

theorem faultless_bodies_iff {p : Program} :
    Faultless (fun _ f => p.FirstInBody f) [] p.functions ↔ ∀ f ∈ p.functions, p.Allows f := by
  have hbody (f : Function) : (∀ e, ¬ p.FirstInBody f e) ↔ p.Allows f :=
    faultless_iff_forall_not_first.symm.trans allows_iff.symm
  constructor
  · intro h f hf
    obtain ⟨front, rest, hsplit⟩ := List.append_of_mem hf
    exact (hbody f).1 (h front f rest hsplit)
  · intro h front f rest hsplit
    refine (hbody f).2 (h f ?_)
    rw [hsplit]
    exact List.mem_append_right _ List.mem_cons_self

theorem wellFormed_iff {p : Program} : p.WellFormed ↔
    Faultless Function.Misdeclared [] p.functions ∧
      Faultless (fun _ f => p.FirstInBody f) [] p.functions := by
  rw [faultless_misdeclared_iff, faultless_bodies_iff]
  constructor
  · exact fun h => ⟨⟨h.parameters, fun _ _ => List.not_mem_nil, h.names⟩, h.bodies⟩
  · exact fun ⟨⟨hp, _, hd⟩, hb⟩ => ⟨hp, hd, hb⟩

/-- A mention violates the rules in one way only. -/
theorem Violates.unique {p : Program} {f : Function} {before : List Mention} {m : Mention}
    {e e' : CompileError} (hd : (p.functions.map Function.name).Nodup) (h : p.Violates f before m e)
    (h' : p.Violates f before m e') : e = e' := by
  cases h with
  | text => cases h'; rfl
  | read => cases h'; rfl
  | assigned =>
    cases h' with
    | assigned => rfl
    | target hnot => exact absurd rfl (hnot _)
  | target hnot =>
    cases h' with
    | assigned => exact absurd rfl (hnot _)
    | target => rfl
  | builtin hb =>
    cases h' with
    | builtin hb' =>
      cases hb.symm.trans hb'
      rfl
    | call hb' => cases hb.symm.trans hb'
  | call hb hg hname =>
    cases h' with
    | builtin hb' => cases hb.symm.trans hb'
    | call _ hg' hname' =>
      rw [List.inj_on_of_nodup_map hd hg hg' (hname.trans hname'.symm)]
  | leave => cases h'; rfl

theorem FirstInBody.unique {p : Program} {f : Function} {e e' : CompileError}
    (hd : (p.functions.map Function.name).Nodup) (h : p.FirstInBody f e)
    (h' : p.FirstInBody f e') : e = e' :=
  First.unique h h' (Violates.unique hd)

theorem FirstViolation.unique {p : Program} {e e' : CompileError} (h : p.FirstViolation e)
    (h' : p.FirstViolation e') : e = e' := by
  rcases h with h | ⟨hno, h⟩
  · rcases h' with h' | ⟨hno', -⟩
    · exact First.unique h h' misdeclared_unique
    · exact absurd hno' h.not_faultless
  · rcases h' with h' | ⟨-, h'⟩
    · exact absurd hno h'.not_faultless
    · have hd := (faultless_misdeclared_iff.1 hno).2.2
      exact First.unique h h' (FirstInBody.unique hd)

end Program

end BlueCode
