import BlueCode.Proofs.Realization

namespace BlueCode

open Compile

theorem Compile.value?_of_literal {cx : Context} {value : Literal} {o : Operand}
    (h : cx.literal value = .ok o) : o.value? = some value.value := by
  cases value with
  | int n =>
    cases h
    rfl
  | float x =>
    cases h
    rfl
  | str s =>
    rw [Context.literal] at h
    split at h
    · cases h
    · cases h
      rfl

namespace Store

def after (s : Store) : Except RunError State.Effect → Evaluation Store
  | .ok .nothing => .done s
  | .ok (.print text) => .done { s with output := s.output ++ text }
  | .ok (.halt halt) => .ended ⟨.ok halt, s.output⟩
  | .error e => s.fail e

variable (s : Store) (settings : Settings)

theorem print_eq (text : String) :
    s.print settings text = s.after ((State.useOutput settings).map fun _ => .print text) := by
  unfold print State.useOutput
  cases settings.outputFailure <;> rfl

theorem print_empty :
    s.print settings "" = s.after ((State.useOutput settings).map fun _ => .nothing) := by
  unfold print State.useOutput
  cases settings.outputFailure with
  | none =>
    rw [String.append_empty]
    rfl
  | some reason => rfl

theorem isStatus_iff (n : Int64) :
    (Int32.minValue.toInt ≤ n.toInt ∧ n.toInt ≤ Int32.maxValue.toInt) ↔
      ¬ (n < Int32.minValue.toInt64 ∨ Int32.maxValue.toInt64 < n) := by
  rw [Int64.lt_iff_toInt_lt, Int64.lt_iff_toInt_lt, Int32.toInt_toInt64, Int32.toInt_toInt64]
  omega

theorem isPause_iff (x : Float) :
    (¬ x < 0 ∧ x < 18446744073709551616) ↔ State.isPause x = true := by
  simp only [State.isPause, Bool.and_eq_true, Bool.not_eq_true', decide_eq_true_eq,
    decide_eq_false_iff_not]
  exact Iff.rfl

/-- A builtin does in an evaluation what it does in the machine. -/
theorem perform_eq (b : Builtin) :
    s.perform settings b = s.after (State.effect settings s.accumulator b) := by
  cases b with
  | print =>
    rw [perform, print_eq, State.effect]
    cases State.useOutput settings <;> rfl
  | exit =>
    rw [perform, State.effect]
    cases s.accumulator.asInt with
    | error e => rfl
    | ok n =>
      simp only [isStatus_iff, print_empty, ite_not]
      change _ = s.after (if n < Int32.minValue.toInt64 ∨ Int32.maxValue.toInt64 < n then
          .error (.badStatus n)
        else (State.useOutput settings).map fun _ => .halt (.exited n.toInt32))
      split
      · rfl
      · cases State.useOutput settings <;> rfl
  | sleep =>
    rw [perform, State.effect]
    cases s.accumulator.asFloat with
    | error e => rfl
    | ok x =>
      simp only [isPause_iff, print_empty]
      change _ = s.after (if (!State.isPause x) = true then .error (.badPause x)
        else (State.useOutput settings).map fun _ => .nothing)
      cases State.isPause x <;> rfl

end Store

/-- An image of compiled functions, with room for all calls that may be live. -/
structure Image.Roomy (settings : Settings) (limit : Nat) (image : Image) : Prop where
  compiled : image.Compiled limit
  room : (settings.maxCallDepth + 1) * (limit + 1) < 2 ^ 63

namespace Image.Roomy

variable {settings : Settings} {limit : Nat} {image : Image} {c : Calls} {i : Instruction}

theorem limit_lt (h : image.Roomy settings limit) : limit < 2 ^ 63 := by
  have hroom := h.room
  have hle : 1 * (limit + 1) ≤ (settings.maxCallDepth + 1) * (limit + 1) :=
    Nat.mul_le_mul_right _ (Nat.succ_pos _)
  omega

theorem height_lt (h : image.Roomy settings limit) (hc : c.Proper settings image limit)
    (hi : c.instruction? = some i) : c.height + 1 < 2 ^ 63 :=
  Nat.lt_trans (hc.height_lt hi) h.room

theorem base_lt (h : image.Roomy settings limit) (hc : c.Proper settings image limit) :
    c.frame.base + c.frame.routine.frameSize < 2 ^ 63 :=
  Nat.lt_trans (hc.base_lt h.limit_lt) h.room

theorem cell_eq_ok (h : image.Roomy settings limit) (hc : c.Proper settings image limit) {k : Nat}
    (hk : k < c.frame.routine.frameSize) :
    State.cell c.frame.base k = .ok (c.frame.base + k) := by
  apply Calls.cell_eq_ok
  have hbase := h.base_lt hc
  omega

end Image.Roomy

namespace Calls

/-- The call has come back from a function, which has not touched its cells. -/
structure Returns (c : Calls) (r : Value × String) (c' : Calls) (out : String) : Prop where
  frame : c'.frame = c.advance.frame
  waiting : c'.waiting = c.waiting
  callers : c'.callers = c.callers
  below : ∀ cell < (c.frame.base + c.frame.routine.frameSize : Int),
    c'.heap.get? cell = c.heap.get? cell
  accumulator : c'.get .ra = r.1
  output : out = r.2

end Calls

namespace Scope

variable {scope : Scope} {image : Image} {limit length : Nat} {c c' : Calls} {out out' : String}
  {s s' : Store} {x : Evaluation Store}

/-- Calls of functions do what the scope says, where so many calls wait. -/
def Serves (scope : Scope) (image : Image) (limit depth : Nat) : Prop :=
  ∀ (c : Calls) (out name : String), c.Proper scope.settings image limit →
    c.callers.length = depth → c.instruction? = some (.call name) → Builtin.ofName? name = none →
    Realizes scope.settings image limit scope.fuel c.Returns c out
      (scope.invoke name (c.get .ra) out)

/-- What holds wherever the code of an expression or a statement starts. -/
structure Ready (scope : Scope) (image : Image) (limit : Nat) (c : Calls) (out : String)
    (s : Store) : Prop where
  roomy : image.Roomy scope.settings limit
  serves : scope.Serves image limit c.callers.length
  distinct : scope.names.Nodup
  size : scope.names.length = c.frame.routine.frameSize
  proper : c.Proper scope.settings image limit
  shows : c.Shows scope.names out s

/-- The next so many instructions carry out an evaluation. -/
def Runs (scope : Scope) (image : Image) (limit : Nat) (c : Calls) (out : String) (length : Nat)
    (x : Evaluation Store) : Prop :=
  Realizes scope.settings image limit scope.fuel (c.Arrives scope.names length) c out x

namespace Ready

theorem of_keeps (h : scope.Ready image limit c out s) (hk : c.Keeps c')
    (hc : c'.Proper scope.settings image limit) (hs : c'.Shows scope.names out' s') :
    scope.Ready image limit c' out' s' where
  roomy := h.roomy
  serves := by
    rw [hk.callers]
    exact h.serves
  distinct := h.distinct
  size := by
    rw [hk.routine]
    exact h.size
  proper := hc
  shows := hs

theorem of_arrives (h : scope.Ready image limit c out s)
    (hc : c'.Proper scope.settings image limit)
    (ha : c.Arrives scope.names length s' c' out') : scope.Ready image limit c' out' s' :=
  h.of_keeps ha.keeps hc ha.shows

theorem lt_frameSize (h : scope.Ready image limit c out s) {k : Nat} {name : String}
    (hk : scope.names[k]? = some name) : k < c.frame.routine.frameSize :=
  h.size ▸ (List.getElem?_eq_some_iff.1 hk).1

theorem address_lt (h : scope.Ready image limit c out s) {k : Nat} {name : String}
    (hk : scope.names[k]? = some name) : k < 2 ^ 63 := by
  have hlt := h.lt_frameSize hk
  have hbase := h.roomy.base_lt h.proper
  omega

end Ready

namespace Runs

theorem bind {m n : Nat} {f : Store → Evaluation Store} (h : scope.Runs image limit c out m x)
    (hf : ∀ s c' out', c'.Proper scope.settings image limit →
      c.Arrives scope.names m s c' out' → scope.Runs image limit c' out' n (f s)) :
    scope.Runs image limit c out (m + n) (x >>= f) :=
  Realizes.bind h fun s c' out' hc ha =>
    (hf s c' out' hc ha).mono fun _ _ _ ha' => ha.trans ha'

theorem keep (h : scope.Ready image limit c out s) {i : Instruction} {v : Value}
    (hi : c.instruction? = some i)
    (hw : i.op.settle c.waiting.length = some c.waiting.length)
    (hs : c.state.step scope.settings image = .ok (.moved (c.set .ra v).advance.state)) :
    scope.Runs image limit c out 1 (.done (s.keep v)) :=
  .moved hs (.pure (h.proper.advance hi hw rfl rfl rfl)
    ⟨⟨rfl, rfl, rfl, rfl, fun _ _ => rfl⟩, rfl, h.shows.keep v⟩)

theorem literal (h : scope.Ready image limit c out s) {value : Literal} {o : Operand}
    {cx : Context} (hat : c.At [.mov o acc]) (ho : cx.literal value = .ok o) :
    scope.Runs image limit c out 1 (.done (s.keep value.value)) := by
  obtain ⟨v, hv, hs⟩ := @Calls.step_constant scope.settings image c o hat.head
    (constant_of_literal ho)
  cases hv.symm.trans (value?_of_literal ho)
  exact keep h hat.head rfl hs

theorem load (h : scope.Ready image limit c out s) {k : Nat} {name : String}
    (hat : c.At [.mov (.heap (.ofNat k)) acc]) (hk : scope.names[k]? = some name) :
    scope.Runs image limit c out 1 (s.load scope.names name) := by
  have hvalue := h.shows.values k name hk
  have hstep := @Calls.step_load scope.settings image c k hat.head (h.address_lt hk)
  rw [Calls.load, h.roomy.cell_eq_ok h.proper (h.lt_frameSize hk)] at hstep
  simp only [Except.bind, hvalue] at hstep
  rw [Store.load]
  cases hv : s.values name with
  | some v =>
    rw [hv] at hstep
    exact keep h hat.head rfl hstep
  | none =>
    rw [hv] at hstep
    have hindex : scope.names.idxOf name = k := by
      obtain ⟨hlt, rfl⟩ := List.getElem?_eq_some_iff.1 hk
      exact h.distinct.idxOf_getElem k hlt
    rw [Store.fail, hindex, ← h.shows.output]
    exact .error hstep

theorem store (h : scope.Ready image limit c out s) {k : Nat} {name : String}
    (hat : c.At [.mov acc (.heap (.ofNat k))]) (hk : scope.names[k]? = some name) :
    scope.Runs image limit c out 1 (.done (s.assign name)) := by
  have hstep := @Calls.step_store scope.settings image c k hat.head (h.address_lt hk)
  rw [Calls.store, h.roomy.cell_eq_ok h.proper (h.lt_frameSize hk)] at hstep
  have hkeeps : c.Keeps
      ({ c with heap := c.heap.set (c.frame.base + k) (c.get .ra) } : Calls).advance := by
    refine ⟨rfl, rfl, rfl, rfl, fun cell hcell => ?_⟩
    refine (Memory.get?_set ..).trans (if_neg ?_)
    omega
  exact .moved hstep (.pure (h.proper.advance hat.head rfl rfl rfl rfl)
    ⟨hkeeps, rfl, (h.shows.assign h.distinct hk).goto _⟩)

theorem compute (h : scope.Ready image limit c out s) {op : Opcode}
    {f : Value → Value → Except ValueError Value} (hop : op.isArithmetic ∨ op.isComparison)
    (hat : c.At [⟨op, some (.reg .rb), some acc⟩])
    (hstep : c.state.step scope.settings image =
      ((f (c.get .rb) (c.get .ra)).mapError RunError.value).map
        fun v => .moved (c.set .ra v).advance.state) :
    scope.Runs image limit c out 1 (s.compute (f (c.get .rb) s.accumulator)) := by
  rw [h.shows.accumulator] at hstep
  cases hv : f (c.get .rb) s.accumulator with
  | error e =>
    rw [hv] at hstep
    rw [Store.compute, Store.fail, ← h.shows.output]
    exact .error hstep
  | ok v =>
    rw [hv] at hstep
    exact keep h hat.head (settle_operation hop _) hstep

/-- An operator finds its left operand on the stack. -/
theorem operation (h : scope.Ready image limit c out s) {right : List Instruction} {op : Opcode}
    {f : Value → Value → Except ValueError Value} (hop : op.isArithmetic ∨ op.isComparison)
    (hstep : ∀ c : Calls, c.instruction? = some ⟨op, some (.reg .rb), some acc⟩ →
      c.state.step scope.settings image = ((f (c.get .rb) (c.get .ra)).mapError RunError.value).map
        fun v => .moved (c.set .ra v).advance.state)
    (hat : c.At (.push acc :: right ++ [.pop (.reg .rb), ⟨op, some (.reg .rb), some acc⟩]))
    (hx : ∀ c', c'.At right → scope.Ready image limit c' out s →
      scope.Runs image limit c' out right.length x) :
    scope.Runs image limit c out (right.length + 3)
      (x >>= fun second => second.compute (f s.accumulator second.accumulator)) := by
  have hpush := hat.left.head
  have hheight := h.roomy.height_lt h.proper hpush
  have hready : scope.Ready image limit (c.push (c.get .ra)).advance out s :=
    ⟨h.roomy, h.serves, h.distinct, h.size, h.proper.push hpush hheight _,
      h.shows.congr rfl rfl rfl⟩
  apply Realizes.moved (Calls.step_push hpush hheight)
  refine Realizes.bind (hx _ (hat.left.tail rfl rfl) hready) fun second c₁ out₁ hc₁ ha₁ => ?_
  have hposition : c₁.frame.position = c.frame.position + (right.length + 1) := by
    rw [ha₁.position, Nat.add_comm right.length, ← Nat.add_assoc]
    rfl
  have hrest : c₁.At [.pop (.reg .rb), ⟨op, some (.reg .rb), some acc⟩] :=
    hat.right ha₁.keeps.routine hposition
  obtain ⟨v, rest, hw, hproper⟩ := hc₁.pop hrest.head
  -- What lies on top is the left operand, and below it what was there before.
  obtain ⟨rfl, rfl⟩ := List.cons.inj (hw.symm.trans ha₁.keeps.waiting)
  apply Realizes.moved (Calls.step_pop hrest.head hw hc₁.height)
  have hkeeps : c.Keeps (({ c₁ with waiting := c.waiting } : Calls).set .rb (c.get .ra)).advance :=
    ⟨ha₁.keeps.routine, ha₁.keeps.base, rfl, ha₁.keeps.callers, ha₁.keeps.below⟩
  have hacc : (c₁.set .rb (c.get .ra)).get .ra = c₁.get .ra :=
    Calls.get_set_other c₁ _ (by decide)
  have hpopped := h.of_keeps hkeeps hproper (ha₁.shows.congr hacc rfl rfl)
  have hat' : (({ c₁ with waiting := c.waiting } : Calls).set .rb (c.get .ra)).advance.At
      [⟨op, some (.reg .rb), some acc⟩] := hrest.tail rfl rfl
  have hlast := compute hpopped hop hat' (hstep _ hat'.head)
  have hleft : (({ c₁ with waiting := c.waiting } : Calls).set .rb (c.get .ra)).advance.get .rb =
      s.accumulator :=
    (Calls.get_set_same c₁ .rb _).trans h.shows.accumulator
  rw [hleft] at hlast
  refine hlast.mono fun s' c₂ out₂ ha₂ => ⟨hkeeps.trans ha₂.keeps, ?_, ha₂.shows⟩
  rw [ha₂.position]
  change c₁.frame.position + 1 + 1 = _
  omega

theorem binary (h : scope.Ready image limit c out s) {left right : List Instruction} {op : Opcode}
    {f : Value → Value → Except ValueError Value} {y : Store → Evaluation Store}
    (hop : op.isArithmetic ∨ op.isComparison)
    (hstep : ∀ c : Calls, c.instruction? = some ⟨op, some (.reg .rb), some acc⟩ →
      c.state.step scope.settings image = ((f (c.get .rb) (c.get .ra)).mapError RunError.value).map
        fun v => .moved (c.set .ra v).advance.state)
    (hat : c.At (left ++ .push acc :: right ++ [.pop (.reg .rb), ⟨op, some (.reg .rb), some acc⟩]))
    (hx : c.At left → scope.Runs image limit c out left.length x)
    (hy : ∀ c' out' s', c'.At right → scope.Ready image limit c' out' s' →
      scope.Runs image limit c' out' right.length (y s')) :
    scope.Runs image limit c out
      (left ++ .push acc :: right ++
        [.pop (.reg .rb), ⟨op, some (.reg .rb), some acc⟩] : List Instruction).length
      (x >>= fun first => y first >>= fun second =>
        second.compute (f first.accumulator second.accumulator)) := by
  have hlength : (left ++ .push acc :: right ++
      [.pop (.reg .rb), ⟨op, some (.reg .rb), some acc⟩] : List Instruction).length =
        left.length + (right.length + 3) := by
    simp only [List.length_append, List.length_cons, List.length_nil]
    omega
  rw [List.append_assoc] at hat
  rw [hlength]
  apply Scope.Runs.bind (hx hat.left)
  intro first c' out' hc' ha
  exact operation (h.of_arrives hc' ha) hop hstep (hat.right ha.keeps.routine ha.position)
    fun c'' hat'' h'' => hy c'' out' first hat'' h''

theorem call (h : scope.Ready image limit c out s) {name : String} (hat : c.At [.call name]) :
    scope.Runs image limit c out 1 (scope.call name s) := by
  rw [Scope.call]
  cases hb : Builtin.ofName? name with
  | some b =>
    have hstep := @Calls.step_call_builtin scope.settings image c name b hat.head hb
      (h.roomy.height_lt h.proper hat.head)
    have hnext : c.advance.Proper scope.settings image limit :=
      h.proper.advance hat.head rfl rfl rfl rfl
    rw [h.shows.accumulator] at hstep
    dsimp only
    rw [Store.perform_eq]
    cases he : State.effect scope.settings s.accumulator b with
    | error e =>
      rw [he] at hstep
      change scope.Runs image limit c out 1 (.ended ⟨.error e, s.output⟩)
      rw [← h.shows.output]
      exact .error hstep
    | ok effect =>
      rw [he] at hstep
      cases effect with
      | nothing =>
        exact .moved hstep (.pure hnext ⟨Calls.Keeps.goto c _, rfl, h.shows.goto _⟩)
      | print text =>
        refine .path (.single hstep rfl) (.pure hnext ⟨Calls.Keeps.goto c _, rfl, ?_⟩)
        exact ⟨h.shows.accumulator, h.shows.values, congrArg (· ++ text) h.shows.output⟩
      | halt halt =>
        change scope.Runs image limit c out 1 (.ended ⟨.ok halt, s.output⟩)
        rw [← h.shows.output]
        exact .ended (.of_halted hstep out)
  | none =>
    have hserves := h.serves c out name h.proper rfl hat.head hb
    rw [h.shows.accumulator, h.shows.output] at hserves
    rw [Runs, h.shows.output]
    refine Realizes.bind hserves fun r c' out' hc' hr => .pure hc' ⟨?_, ?_, ?_⟩
    · refine ⟨?_, ?_, hr.waiting, hr.callers, fun cell hcell => hr.below cell ?_⟩
      · rw [hr.frame]
        rfl
      · rw [hr.frame]
        rfl
      · omega
    · rw [hr.frame]
      rfl
    · refine ⟨hr.accumulator, fun k other hk => ?_, hr.output⟩
      have hlt := h.lt_frameSize hk
      rw [← h.shows.values k other hk, hr.frame]
      exact hr.below _ (by change (c.frame.base + k : Int) < _; omega)

end Runs

end Scope

open Scope.Runs

variable {scope : Scope} {image : Image} {limit : Nat} {cx : Context}

theorem names_getElem? {before names : List String} {name : String} {k : Nat}
    (hn : before <+: names) (hk : before.idxOf? name = some k) : names[k]? = some name := by
  obtain ⟨hlt, hget, -⟩ := List.idxOf?_eq_some_iff.1 hk
  obtain ⟨after, rfl⟩ := hn
  rw [List.getElem?_append_left hlt, List.getElem?_eq_getElem hlt, hget]

mutual

/-- The code of an expression carries out its evaluation. -/
theorem expr_runs (hn : cx.declared <+: scope.names) : ∀ (e : Expr) {code : List Instruction}
    {c : Calls} {out : String} {s : Store}, expr cx e = .ok code → c.At code →
    scope.Ready image limit c out s →
    scope.Runs image limit c out code.length (e.evaluate scope s)
  -- The operands of earlier operators wait on the stack and are found again behind the code.
  | .literal value, code, c, out, s, hcode, hat, h => by
    rw [expr] at hcode
    obtain ⟨o, ho, hc⟩ := bind_eq_ok.1 hcode
    cases hc
    exact .literal h hat ho
  | .ident name, code, c, out, s, hcode, hat, h => by
    rw [expr] at hcode
    obtain ⟨o, ho, hc⟩ := bind_eq_ok.1 hcode
    cases hc
    obtain ⟨k, hk, rfl⟩ := cell_eq_ok ho
    exact .load h hat (names_getElem? hn hk)
  | .assign (.ident name) value, code, c, out, s, hcode, hat, h => by
    rw [expr] at hcode
    obtain ⟨o, ho, hcode⟩ := bind_eq_ok.1 hcode
    obtain ⟨stored, hv, hc⟩ := bind_eq_ok.1 hcode
    cases hc
    obtain ⟨k, hk, rfl⟩ := cell_eq_ok ho
    rw [List.length_append]
    apply Scope.Runs.bind (expr_runs hn value hv hat.left h)
    intro s' c' out' hc' ha
    exact .store (h.of_arrives hc' ha) (hat.right ha.keeps.routine ha.position)
      (names_getElem? hn hk)
  | .arith op left right, code, c, out, s, hcode, hat, h => by
    rw [expr] at hcode
    obtain ⟨l, hl, hcode⟩ := bind_eq_ok.1 hcode
    obtain ⟨r, hr, hc⟩ := bind_eq_ok.1 hcode
    cases hc
    exact .binary h (.inl rfl) (fun _ hi => Calls.step_arith hi) hat
      (fun hat => expr_runs hn left hl hat h)
      fun _ _ _ hat' h' => expr_runs hn right hr hat' h'
  | .compare op left right, code, c, out, s, hcode, hat, h => by
    rw [expr] at hcode
    obtain ⟨l, hl, hcode⟩ := bind_eq_ok.1 hcode
    obtain ⟨r, hr, hc⟩ := bind_eq_ok.1 hcode
    cases hc
    have hstep (c : Calls) (hi : c.instruction? = some ⟨.compare op, some (.reg .rb), some acc⟩) :
        c.state.step scope.settings image =
          (((op.holds (c.get .rb) (c.get .ra)).map Value.ofBool).mapError RunError.value).map
            fun v => .moved (c.set .ra v).advance.state := by
      rw [Calls.step_compare hi]
      cases op.holds (c.get .rb) (c.get .ra) <;> rfl
    exact .binary (f := fun a b => (op.holds a b).map Value.ofBool) h (.inr rfl) hstep hat
      (fun hat => expr_runs hn left hl hat h)
      fun _ _ _ hat' h' => expr_runs hn right hr hat' h'
  | .call function args, code, c, out, s, hcode, hat, h => by
    rw [expr] at hcode
    obtain ⟨_, _, hcode⟩ := bind_eq_ok.1 hcode
    obtain ⟨codes, ha, hc⟩ := bind_eq_ok.1 hcode
    cases hc
    rw [List.length_append]
    apply Scope.Runs.bind (exprs_runs hn args ha hat.left h)
    intro s' c' out' hc' ha
    exact .call (h.of_arrives hc' ha) (hat.right ha.keeps.routine ha.position)

theorem exprs_runs (hn : cx.declared <+: scope.names) : ∀ (es : List Expr)
    {code : List Instruction} {c : Calls} {out : String} {s : Store}, exprs cx es = .ok code →
    c.At code → scope.Ready image limit c out s →
    scope.Runs image limit c out code.length (Expr.evaluateAll scope es s)
  | [], code, c, out, s, hcode, hat, h => by
    rw [exprs] at hcode
    cases hcode
    exact .pure h.proper ⟨.refl c, rfl, h.shows⟩
  | e :: rest, code, c, out, s, hcode, hat, h => by
    rw [exprs] at hcode
    obtain ⟨first, hf, hcode⟩ := bind_eq_ok.1 hcode
    obtain ⟨others, ho, hc⟩ := bind_eq_ok.1 hcode
    cases hc
    rw [List.length_append]
    apply Scope.Runs.bind (expr_runs hn e hf hat.left h)
    intro s' c' out' hc' ha
    exact exprs_runs hn rest ho (hat.right ha.keeps.routine ha.position) (h.of_arrives hc' ha)

end

end BlueCode
