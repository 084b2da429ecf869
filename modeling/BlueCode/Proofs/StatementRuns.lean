import BlueCode.Proofs.ExpressionRuns

namespace BlueCode

open Compile

/-- The first list of different names goes on to the second one. -/
structure Extends (before after : List String) : Prop where
  prefixed : before <+: after
  nodup : before.Nodup → after.Nodup

namespace Extends

theorem refl (names : List String) : Extends names names :=
  ⟨List.prefix_refl names, id⟩

theorem trans {first second third : List String} (h : Extends first second)
    (h' : Extends second third) : Extends first third :=
  ⟨h.prefixed.trans h'.prefixed, h'.nodup ∘ h.nodup⟩

end Extends

mutual

theorem Stmt.extends_declared : ∀ (s : Stmt) (before : List String),
    Extends before (s.declared before)
  | .declare name _, before => by
    rw [Stmt.declared]
    split
    · exact .refl before
    · next hnew =>
      refine ⟨List.prefix_append .., fun hd => ?_⟩
      rw [← List.concat_eq_append]
      exact hd.concat hnew
  | .branch _ onTrue none, before => Stmt.extends_allDeclared onTrue before
  | .branch _ onTrue (some onFalse), before =>
    (Stmt.extends_allDeclared onTrue before).trans (Stmt.extends_allDeclared onFalse _)
  | .loop _ body, before => Stmt.extends_allDeclared body before
  | .ret _, before => .refl before
  | .leave, before => .refl before
  | .effect _, before => .refl before

theorem Stmt.extends_allDeclared : ∀ (ss : List Stmt) (before : List String),
    Extends before (Stmt.allDeclared before ss)
  | [], before => .refl before
  | first :: rest, before =>
    (Stmt.extends_declared first before).trans (Stmt.extends_allDeclared rest _)

end

namespace Compile

variable {sigs : Signatures} {function : String}

mutual

theorem stmt_declared : ∀ (s : Stmt) {exit : Option String} {p p' : Progress}
    {code : List Instruction}, stmt sigs function exit p s = .ok (code, p') →
    p'.declared = s.declared p.declared
  | .declare name value, exit, p, p', code, h => by
    obtain ⟨_, _, -, -, rfl, -⟩ := stmt_declare_eq_ok h
    rw [Progress.declare, Stmt.declared]
    split <;> rfl
  | .ret none, exit, p, p', code, h => by
    cases h
    rfl
  | .ret (some value), exit, p, p', code, h => by
    obtain ⟨_, -, rfl, -⟩ := stmt_ret_eq_ok h
    rfl
  | .branch condition onTrue none, exit, p, p', code, h => by
    obtain ⟨_, _, -, hf, -⟩ := stmt_branch_eq_ok h
    have hfirst := stmts_declared onTrue hf
    exact hfirst
  | .branch condition onTrue (some onFalse), exit, p, p', code, h => by
    obtain ⟨_, _, p₁, _, -, hf, hs, -⟩ := stmt_branchElse_eq_ok h
    have hfirst := stmts_declared onTrue hf
    have hsecond := stmts_declared onFalse hs
    exact hsecond.trans (congrArg (Stmt.allDeclared · onFalse) hfirst)
  | .loop condition body, exit, p, p', code, h => by
    obtain ⟨_, _, -, hb, -⟩ := stmt_loop_eq_ok h
    have hbody := stmts_declared body hb
    exact hbody
  | .leave, exit, p, p', code, h => by
    obtain ⟨_, -, rfl, -⟩ := stmt_leave_eq_ok h
    rfl
  | .effect e, exit, p, p', code, h => by
    obtain ⟨-, rfl⟩ := stmt_effect_eq_ok h
    rfl

theorem stmts_declared : ∀ (ss : List Stmt) {exit : Option String} {p p' : Progress}
    {code : List Instruction}, stmts sigs function exit p ss = .ok (code, p') →
    p'.declared = Stmt.allDeclared p.declared ss
  | [], exit, p, p', code, h => by
    cases h
    rfl
  | s :: rest, exit, p, p', code, h => by
    obtain ⟨_, p₁, _, hf, ho, -⟩ := stmts_cons_eq_ok h
    rw [stmts_declared rest ho, stmt_declared s hf]
    rfl

end

theorem stmt_extends {s : Stmt} {exit : Option String} {p p' : Progress}
    {code : List Instruction} (h : stmt sigs function exit p s = .ok (code, p')) :
    Extends p.declared p'.declared := by
  rw [stmt_declared s h]
  exact Stmt.extends_declared s _

theorem stmts_extends {ss : List Stmt} {exit : Option String} {p p' : Progress}
    {code : List Instruction} (h : stmts sigs function exit p ss = .ok (code, p')) :
    Extends p.declared p'.declared := by
  rw [stmts_declared ss h]
  exact Stmt.extends_allDeclared ss _

end Compile

theorem Routine.Compiled.labels_getElem? {image : Image} {limit : Nat} {r : Routine}
    (h : r.Compiled image limit) {k : Nat} {label : String}
    (hk : r.code[k]? = some (.label label)) : r.labels[label]? = some k := by
  rw [h.built]
  apply (Routine.ofBody_labels_getElem? h.tidy.labels label k).2
  rw [Array.getElem?_toList, hk]
  rfl

namespace Calls

/-- Where the machine is after statements, if the code behind them stands at the target, and `exit`
is the label behind the loop around them. -/
def Lands (c : Calls) (exit : Option String) (target : Nat) : Flow → Prop
  | .next => c.frame.position = target
  | .leave =>
    ∃ label, exit = some label ∧ c.frame.routine.labels[label]? = some c.frame.position
  | .ret => c.instruction? = some .ret

/-- The same call after statements, where their store is shown. -/
structure Reaches (names : List String) (exit : Option String) (target : Nat) (c : Calls)
    (r : Flow × Store) (c' : Calls) (out : String) : Prop where
  keeps : c.Keeps c'
  lands : c'.Lands exit target r.1
  shows : c'.Shows names out r.2

theorem Reaches.after {names : List String} {exit : Option String} {target : Nat}
    {c c' c'' : Calls} {r : Flow × Store} {out : String} (hk : c.Keeps c')
    (h : c'.Reaches names exit target r c'' out) : c.Reaches names exit target r c'' out :=
  ⟨hk.trans h.keeps, h.lands, h.shows⟩

end Calls

namespace Realizes

variable {settings : Settings} {image : Image} {limit fuel : Nat} {α : Type}
  {post : α → Calls → String → Prop} {c : Calls} {out name : String} {x : Evaluation α}

theorem label (hc : c.Proper settings image limit) (hi : c.instruction? = some (.label name))
    (hx : c.advance.Proper settings image limit →
      Realizes settings image limit fuel post c.advance out x) :
    Realizes settings image limit fuel post c out x :=
  .moved (Calls.step_label hi) (hx (hc.label hi))

theorem jump (hc : c.Proper settings image limit) (hi : c.instruction? = some (.jump name))
    {k : Nat} (hk : c.frame.routine.code[k]? = some (.label name))
    (hx : (c.goto k).Proper settings image limit →
      Realizes settings image limit fuel post (c.goto k) out x) :
    Realizes settings image limit fuel post c out x :=
  .moved (Calls.step_jump hi (hc.compiled.labels_getElem? hk))
    (hx (hc.goto (hc.waiting_eq_nil hi fun _ => rfl) hk rfl))

theorem test (hc : c.Proper settings image limit)
    (hi : c.instruction? = some (.jumpIfNot acc name)) {k : Nat}
    (hk : c.frame.routine.code[k]? = some (.label name)) {names : List String} {s : Store}
    (hs : c.Shows names out s) {y : Evaluation α}
    (hx : c.advance.Proper settings image limit →
      Realizes settings image limit fuel post c.advance out x)
    (hy : (c.goto k).Proper settings image limit →
      Realizes settings image limit fuel post (c.goto k) out y) :
    Realizes settings image limit fuel post c out (s.test >>= fun holds => if holds then x else y) := by
  have hw := hc.waiting_eq_nil hi fun _ => rfl
  have hstep := @Calls.step_jumpIfNot settings image c name k hi (hc.compiled.labels_getElem? hk)
  rw [hs.accumulator] at hstep
  rw [Store.test]
  cases hn : s.accumulator.asInt with
  | error e =>
    rw [hn] at hstep
    change Realizes settings image limit fuel post c out (.ended ⟨.error (.value e), s.output⟩)
    rw [← hs.output]
    exact .error hstep
  | ok n =>
    rw [hn] at hstep
    change Realizes settings image limit fuel post c out (if (n != 0) = true then x else y)
    by_cases hzero : n = 0
    · rw [if_neg (by simp [hzero])]
      simp only [Except.mapError, Except.map, if_pos hzero] at hstep
      exact .moved hstep (hy (hc.goto hw hk rfl))
    · rw [if_pos (by simp [hzero])]
      simp only [Except.mapError, Except.map, if_neg hzero] at hstep
      refine .moved hstep (hx (hc.advance hi ?_ rfl rfl rfl))
      rw [hw]
      rfl

end Realizes

namespace Scope

variable {scope : Scope} {image : Image} {limit : Nat} {exit : Option String} {target : Nat}
  {c c' : Calls} {out : String} {s : Store} {x : Evaluation (Flow × Store)}

def Carries (scope : Scope) (image : Image) (limit : Nat) (exit : Option String) (target : Nat)
    (c : Calls) (out : String) (x : Evaluation (Flow × Store)) : Prop :=
  Realizes scope.settings image limit scope.fuel (c.Reaches scope.names exit target) c out x

namespace Ready

theorem goto (h : scope.Ready image limit c out s) {position : Nat}
    (hc : (c.goto position).Proper scope.settings image limit) :
    scope.Ready image limit (c.goto position) out s :=
  h.of_keeps (.goto c position) hc (h.shows.goto position)

theorem advance (h : scope.Ready image limit c out s)
    (hc : c.advance.Proper scope.settings image limit) :
    scope.Ready image limit c.advance out s :=
  h.goto hc

end Ready

namespace Carries

theorem after (hk : c.Keeps c') (h : scope.Carries image limit exit target c' out x) :
    Realizes scope.settings image limit scope.fuel (c.Reaches scope.names exit target) c' out x :=
  h.mono fun _ _ _ => .after hk

theorem congr {place : Nat} (h : scope.Carries image limit exit place c out x)
    (hp : place = target) : scope.Carries image limit exit target c out x :=
  hp ▸ h

theorem of_runs {length : Nat} {e : Evaluation Store} {f : Store → Evaluation (Flow × Store)}
    (h : scope.Runs image limit c out length e)
    (hf : ∀ s c' out', c'.Proper scope.settings image limit →
      c.Arrives scope.names length s c' out' →
      scope.Carries image limit exit target c' out' (f s)) :
    scope.Carries image limit exit target c out (e >>= f) :=
  Realizes.bind h fun s c' out' hc ha => (hf s c' out' hc ha).after ha.keeps

theorem forward {place : Nat} (h : scope.Ready image limit c out s)
    (hx : scope.Carries image limit exit place c out x)
    (hf : ∀ c' out' s', c.Keeps c' → c'.frame.position = place →
      scope.Ready image limit c' out' s' →
      scope.Carries image limit exit target c' out' (.done (.next, s'))) :
    scope.Carries image limit exit target c out x := by
  apply Realizes.onward hx
  intro r c' out' hc hr
  obtain ⟨flow, s'⟩ := r
  cases flow with
  | next => exact (hf c' out' s' hr.keeps hr.lands (h.of_keeps hr.keeps hc hr.shows)).after hr.keeps
  | leave => exact .pure hc ⟨hr.keeps, hr.lands, hr.shows⟩
  | ret => exact .pure hc ⟨hr.keeps, hr.lands, hr.shows⟩

theorem label {name : String} (h : scope.Ready image limit c out s)
    (hi : c.instruction? = some (.label name)) :
    scope.Carries image limit exit (c.frame.position + 1) c out (.done (.next, s)) :=
  Realizes.label h.proper hi fun hc => .pure hc ⟨.goto c _, rfl, h.shows.goto _⟩

theorem before_label {name : String} {code : List Instruction}
    (hat : c.At (code ++ [.label name])) (h : scope.Ready image limit c out s)
    (hx : scope.Carries image limit exit (c.frame.position + code.length) c out x) :
    scope.Carries image limit exit (c.frame.position + (code.length + 1)) c out x := by
  apply hx.forward h
  intro c' out' s' hk hp h'
  rw [← Nat.add_assoc, ← hp]
  exact label h' (hat.right hk.routine hp).head

theorem before_jump {name : String} {code skipped : List Instruction}
    (hat : c.At (code ++ .jump name :: skipped ++ [.label name]))
    (h : scope.Ready image limit c out s)
    (hx : scope.Carries image limit exit (c.frame.position + code.length) c out x) :
    scope.Carries image limit exit
      (c.frame.position + (code.length + skipped.length + 2)) c out x := by
  apply hx.forward h
  intro c' out' s' hk hp h'
  have hend := hat.getElem?
  rw [← hk.routine, List.length_append, List.length_cons] at hend
  apply Realizes.jump h'.proper (hat.left.right hk.routine hp).head hend
  intro hc
  exact (label (h'.goto hc) hend).after (.goto c' _)

theorem cons {first rest : List Instruction} (hat : c.At (first ++ rest))
    (h : scope.Ready image limit c out s) {stmt : Stmt} {others : List Stmt}
    (hs : scope.Carries image limit exit (c.frame.position + first.length) c out
      (stmt.evaluate scope s))
    (ho : ∀ c' out' s', c'.At rest → scope.Ready image limit c' out' s' →
      scope.Carries image limit exit (c'.frame.position + rest.length) c' out'
        (Stmt.evaluateAll scope others s')) :
    scope.Carries image limit exit (c.frame.position + (first ++ rest).length) c out
      (Stmt.evaluateAll scope (stmt :: others) s) := by
  apply Realizes.bind hs
  intro r c' out' hc' hr
  obtain ⟨flow, s'⟩ := r
  cases flow with
  | next =>
    have hposition : c'.frame.position = c.frame.position + first.length := hr.lands
    have hrest := ho c' out' s' (hat.right hr.keeps.routine hposition)
      (h.of_keeps hr.keeps hc' hr.shows)
    rw [hposition, Nat.add_assoc, ← List.length_append] at hrest
    exact hrest.after hr.keeps
  | leave => exact .pure hc' ⟨hr.keeps, hr.lands, hr.shows⟩
  | ret => exact .pure hc' ⟨hr.keeps, hr.lands, hr.shows⟩

theorem condition {test inner rest : List Instruction} {name : String} {e : Evaluation Store}
    {f g : Store → Evaluation (Flow × Store)}
    (hat : c.At (test ++ .jumpIfNot acc name :: inner ++ .label name :: rest))
    (h : scope.Ready image limit c out s) (he : scope.Runs image limit c out test.length e)
    (hf : ∀ c' out' s', c'.At (inner ++ .label name :: rest) →
      c'.frame.position = c.frame.position + (test.length + 1) →
      scope.Ready image limit c' out' s' →
      scope.Carries image limit exit target c' out' (f s'))
    (hg : ∀ c' out' s', c'.At (.label name :: rest) →
      c'.frame.position = c.frame.position + (test.length + 1 + inner.length) →
      scope.Ready image limit c' out' s' →
      scope.Carries image limit exit target c' out' (g s')) :
    scope.Carries image limit exit target c out
      (e >>= fun s => s.test >>= fun holds => if holds then f s else g s) := by
  apply of_runs he
  intro s' c' out' hc' ha
  have hlabel : c'.frame.routine.code[c.frame.position + (test.length + 1 + inner.length)]? =
      some (.label name) := by
    have hget := hat.getElem?
    rw [List.length_append, List.length_cons] at hget
    rw [ha.keeps.routine, Nat.add_assoc test.length, Nat.add_comm 1]
    exact hget
  have hlength : (test ++ .jumpIfNot acc name :: inner : List Instruction).length =
      test.length + 1 + inner.length := by
    rw [List.length_append, List.length_cons]
    omega
  have hready := h.of_arrives hc' ha
  have hcode := hat
  rw [List.append_assoc] at hcode
  have hjump := hcode.right ha.keeps.routine ha.position
  refine .test hc' hjump.head hlabel ha.shows (fun hc'' => ?_) fun hc'' => ?_
  · have hposition : c'.advance.frame.position = c.frame.position + (test.length + 1) :=
      congrArg (· + 1) ha.position
    have hfirst := hf c'.advance out' s' hjump.advance hposition (hready.advance hc'')
    exact hfirst.after (.goto c' _)
  · have hposition := congrArg (c.frame.position + ·) hlength.symm
    have hsecond := hg (c'.goto (c.frame.position + (test.length + 1 + inner.length))) out' s'
      (hat.right ha.keeps.routine hposition) rfl (hready.goto hc'')
    exact hsecond.after (.goto c' _)

/-- The rounds of a loop. Each begins at the label in front of it. -/
theorem rounds {start done : String} {code : List Instruction}
    {round : Store → Evaluation (Flow × Store)}
    (hround : ∀ c' out' s', c'.At (code ++ [.jump start, .label done]) →
      scope.Ready image limit c' out' s' →
      scope.Carries image limit (some done) (c'.frame.position + code.length) c' out' (round s')) :
    ∀ {n : Nat} {c : Calls} {out : String} {s : Store}, n ≤ scope.fuel →
      c.At (.label start :: code ++ [.jump start, .label done]) →
      scope.Ready image limit c out s →
      Realizes scope.settings image limit n
        (c.Reaches scope.names exit (c.frame.position + (code.length + 3))) c out
        (repeatRound round n s)
  -- The induction is on the rounds; each takes a step at least, so a loop without an end lasts.
  | 0, c, out, s, _, _, _ => .unfinished (.zero _)
  | n + 1, c, out, s, hn, hat, h => by
    have hstart : c.instruction? = some (.label start) := hat.head
    have hready := h.advance (h.proper.label hstart)
    apply Realizes.later (Calls.step_label hstart)
    have hfirst := (hround c.advance out s (hat.tail rfl rfl) hready).lower (Nat.le_of_succ_le hn)
    apply Realizes.bind hfirst
    intro r c' out' hc' hr
    have hkeeps : c.Keeps c' := (Calls.Keeps.goto c _).trans hr.keeps
    have hend : c.frame.routine.code[c.frame.position + (code.length + 2)]? = some (.label done) := by
      rw [List.append_cons] at hat
      have hget := hat.getElem?
      simpa [Nat.add_assoc] using hget
    obtain ⟨flow, s'⟩ := r
    cases flow with
    | next =>
      have hposition : c'.frame.position = c.frame.position + (code.length + 1) := by
        apply Eq.trans hr.lands
        change c.frame.position + 1 + code.length = _
        omega
      have hjump : c'.instruction? = some (.jump start) :=
        (@Calls.At.right c c' (.label start :: code) _ hat hkeeps.routine hposition).head
      have hback : c'.frame.routine.code[c.frame.position]? = some (.label start) := by
        rw [hkeeps.routine]
        exact hstart
      apply Realizes.jump hc' hjump hback
      intro hc''
      have hkeeps' : c.Keeps (c'.goto c.frame.position) := hkeeps.trans (.goto c' _)
      have hagain := rounds hround (Nat.le_of_succ_le hn) (hat.congr hkeeps'.routine rfl)
        (h.of_keeps hkeeps' hc'' (hr.shows.goto _))
      exact hagain.mono fun _ _ _ => .after hkeeps'
    | leave =>
      obtain ⟨label, hlabel, hl⟩ := hr.lands
      cases hlabel
      rw [hkeeps.routine, h.proper.compiled.labels_getElem? hend] at hl
      have hposition := Option.some.inj hl
      have hdone : c'.instruction? = some (.label done) := by
        rw [Calls.instruction?, Frame.instruction?, hkeeps.routine, ← hposition]
        exact hend
      refine .label hc' hdone fun hc'' => .pure hc'' ⟨hkeeps.trans (.goto c' _), ?_, ?_⟩
      · exact (congrArg (· + 1) hposition).symm
      · exact hr.shows.goto _
    | ret => exact .pure hc' ⟨hkeeps, hr.lands, hr.shows⟩

theorem branch {code test first : List Instruction} {done : String} {e : Evaluation Store}
    {f : Store → Evaluation (Flow × Store)}
    (hcode : code = test ++ .jumpIfNot acc done :: first ++ [.label done]) (hat : c.At code)
    (h : scope.Ready image limit c out s)
    (he : c.At test → scope.Runs image limit c out test.length e)
    (hf : ∀ c' out' s', c'.At first → scope.Ready image limit c' out' s' →
      scope.Carries image limit exit (c'.frame.position + first.length) c' out' (f s')) :
    scope.Carries image limit exit (c.frame.position + code.length) c out
      (e >>= fun s => s.test >>= fun holds => if holds then f s else .done (.next, s)) := by
  subst hcode
  refine condition hat h (he hat.left.left) ?_ ?_
  · intro c' out' s' hat' hposition h'
    apply (before_label hat' h' (hf c' out' s' hat'.left h')).congr
    simp only [List.length_append, List.length_cons, List.length_nil]
    omega
  · intro c' out' s' hat' hposition h'
    apply (label h' hat'.head).congr
    simp only [List.length_append, List.length_cons, List.length_nil]
    omega

theorem branchElse {code test first second : List Instruction} {other done : String}
    {e : Evaluation Store} {f g : Store → Evaluation (Flow × Store)}
    (hcode : code = test ++ .jumpIfNot acc other :: first ++ .jump done :: .label other :: second ++
      [.label done])
    (hat : c.At code) (h : scope.Ready image limit c out s)
    (he : c.At test → scope.Runs image limit c out test.length e)
    (hf : ∀ c' out' s', c'.At first → scope.Ready image limit c' out' s' →
      scope.Carries image limit exit (c'.frame.position + first.length) c' out' (f s'))
    (hg : ∀ c' out' s', c'.At second → scope.Ready image limit c' out' s' →
      scope.Carries image limit exit (c'.frame.position + second.length) c' out' (g s')) :
    scope.Carries image limit exit (c.frame.position + code.length) c out
      (e >>= fun s => s.test >>= fun holds => if holds then f s else g s) := by
  have hsplit : code = test ++ .jumpIfNot acc other :: (first ++ [.jump done]) ++
      .label other :: (second ++ [.label done]) := by
    simp only [hcode, List.append_assoc, List.cons_append, List.nil_append]
  subst hsplit
  refine condition hat h (he hat.left.left) ?_ ?_
  · intro c' out' s' hat' hposition h'
    rw [List.append_assoc] at hat'
    have hjump : c'.At (first ++ .jump done :: (.label other :: second) ++ [.label done]) := by
      rw [List.append_assoc]
      exact hat'
    apply (before_jump hjump h' (hf c' out' s' hat'.left h')).congr
    simp only [List.length_append, List.length_cons, List.length_nil]
    omega
  · intro c' out' s' hat' hposition h'
    apply Realizes.label h'.proper hat'.head
    intro hc
    have hready := h'.advance hc
    have hsecond := before_label hat'.advance hready (hg _ out' s' hat'.advance.left hready)
    refine (hsecond.congr ?_).after (.goto c' _)
    change c'.frame.position + 1 + _ = _
    rw [hposition]
    simp only [List.length_append, List.length_cons, List.length_nil]
    omega

theorem loop {code test inner : List Instruction} {start done : String}
    {e : Store → Evaluation Store} {f : Store → Evaluation (Flow × Store)}
    (hcode : code = .label start :: test ++ .jumpIfNot acc done :: inner ++
      [.jump start, .label done])
    (hat : c.At code) (h : scope.Ready image limit c out s)
    (he : ∀ c' out' s', c'.At test → scope.Ready image limit c' out' s' →
      scope.Runs image limit c' out' test.length (e s'))
    (hf : ∀ c' out' s', c'.At inner → scope.Ready image limit c' out' s' →
      scope.Carries image limit (some done) (c'.frame.position + inner.length) c' out' (f s')) :
    scope.Carries image limit exit (c.frame.position + code.length) c out
      (repeatRound (fun s => e s >>= fun s => s.test >>= fun holds =>
        if holds then f s else .done (.leave, s)) scope.fuel s) := by
  have hlength : code.length = (test ++ .jumpIfNot acc done :: inner).length + 3 := by
    rw [hcode, List.cons_append, List.cons_append, List.length_cons, List.length_append]
    rfl
  rw [hlength]
  subst hcode
  refine rounds (fun c' out' s' hat' h' => ?_) (Nat.le_refl _) hat h
  have hcondition : c'.At (test ++ .jumpIfNot acc done :: (inner ++ [.jump start]) ++
      [.label done]) := by
    simpa only [List.append_assoc, List.cons_append, List.nil_append] using hat'
  refine condition hcondition h' (he c' out' s' hcondition.left.left h') ?_ ?_
  · intro c'' out'' s'' hbody hposition h''
    rw [List.append_assoc] at hbody
    apply (hf c'' out'' s'' hbody.left h'').congr
    rw [hposition, List.length_append, List.length_cons]
    omega
  · intro c'' out'' s'' hdone hposition h''
    exact .pure h''.proper ⟨.refl c'', ⟨_, rfl, h''.proper.compiled.labels_getElem? hdone.head⟩,
      h''.shows⟩

end Carries

end Scope

open Scope

variable {scope : Scope} {image : Image} {limit : Nat} {sigs : Signatures} {function : String}

mutual

/-- The code of a statement carries out its evaluation. -/
theorem stmt_runs : ∀ (s : Stmt) {exit : Option String} {p p' : Progress}
    {code : List Instruction} {c : Calls} {out : String} {store : Store},
    p'.declared <+: scope.names → stmt sigs function exit p s = .ok (code, p') → c.At code →
    scope.Ready image limit c out store →
    scope.Carries image limit exit (c.frame.position + code.length) c out (s.evaluate scope store)
  -- The cases follow the code of statements; `exit` is where a `break` leads to.
  | .declare name value, exit, p, p', code, c, out, store, hn, hcode, hat, h => by
    have hp := (stmt_extends hcode).prefixed.trans hn
    obtain ⟨stored, k, hv, hk, rfl, rfl⟩ := stmt_declare_eq_ok hcode
    apply Carries.of_runs (expr_runs hp value hv hat.left h)
    intro s c' out' hc' ha
    have hstore := Runs.store (h.of_arrives hc' ha) (hat.right ha.keeps.routine ha.position)
      (names_getElem? hn hk)
    refine Realizes.bind hstore fun s' c'' out'' hc'' ha' => .pure hc'' ⟨ha'.keeps, ?_, ha'.shows⟩
    rw [List.length_append, List.length_singleton]
    exact (ha.trans ha').position
  | .ret none, exit, p, p', code, c, out, store, hn, hcode, hat, h => by
    cases hcode
    exact .pure h.proper ⟨.refl c, hat.head, h.shows⟩
  | .ret (some value), exit, p, p', code, c, out, store, hn, hcode, hat, h => by
    obtain ⟨stored, hv, rfl, rfl⟩ := stmt_ret_eq_ok hcode
    apply Carries.of_runs (expr_runs hn value hv hat.left h)
    intro s c' out' hc' ha
    exact .pure hc' ⟨.refl c', (hat.right ha.keeps.routine ha.position).head, ha.shows⟩
  | .branch condition onTrue none, exit, p, p', code, c, out, store, hn, hcode, hat, h => by
    have hp := (stmt_extends hcode).prefixed.trans hn
    obtain ⟨test, first, ht, hf, hshape⟩ := stmt_branch_eq_ok hcode
    exact .branch hshape hat h (fun hat' => expr_runs hp condition ht hat' h)
      fun _ _ _ hat' h' => stmts_runs onTrue hn hf hat' h'
  | .branch condition onTrue (some onFalse), exit, p, p', code, c, out, store, hn, hcode, hat, h => by
    have hp := (stmt_extends hcode).prefixed.trans hn
    obtain ⟨test, first, p₁, second, ht, hf, hs, hshape⟩ := stmt_branchElse_eq_ok hcode
    have hp₁ : p₁.declared <+: scope.names := (stmts_extends hs).prefixed.trans hn
    exact .branchElse hshape hat h (fun hat' => expr_runs hp condition ht hat' h)
      (fun _ _ _ hat' h' => stmts_runs onTrue hp₁ hf hat' h')
      fun _ _ _ hat' h' => stmts_runs onFalse hn hs hat' h'
  | .loop condition body, exit, p, p', code, c, out, store, hn, hcode, hat, h => by
    have hp := (stmt_extends hcode).prefixed.trans hn
    obtain ⟨test, inner, ht, hb, hshape⟩ := stmt_loop_eq_ok hcode
    exact .loop hshape hat h (fun _ _ _ hat' h' => expr_runs hp condition ht hat' h')
      fun _ _ _ hat' h' => stmts_runs body hn hb hat' h'
  | .leave, exit, p, p', code, c, out, store, hn, hcode, hat, h => by
    obtain ⟨label, rfl, rfl, rfl⟩ := stmt_leave_eq_ok hcode
    obtain ⟨k, hl, j, hj, hlabel⟩ := h.proper.compiled.exists_label hat.head rfl
    have hw := h.proper.waiting_eq_nil hat.head fun _ => rfl
    exact .moved (Calls.step_jump hat.head hl)
      (.pure (h.proper.goto hw hj hlabel) ⟨.goto c k, ⟨label, rfl, hl⟩, h.shows.goto k⟩)
  | .effect e, exit, p, p', code, c, out, store, hn, hcode, hat, h => by
    obtain ⟨he, rfl⟩ := stmt_effect_eq_ok hcode
    apply Carries.of_runs (expr_runs hn e he hat h)
    intro s c' out' hc' ha
    exact .pure hc' ⟨.refl c', ha.position, ha.shows⟩

theorem stmts_runs : ∀ (ss : List Stmt) {exit : Option String} {p p' : Progress}
    {code : List Instruction} {c : Calls} {out : String} {store : Store},
    p'.declared <+: scope.names → stmts sigs function exit p ss = .ok (code, p') → c.At code →
    scope.Ready image limit c out store →
    scope.Carries image limit exit (c.frame.position + code.length) c out
      (Stmt.evaluateAll scope ss store)
  | [], exit, p, p', code, c, out, store, hn, hcode, hat, h => by
    cases hcode
    exact .pure h.proper ⟨.refl c, rfl, h.shows⟩
  | s :: rest, exit, p, p', code, c, out, store, hn, hcode, hat, h => by
    obtain ⟨first, p₁, others, hf, ho, rfl⟩ := stmts_cons_eq_ok hcode
    exact .cons hat h (stmt_runs s ((stmts_extends ho).prefixed.trans hn) hf hat.left h)
      fun _ _ _ hat' h' => stmts_runs rest hn ho hat' h'

end

end BlueCode
