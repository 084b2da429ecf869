import BlueCode.Proofs.StatementRuns

namespace BlueCode

open Compile

namespace Calls

/-- A call of a function that has just started: none of its variables has a value. -/
structure Begins (c : Calls) (b : Block) : Prop where
  routine : c.frame.routine = b.routine
  position : c.frame.position = 0
  fresh : ∀ k < c.frame.routine.frameSize, c.heap.get? (c.frame.base + k) = none

/-- The call has come to its end, with a result. -/
structure Finishes (c : Calls) (r : Value × String) (c' : Calls) (out : String) : Prop where
  keeps : c.Keeps c'
  ended : c'.instruction? = some .ret ∨ c'.instruction? = none
  accumulator : c'.get .ra = r.1
  output : out = r.2

variable {settings : Settings} {image : Image} {limit : Nat} {c c' : Calls} {out : String}
  {r : Value × String}

theorem Finishes.step (h : c.Finishes r c' out)
    (hc' : c'.Proper settings image limit) :
    c'.waiting = [] ∧ c'.state.step settings image = c'.state.leave :=
  h.ended.elim hc'.step_ret hc'.step_end

theorem Begins.initial (b : Block) : (initial b.routine).Begins b :=
  ⟨rfl, rfl, fun _ _ => Memory.get?_empty _⟩

theorem Begins.enter (c : Calls) (b : Block) : (c.enter b.routine).Begins b := by
  refine ⟨rfl, rfl, fun k hk => ?_⟩
  refine (Memory.get?_clear ..).trans (if_pos ⟨?_, ?_⟩)
  · change ((c.frame.base + c.frame.routine.frameSize : Nat) : Int) ≤
      (c.frame.base + c.frame.routine.frameSize : Nat) + k
    omega
  · change ((c.frame.base + c.frame.routine.frameSize : Nat) : Int) + k <
      (c.frame.base + c.frame.routine.frameSize : Nat) + (b.routine.frameSize : Int)
    have hlt : k < b.routine.frameSize := hk
    omega

theorem Finishes.leave_main (h : c.Finishes r c' out) (hc' : c'.Proper settings image limit)
    (hc : c.callers = []) : c'.state.Ends settings image out ⟨.ok (.returned r.1), r.2⟩ := by
  have hs := (h.step hc').2
  rw [Calls.leave_main (h.keeps.callers.trans hc), h.accumulator] at hs
  rw [← h.output]
  exact .of_halted hs out

theorem Finishes.leave_call {callee : Routine} (h : (c.enter callee).Finishes r c' out)
    (hc' : c'.Proper settings image limit) (hp : c.frame.position + 1 < 2 ^ 63) :
    ∃ c'' : Calls, Path settings image c'.state out c''.state out ∧
      c''.Proper settings image limit ∧ c.Returns r c'' out := by
  have hcallers : c'.callers = ⟨c.frame, c.waiting⟩ :: c.callers := h.keeps.callers
  obtain ⟨hw, hs⟩ := h.step hc'
  rw [Calls.leave_call hcallers hw hc'.height hp] at hs
  refine ⟨_, .silent hs rfl rfl, hc'.resume hcallers, rfl, rfl, rfl, ?_, h.accumulator, h.output⟩
  intro cell hcell
  apply (h.keeps.below cell hcell).trans
  refine (Memory.get?_clear ..).trans (if_neg fun hin => ?_)
  omega

theorem start_eq_ok {callee : Routine} (h : image.Roomy settings limit)
    (hc : c.Proper settings image limit) (hi : c.instruction? = some (.call callee.name))
    (hcallee : callee.Compiled image limit) (hd : ¬ settings.maxCallDepth ≤ c.callers.length + 1) :
    (c.enter callee).Proper settings image limit ∧ c.start settings callee = .ok (c.enter callee) := by
  have hnext := hc.enter hi hcallee (h.height_lt hc hi) hd
  refine ⟨hnext, ?_⟩
  have hcell : State.cell (c.frame.base + c.frame.routine.frameSize) callee.frameSize =
      .ok (c.frame.base + c.frame.routine.frameSize + callee.frameSize : Nat) :=
    cell_eq_ok (h.base_lt hnext)
  rw [start, if_neg hd, cell_eq_ok (h.base_lt hc)]
  simp only [Except.bind, hcell]
  rfl

end Calls

structure Program.LoadedAs (p : Program) (sigs : Signatures) (image : Image) : Prop where
  missing : ∀ {name}, p.function? name = none → image.find? name = none
  found : ∀ {name f}, p.function? name = some f → f.params.length ≤ 1 ∧
    ∃ b : Block, image.find? name = some b.routine ∧ Compile.function sigs f = .ok b.code

theorem Program.loadedAs_ofBlocks {p : Program} {sigs : Signatures} {blocks : List Block}
    (hb : Blocks sigs p.functions blocks) (hd : (blocks.map Block.name).Nodup)
    (hp : ∀ f ∈ p.functions, f.params.length ≤ 1) : p.LoadedAs sigs (.ofBlocks blocks) where
  missing {name} hf := by
    rw [Program.function?, List.find?_eq_none] at hf
    rw [← Option.not_isSome_iff_eq_none, Option.isSome_iff_exists]
    rintro ⟨r, hr⟩
    obtain ⟨b, hmem, rfl, -⟩ := (Image.find?_ofBlocks hd name r).1 hr
    obtain ⟨f, hmem', hname, -⟩ := hb.exists_function hmem
    exact hf f hmem' (beq_iff_eq.2 hname.symm)
  found {name f} hf := by
    have hmem := List.mem_of_find?_eq_some hf
    rw [Program.function?] at hf
    have hname := List.find?_some hf
    rw [beq_iff_eq] at hname
    obtain ⟨b, hmem', hb', hcode⟩ := hb.exists_block hmem
    exact ⟨hp f hmem, b, (Image.find?_ofBlocks hd name _).2 ⟨b, hmem', hb'.trans hname, rfl⟩, hcode⟩

namespace Function

variable {f : Function} {b : Block} {sigs : Signatures} {settings : Settings} {fuel : Nat}
  {invoke : Invoke} {image : Image} {limit : Nat} {c : Calls} {out : String}

theorem extends_names (f : Function) : Extends f.params f.names :=
  Stmt.extends_allDeclared f.body f.params

theorem names_nodup (hp : f.params.length ≤ 1) : f.names.Nodup :=
  f.extends_names.nodup (by
    match f.params, hp with
    | [], _ => exact List.nodup_nil
    | [name], _ => exact List.nodup_singleton name)

theorem frameSize_eq {body : List Instruction} {p : Progress} (hp : f.params.length ≤ 1)
    (hbody : stmts sigs f.name none ⟨f.params, 0⟩ f.body = .ok (body, p))
    (he : b.body = f.params.map (fun _ => .mov acc (.heap (.ofNat 0))) ++ body)
    (hl : b.body.length < 2 ^ 63) : b.routine.frameSize = f.names.length := by
  have htidy := (function_code (fun _ => True) (fun _ _ => trivial) hp hbody).tidy
  rw [← he, stmts_declared f.body hbody] at htidy
  exact htidy.frameSize_eq hl b.name

theorem entry_runs {scope : Scope} {rest : List Instruction} (hp : f.params.length ≤ 1)
    (hnames : f.params <+: scope.names)
    (hat : c.At (f.params.map (fun _ => .mov acc (.heap (.ofNat 0))) ++ rest))
    (h : scope.Ready image limit c out ⟨c.get .ra, fun _ => none, out⟩) :
    scope.Runs image limit c out f.params.length (.done (f.entry (c.get .ra) out)) := by
  unfold entry
  generalize f.params = params at hp hnames hat
  match params, hp with
  | [], _ => exact .pure h.proper ⟨.refl c, rfl, h.shows⟩
  | [name], _ =>
    have hname : scope.names[0]? = some name := by
      obtain ⟨others, hnames⟩ := hnames
      rw [← hnames]
      rfl
    have hstore := Scope.Runs.store h hat.left hname
    have hvalues : (Store.assign ⟨c.get .ra, fun _ => none, out⟩ name).values =
        fun other => if other ∈ [name] then some (c.get .ra) else none := by
      funext other
      simp only [Store.assign, List.mem_singleton]
    rw [← hvalues]
    exact hstore

/-- The code of a function carries out its evaluation. -/
theorem runs (hp : f.params.length ≤ 1) (hcode : Compile.function sigs f = .ok b.code)
    (hroomy : image.Roomy settings limit) (hc : c.Proper settings image limit) (hb : c.Begins b)
    (hs : Scope.Serves ⟨settings, fuel, f.names, invoke⟩ image limit c.callers.length) :
    Realizes settings image limit fuel c.Finishes c out
      (f.evaluate settings fuel invoke (c.get .ra) out) := by
  obtain ⟨body, p, hbody, he⟩ := function_eq_ok hp hcode
  obtain ⟨-, he⟩ := List.cons.inj (he : .define b.name :: b.body = _)
  have hlength : b.body.length < 2 ^ 63 := by
    have hsize := hc.compiled.size_le
    rw [hb.routine, Block.routine, Routine.ofBody_code, List.size_toArray] at hsize
    exact Nat.lt_of_le_of_lt hsize hroomy.limit_lt
  have hframe : c.frame.routine.frameSize = f.names.length := by
    rw [hb.routine]
    exact frameSize_eq hp hbody he hlength
  have hat : c.At (f.params.map (fun _ => .mov acc (.heap (.ofNat 0))) ++ body) := by
    rw [Calls.At, hb.routine, hb.position, Block.routine, Routine.ofBody_code, ← he]
    exact List.prefix_refl _
  have hready : Scope.Ready ⟨settings, fuel, f.names, invoke⟩ image limit c out
      ⟨c.get .ra, fun _ => none, out⟩ := by
    refine ⟨hroomy, hs, names_nodup hp, hframe.symm, hc, rfl, fun k name hk => ?_, rfl⟩
    apply hb.fresh k
    rw [hframe]
    exact (List.getElem?_eq_some_iff.1 hk).1
  have hentry := entry_runs hp f.extends_names.prefixed hat hready
  obtain ⟨c₁, out₁, hpath, hc₁, ha⟩ := hentry.exists_path
  apply Realizes.path hpath
  have hnames : p.declared <+: f.names := by
    rw [stmts_declared f.body hbody]
    exact List.prefix_refl _
  have hparams : (f.params.map fun _ => Instruction.mov acc (.heap (.ofNat 0))).length =
      f.params.length := List.length_map ..
  have hrest : c₁.At body := hat.right ha.keeps.routine (by rw [ha.position, hparams])
  have hready₁ := hready.of_arrives hc₁ ha
  apply Realizes.bind (stmts_runs f.body hnames hbody hrest hready₁)
  intro r c₂ out₂ hc₂ hr
  obtain ⟨flow, s'⟩ := r
  refine .pure hc₂ ⟨ha.keeps.trans hr.keeps, ?_, hr.shows.accumulator, hr.shows.output⟩
  cases flow with
  | next =>
    have hposition : c₂.frame.position = b.body.length := by
      apply Eq.trans hr.lands
      rw [ha.position, hb.position, he, List.length_append, hparams, Nat.zero_add]
    apply Or.inr
    rw [Calls.instruction?, Frame.instruction?, hposition, hr.keeps.routine, ha.keeps.routine,
      hb.routine, Block.routine, Routine.ofBody_code, List.getElem?_toArray]
    exact List.getElem?_eq_none (Nat.le_refl _)
  | leave =>
    obtain ⟨label, hlabel, -⟩ := hr.lands
    cases hlabel
  | ret => exact .inl hr.lands

end Function

namespace Program

variable {p : Program} {sigs : Signatures} {settings : Settings} {image : Image} {limit : Nat}

/-- Calls do what the functions of the program mean, where so many more may be live. -/
theorem serves (hp : p.LoadedAs sigs image) (hroomy : image.Roomy settings limit) (fuel : Nat) :
    ∀ (calls depth : Nat) (names : List String), calls = settings.maxCallDepth - (depth + 1) →
      Scope.Serves ⟨settings, fuel, names, p.invoke settings fuel calls⟩ image limit depth := by
  intro calls
  -- The calls that a function makes are fewer than those that may be live with its own.
  induction calls with
  | zero =>
    intro depth names hcalls c out name hc hdepth hi hb
    have hheight := hroomy.height_lt hc hi
    change Realizes settings image limit fuel c.Returns c out
      (p.invoke settings fuel 0 name (c.get .ra) out)
    rw [Program.invoke]
    cases hf : p.function? name with
    | none => exact .error (Calls.step_call_missing hi hb (hp.missing hf) hheight)
    | some f =>
      obtain ⟨-, b, hfind, -⟩ := hp.found hf
      have hstep := @Calls.step_call settings image c name b.routine hi hb hfind hheight
      have hfull : settings.maxCallDepth ≤ c.callers.length + 1 := by omega
      rw [Calls.start, if_pos hfull] at hstep
      exact .error hstep
  | succ calls ih =>
    intro depth names hcalls c out name hc hdepth hi hb
    have hheight := hroomy.height_lt hc hi
    change Realizes settings image limit fuel c.Returns c out
      (p.invoke settings fuel (calls + 1) name (c.get .ra) out)
    rw [Program.invoke]
    cases hf : p.function? name with
    | none => exact .error (Calls.step_call_missing hi hb (hp.missing hf) hheight)
    | some f =>
      obtain ⟨hparams, b, hfind, hcode⟩ := hp.found hf
      obtain ⟨hname, hcallee⟩ := hroomy.compiled name _ hfind
      have hstep := @Calls.step_call settings image c name b.routine hi hb hfind hheight
      have hfree : ¬ settings.maxCallDepth ≤ c.callers.length + 1 := by omega
      rw [← hname] at hi
      obtain ⟨hnext, hstart⟩ := Calls.start_eq_ok hroomy hc hi hcallee hfree
      rw [hstart] at hstep
      have hcalls' : calls = settings.maxCallDepth - (c.callers.length + 1 + 1) := by omega
      have hrun : Realizes settings image limit fuel (c.enter b.routine).Finishes
          (c.enter b.routine) out
          (f.evaluate settings fuel (p.invoke settings fuel calls) (c.get .ra) out) :=
        f.runs hparams hcode hroomy hnext (.enter c b) (ih _ f.names hcalls')
      refine .path (.silent hstep rfl rfl) (hrun.onward fun r c' out' hc' hfin => ?_)
      have hposition := hc.compiled.position_lt hi
      have hlimit := hroomy.limit_lt
      obtain ⟨c'', hpath, hc'', hr⟩ := hfin.leave_call hc' (by omega)
      exact .path hpath (.pure hc'' hr)

theorem run_of_evaluate (hp : p.LoadedAs sigs image) (hroomy : image.Roomy settings limit)
    (fuel : Nat) :
    (∀ o, p.evaluate settings fuel = some o → ∃ n, image.run settings n = some o) ∧
      (p.evaluate settings fuel = none → image.run settings fuel = none) := by
  rw [evaluate]
  unfold Image.run
  cases hf : p.function? "main" with
  | none =>
    rw [hp.missing hf]
    exact ⟨fun o ho => ⟨0, ho⟩, fun h => absurd h (Option.some_ne_none _)⟩
  | some f =>
    obtain ⟨hparams, b, hfind, hcode⟩ := hp.found hf
    rw [hfind]
    have hc : (Calls.initial b.routine).Proper settings image limit :=
      .initial (hroomy.compiled _ _ hfind).2
    have hrun : Realizes settings image limit fuel (Calls.initial b.routine).Finishes
        (Calls.initial b.routine) ""
        (f.evaluate settings fuel (p.invoke settings fuel (settings.maxCallDepth - 1)) .null "") :=
      f.runs hparams hcode hroomy hc (.initial b) (serves hp hroomy fuel _ 0 f.names rfl)
    simp only [← Calls.initial_state]
    generalize f.evaluate settings fuel (p.invoke settings fuel (settings.maxCallDepth - 1)) .null ""
      = x at hrun
    cases hrun with
    | done hpath hc' hfin =>
      refine ⟨fun o ho => ?_, fun h => absurd h (Option.some_ne_none _)⟩
      cases ho
      exact hpath.ends (hfin.leave_main hc' rfl)
    | ended h =>
      refine ⟨fun o ho => ?_, fun h => absurd h (Option.some_ne_none _)⟩
      cases ho
      exact h
    | unfinished h =>
      refine ⟨fun o ho => ?_, fun _ => h ""⟩
      cases ho

theorem run_unique {fuel fuel' : Nat} {o o' : Outcome} (h : image.run settings fuel = some o)
    (h' : image.run settings fuel' = some o') : o = o' := by
  unfold Image.run at h h'
  cases hf : image.find? "main" with
  | none =>
    rw [hf] at h h'
    exact Option.some.inj (h.symm.trans h')
  | some main =>
    rw [hf] at h h'
    exact State.Ends.unique ⟨fuel, h⟩ ⟨fuel', h'⟩

/-- Compiled code ends as the evaluation of the program does, and goes on for ever if this does. -/
theorem run_iff_evaluate {code : List Instruction} (hc : p.compile = .ok code)
    (hroom : (settings.maxCallDepth + 1) * (code.length + 1) < 2 ^ 63) :
    ∃ image, Image.ofInstructions code = .ok image ∧
      (∀ o, (∃ fuel, image.run settings fuel = some o) ↔
        ∃ fuel, p.evaluate settings fuel = some o) ∧
      ((∀ fuel, image.run settings fuel = none) ↔ ∀ fuel, p.evaluate settings fuel = none) := by
  obtain ⟨sigs, blocks, hs, hb, rfl, hd, hp⟩ := compile_eq_ok hc
  have hlimit : (blocks.flatMap Block.code).length < 2 ^ 63 := by
    have hle : 1 * ((blocks.flatMap Block.code).length + 1) ≤
        (settings.maxCallDepth + 1) * ((blocks.flatMap Block.code).length + 1) :=
      Nat.mul_le_mul_right _ (Nat.succ_pos _)
    omega
  have hid : blocks.map (Block.finished false) = blocks := List.map_id blocks
  have himage := @Program.exists_image p false sigs blocks hb hd hp
  rw [hid] at himage
  obtain ⟨hload, hcompiled⟩ := himage hlimit
  refine ⟨_, hload, ?_⟩
  have hspec := p.run_of_evaluate (p.loadedAs_ofBlocks hb hd hp) ⟨hcompiled, hroom⟩
  constructor
  · intro o
    constructor
    · rintro ⟨fuel, hrun⟩
      cases he : p.evaluate settings fuel with
      | none =>
        rw [(hspec fuel).2 he] at hrun
        cases hrun
      | some o' =>
        obtain ⟨fuel', hrun'⟩ := (hspec fuel).1 o' he
        exact ⟨fuel, run_unique hrun hrun' ▸ he⟩
    · rintro ⟨fuel, he⟩
      exact (hspec fuel).1 o he
  · constructor
    · intro hrun fuel
      cases he : p.evaluate settings fuel with
      | none => rfl
      | some o =>
        obtain ⟨fuel', hrun'⟩ := (hspec fuel).1 o he
        rw [hrun] at hrun'
        cases hrun'
    · exact fun he fuel => (hspec fuel).2 (he fuel)

theorem run_iff_evaluate_factorial :
    ∃ code image, Program.factorial.compile = .ok code ∧
      (({} : Settings).maxCallDepth + 1) * (code.length + 1) < 2 ^ 63 ∧
      Image.ofInstructions code = .ok image ∧
      ∃ fuel, image.run {} fuel = some ⟨.ok (.returned (.int 120)), "120\n"⟩ := by
  have room : (({} : Settings).maxCallDepth + 1) *
      ((Program.factorial.compile).toOption.getD []).length.succ < 2 ^ 63 := by
    decide
  obtain ⟨image, himage, h, -⟩ := @run_iff_evaluate Program.factorial {} _ rfl room
  exact ⟨_, image, rfl, room, himage, (h _).2 ⟨5, rfl⟩⟩

end Program

end BlueCode
