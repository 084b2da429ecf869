import BlueCode.Trace

namespace BlueCode

theorem Traced.andThen_result {α β : Type} (t : Traced α) (next : α → Traced β) :
    (t.andThen next).result = t.result >>= fun a => (next a).result := by
  obtain ⟨events, result⟩ := t
  cases result <;> rfl

theorem lexTraced_result (source : String) :
    (lexTraced source).result = (lex source).mapError .lex := by
  unfold lexTraced
  cases lex source <;> rfl

theorem parseTraced_result (tokens : List Located) :
    (parseTraced tokens).result = (parse tokens).mapError .parse := by
  unfold parseTraced
  cases parse tokens <;> rfl

namespace Program

theorem sourceTraced_result (source : String) : (sourceTraced source).result = ofSource source := by
  rw [sourceTraced, Traced.andThen_result, lexTraced_result]
  simp only [parseTraced_result]
  rfl

variable (p : Program) (optimized : Bool)

theorem instructionsTraced_result :
    (p.instructionsTraced optimized).result = (p.instructions optimized).mapError .compile := by
  rw [instructionsTraced, Traced.andThen_result, compileTraced, instructions]
  cases p.compile with
  | error e => rfl
  | ok code => cases optimized <;> rfl

theorem imageTraced_result : (p.imageTraced optimized).result = p.image optimized := by
  rw [imageTraced, Traced.andThen_result, instructionsTraced_result, image, build]
  cases p.instructions optimized <;> rfl

end Program

namespace Log

/-- The log has the first `limit` of the events. -/
structure Holds (limit : Nat) (all : List Event) (log : Log) : Prop where
  events : log.events.reverse = all.take limit
  room : log.room = limit - all.length

variable {limit : Nat} {all events : List Event} {log : Log}

theorem Holds.empty : (Log.empty limit).Holds limit [] :=
  ⟨List.take_nil.symm, rfl⟩

theorem Holds.tell (h : log.Holds limit all) (events : List Event) :
    (log.tell events).Holds limit (all ++ events) := by
  refine ⟨?_, ?_⟩
  · rw [Log.tell, List.reverse_append, List.reverse_reverse, h.events, h.room, List.take_append]
  · rw [Log.tell, h.room, List.length_append, Nat.sub_sub]

theorem tell_of_room (h : log.room = 0) (events : List Event) : log.tell events = log := by
  rw [tell, h, List.take_zero, Nat.zero_sub, ← h]
  rfl

theorem note_eq (log : Log) (events : List Event) :
    (if log.room = 0 then log else log.tell events) = log.tell events := by
  split
  case isTrue h => rw [tell_of_room h]
  case isFalse => rfl

/-- Two logs have the first of the same events, as many as each may have. -/
def Alike (limit limit' : Nat) (log log' : Log) : Prop :=
  ∃ all, log.Holds limit all ∧ log'.Holds limit' all

variable {limit' : Nat} {log' : Log}

theorem Alike.empty : Alike limit limit' (.empty limit) (.empty limit') :=
  ⟨[], .empty, .empty⟩

theorem Alike.tell (h : Alike limit limit' log log') (events : List Event) :
    Alike limit limit' (log.tell events) (log'.tell events) := by
  obtain ⟨all, hlog, hlog'⟩ := h
  exact ⟨all ++ events, hlog.tell events, hlog'.tell events⟩

theorem Alike.events_eq (h : Alike limit limit' log log') (hle : limit ≤ limit') :
    log.events.reverse = log'.events.reverse.take limit := by
  obtain ⟨all, hlog, hlog'⟩ := h
  rw [hlog.events, hlog'.events, List.take_take, Nat.min_eq_left hle]

end Log

variable (detail : Detail) (settings : Settings)

/-- A run that tells of itself comes to the same as one that does not. -/
theorem State.traceRun_outcome (image : Image) (fuel : Nat) (s : State) (output : String)
    (log : Log) :
    (s.traceRun detail settings image fuel output log).map Prod.snd =
      s.run settings image fuel output := by
  induction fuel generalizing s output log with
  | zero => rfl
  | succ fuel ih =>
    rw [traceRun, run]
    cases s.step settings image with
    | error e => rfl
    | ok transition => cases transition <;> first | exact ih _ _ _ | rfl

theorem State.traceRun_alike {limit limit' : Nat} (image : Image) (fuel : Nat) (s : State)
    (output : String) {log log' : Log} (h : Log.Alike limit limit' log log') :
    Option.Rel (fun r r' => Log.Alike limit limit' r.1 r'.1 ∧ r.2 = r'.2)
      (s.traceRun detail settings image fuel output log)
      (s.traceRun detail settings image fuel output log') := by
  induction fuel generalizing s output log log' with
  | zero => exact .none
  | succ fuel ih =>
    simp only [traceRun, Log.note_eq]
    have hbefore := h.tell (s.events detail)
    cases s.step settings image with
    | error e => exact .some ⟨hbefore, rfl⟩
    | ok transition =>
      have hafter := hbefore.tell (transition.events s.frame.routine.name)
      cases transition with
      | moved next | entered next | left next | printed text next => exact ih _ _ hafter
      | halted halt => exact .some ⟨hafter, rfl⟩

theorem runTraced_report (fuel limit : Nat) (t : Traced Image) :
    (runTraced detail settings fuel limit t).map Prod.snd = runImage settings fuel t.result := by
  obtain ⟨events, result⟩ := t
  cases result with
  | error f => rfl
  | ok image =>
    have hrun (log : Log) :
        (image.traceRun detail settings fuel log).map Prod.snd = image.run settings fuel := by
      unfold Image.traceRun Image.run
      cases image.find? "main" with
      | none => rfl
      | some main => exact State.traceRun_outcome detail settings image fuel _ "" log
    rw [runImage, ← hrun ((Log.empty limit).tell events)]
    simp only [runTraced, traceImage, Option.map_map]
    rfl

theorem traceImage_alike (fuel limit limit' : Nat) (t : Traced Image) :
    Option.Rel (fun r r' => Log.Alike limit limit' r.1 r'.1 ∧ r.2 = r'.2)
      (traceImage detail settings fuel limit t) (traceImage detail settings fuel limit' t) := by
  obtain ⟨events, result⟩ := t
  have hstart : Log.Alike limit limit' ((Log.empty limit).tell events)
      ((Log.empty limit').tell events) := Log.Alike.empty.tell events
  cases result with
  | error f => exact .some ⟨hstart, rfl⟩
  | ok image =>
    simp only [traceImage, Image.traceRun]
    cases image.find? "main" with
    | none => exact .some ⟨hstart, rfl⟩
    | some main =>
      have hrun := State.traceRun_alike detail settings image fuel (.start main) "" hstart
      dsimp only
      generalize State.traceRun _ _ _ _ _ _ ((Log.empty limit).tell events) = r at hrun ⊢
      generalize State.traceRun _ _ _ _ _ _ ((Log.empty limit').tell events) = r' at hrun ⊢
      cases hrun with
      | none => exact .none
      | some h => exact .some ⟨h.1, congrArg Outcome.report h.2⟩

/-- The limit only cuts off the events behind it. -/
theorem runTraced_take {limit limit' : Nat} (h : limit ≤ limit') (fuel : Nat) (t : Traced Image) :
    runTraced detail settings fuel limit t =
      (runTraced detail settings fuel limit' t).map fun r => (r.1.take limit, r.2) := by
  have hrun := traceImage_alike detail settings fuel limit limit' t
  unfold runTraced
  generalize traceImage detail settings fuel limit t = r at hrun ⊢
  generalize traceImage detail settings fuel limit' t = r' at hrun ⊢
  cases hrun with
  | none => rfl
  | some hr => exact congrArg some (Prod.ext (hr.1.events_eq h) hr.2)

end BlueCode
