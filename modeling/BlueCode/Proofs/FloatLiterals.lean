import BlueCode.Proofs.AcceptedPrograms

namespace BlueCode

variable {f : Float → Option Float}

def Literal.mapFloat? (f : Float → Option Float) : Literal → Option Literal
  | float x => (f x).map float
  | value => some value

mutual

/-- Puts other numbers in the place of the floats, if there is one for each. -/
def Expr.mapFloats? (f : Float → Option Float) : Expr → Option Expr
  | .literal value => (value.mapFloat? f).map .literal
  | .ident name => some (.ident name)
  | .assign target value => return .assign (← target.mapFloats? f) (← value.mapFloats? f)
  | .arith op left right => return .arith op (← left.mapFloats? f) (← right.mapFloats? f)
  | .compare op left right => return .compare op (← left.mapFloats? f) (← right.mapFloats? f)
  | .call function args => (Expr.listMapFloats? f args).map (.call function)

def Expr.listMapFloats? (f : Float → Option Float) : List Expr → Option (List Expr)
  | [] => some []
  | e :: rest => return (← e.mapFloats? f) :: (← Expr.listMapFloats? f rest)

end

mutual

def Stmt.mapFloats? (f : Float → Option Float) : Stmt → Option Stmt
  | .declare name value => (value.mapFloats? f).map (.declare name)
  | .ret none => some (.ret none)
  | .ret (some value) => (value.mapFloats? f).map fun e => .ret (some e)
  | .branch condition onTrue none =>
    return .branch (← condition.mapFloats? f) (← Stmt.listMapFloats? f onTrue) none
  | .branch condition onTrue (some onFalse) =>
    return .branch (← condition.mapFloats? f) (← Stmt.listMapFloats? f onTrue)
      (some (← Stmt.listMapFloats? f onFalse))
  | .loop condition body =>
    return .loop (← condition.mapFloats? f) (← Stmt.listMapFloats? f body)
  | .leave => some .leave
  | .effect e => (e.mapFloats? f).map .effect

def Stmt.listMapFloats? (f : Float → Option Float) : List Stmt → Option (List Stmt)
  | [] => some []
  | s :: rest => return (← s.mapFloats? f) :: (← Stmt.listMapFloats? f rest)

end

def Function.mapFloats? (f : Float → Option Float) (function : Function) : Option Function :=
  (Stmt.listMapFloats? f function.body).map (.mk function.name function.params)

def Program.mapFloats? (f : Float → Option Float) (p : Program) : Option Program :=
  (p.functions.mapM (Function.mapFloats? f)).map .mk

theorem mapM_eq_none_iff {xs : List Float} : xs.mapM f = none ↔ ∃ x ∈ xs, f x = none := by
  induction xs with
  | nil => exact iff_of_false nofun nofun
  | cons x xs ih =>
    rw [List.mapM_cons, List.exists_mem_cons_iff, ← ih]
    cases f x with
    | none => exact iff_of_true rfl (.inl rfl)
    | some y => cases xs.mapM f <;> simp

theorem mapM_eq_self_iff {xs : List Float} : xs.mapM f = some xs ↔ ∀ x ∈ xs, f x = some x := by
  induction xs with
  | nil => exact iff_of_true rfl nofun
  | cons x xs ih =>
    rw [List.mapM_cons, List.forall_mem_cons, ← ih]
    cases f x with
    | none => simp
    | some y => cases xs.mapM f <;> simp

/-- The result `x` has, in place of the floats of `a`, what `f` gives for them. -/
structure Maps (f : Float → Option Float) {α : Type} (floats : α → List Float) (a : α)
    (x : Option α) : Prop where
  same : (∀ y ∈ floats a, f y = some y) → x = some a
  floats_eq : x.map floats = (floats a).mapM f

namespace Maps

variable {α β γ δ : Type} {fa : α → List Float} {fb : β → List Float} {fc : γ → List Float}
  {fd : δ → List Float} {a : α} {b : β} {c : γ} {x : Option α} {y : Option β} {z : Option γ}

theorem eq_some_iff (h : Maps f fa a x) : x = some a ↔ ∀ y ∈ fa a, f y = some y := by
  refine ⟨fun hx => mapM_eq_self_iff.1 ?_, h.same⟩
  rw [← h.floats_eq, hx]
  rfl

theorem eq_none_iff (h : Maps f fa a x) : x = none ↔ ∃ y ∈ fa a, f y = none := by
  rw [← mapM_eq_none_iff, ← h.floats_eq, Option.map_eq_none_iff]

theorem of_nil (h : fa a = []) : Maps f fa a (some a) where
  same _ := rfl
  floats_eq := by
    rw [h]
    exact congrArg some h

theorem map (hx : Maps f fa a x) (make : α → β) (hmake : ∀ a, fb (make a) = fa a) :
    Maps f fb (make a) (x.map make) where
  same h := by
    rw [hx.same (hmake a ▸ h)]
    rfl
  floats_eq := by
    rw [hmake, ← hx.floats_eq, Option.map_map]
    exact congrArg (x.map ·) (funext hmake)

theorem pair (hx : Maps f fa a x) (hy : Maps f fb b y) (make : α → β → γ)
    (hmake : ∀ a b, fc (make a b) = fa a ++ fb b) :
    Maps f fc (make a b) (do let l ← x; let r ← y; return make l r) where
  same h := by
    rw [hmake, List.forall_mem_append] at h
    rw [hx.same h.1, hy.same h.2]
    rfl
  floats_eq := by
    rw [hmake, List.mapM_append, ← hx.floats_eq, ← hy.floats_eq]
    cases x with
    | none => rfl
    | some a =>
      cases y with
      | none => rfl
      | some b => exact congrArg some (hmake a b)

theorem triple (hx : Maps f fa a x) (hy : Maps f fb b y) (hz : Maps f fc c z)
    (make : α → β → γ → δ) (hmake : ∀ a b c, fd (make a b c) = fa a ++ fb b ++ fc c) :
    Maps f fd (make a b c) (do let l ← x; let m ← y; let r ← z; return make l m r) := by
  have hxy : Maps f (fun ab : α × β => fa ab.1 ++ fb ab.2) (a, b)
      (do let l ← x; let m ← y; return (l, m)) := hx.pair hy Prod.mk fun _ _ => rfl
  have hall : Maps f fd (make a b c)
      (do let ab ← (do let l ← x; let m ← y; return (l, m)); let r ← z; return make ab.1 ab.2 r) :=
    hxy.pair hz (fun ab c => make ab.1 ab.2 c) fun ab c => hmake ab.1 ab.2 c
  simpa only [bind_assoc, pure_bind] using hall

end Maps

theorem Literal.maps (value : Literal) :
    Maps f (fun value => (Expr.literal value).floats) value (value.mapFloat? f) := by
  cases value with
  | float x =>
    constructor
    · intro h
      rw [mapFloat?, h x List.mem_cons_self]
      rfl
    · change ((f x).map float).map (fun value => (Expr.literal value).floats) = [x].mapM f
      rw [List.mapM_cons]
      cases f x <;> rfl
  | int n => exact .of_nil rfl
  | str s => exact .of_nil rfl

mutual

theorem Expr.maps : ∀ e : Expr, Maps f Expr.floats e (e.mapFloats? f)
  | .literal value => value.maps.map Expr.literal fun _ => rfl
  | .ident _ => .of_nil rfl
  | .assign target value => (Expr.maps target).pair (Expr.maps value) Expr.assign fun _ _ => rfl
  | .arith op left right => (Expr.maps left).pair (Expr.maps right) (Expr.arith op) fun _ _ => rfl
  | .compare op left right => (Expr.maps left).pair (Expr.maps right) (Expr.compare op) fun _ _ => rfl
  | .call function args => (Expr.list_maps args).map (Expr.call function) fun _ => rfl

theorem Expr.list_maps : ∀ es : List Expr, Maps f Expr.listFloats es (Expr.listMapFloats? f es)
  | [] => .of_nil rfl
  | e :: es => (Expr.maps e).pair (Expr.list_maps es) List.cons fun _ _ => rfl

end

mutual

theorem Stmt.maps : ∀ s : Stmt, Maps f Stmt.floats s (s.mapFloats? f)
  | .declare name value => value.maps.map (Stmt.declare name) fun _ => rfl
  | .ret none => .of_nil rfl
  | .ret (some value) => value.maps.map (fun e => Stmt.ret (some e)) fun _ => rfl
  | .branch condition onTrue none =>
    condition.maps.pair (Stmt.list_maps onTrue) (fun c t => Stmt.branch c t none) fun _ _ => rfl
  | .branch condition onTrue (some onFalse) =>
    condition.maps.triple (Stmt.list_maps onTrue) (Stmt.list_maps onFalse)
      (fun c t e => Stmt.branch c t (some e)) fun _ _ _ => rfl
  | .loop condition body => condition.maps.pair (Stmt.list_maps body) Stmt.loop fun _ _ => rfl
  | .leave => .of_nil rfl
  | .effect e => e.maps.map Stmt.effect fun _ => rfl

theorem Stmt.list_maps : ∀ ss : List Stmt, Maps f Stmt.listFloats ss (Stmt.listMapFloats? f ss)
  | [] => .of_nil rfl
  | s :: ss => (Stmt.maps s).pair (Stmt.list_maps ss) List.cons fun _ _ => rfl

end

theorem Function.list_maps (fs : List Function) :
    Maps f (List.flatMap fun f => Stmt.listFloats f.body) fs (fs.mapM (Function.mapFloats? f)) := by
  induction fs with
  | nil => exact .of_nil rfl
  | cons function fs ih =>
    have hbody : Maps f (fun f => Stmt.listFloats f.body) function (function.mapFloats? f) :=
      (Stmt.list_maps function.body).map (Function.mk function.name function.params) fun _ => rfl
    rw [List.mapM_cons]
    exact hbody.pair ih List.cons fun _ _ => List.flatMap_cons

theorem Program.maps (p : Program) : Maps f Program.floats p (p.mapFloats? f) :=
  (Function.list_maps p.functions).map Program.mk fun _ => rfl

end BlueCode
