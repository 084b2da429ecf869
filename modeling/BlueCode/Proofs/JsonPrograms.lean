import BlueCode.Proofs.FloatLiterals
import BlueCode.Proofs.JsonNumbers

namespace BlueCode

namespace Json

mutual

/-- How deep arrays and objects are nested in a document. -/
def depth : Json → Nat
  | array items => itemDepth items + 1
  | object fields => fieldDepth fields + 1
  | _ => 0

def itemDepth : List Json → Nat
  | [] => 0
  | j :: rest => max (depth j) (itemDepth rest)

def fieldDepth : List (Option String × Json) → Nat
  | [] => 0
  | (_, j) :: rest => max (depth j) (fieldDepth rest)

end

@[simp] theorem depth_null : null.depth = 0 := rfl

@[simp] theorem depth_text (s : String) : (text s).depth = 0 := rfl

@[simp] theorem depth_array (items : List Json) : (array items).depth = itemDepth items + 1 := rfl

/-- A record goes one level further than the deepest of its fields. -/
@[simp] theorem depth_record (fields : List (String × Json)) :
    (record fields).depth = fields.foldr (fun field deepest => max field.2.depth deepest) 0 + 1 := by
  induction fields with
  | nil => rfl
  | cons field rest ih => exact congrArg (max field.2.depth · + 1) (Nat.succ.inj ih)

theorem depth_case (name : String) (content : Json) :
    (case name content).depth = content.depth + 1 :=
  congrArg (· + 1) (Nat.max_zero _)

def ReadsBack (x : Float) : Prop :=
  x.isFinite = true → (ofFloat x).float? = some x

theorem depth_ofFloat (x : Float) : (ofFloat x).depth = 0 := by
  unfold ofFloat
  split <;> rfl

/-- What is read for the document of a number. -/
def reread (x : Float) : Option Float :=
  (ofFloat x).float?

/-- With room for so many levels `x` has the result of `y`, if it does not need more of them. -/
def Within {α : Type} (room depth : Nat) (x y : Option α) : Prop :=
  x = if depth ≤ room then y else none

namespace Within

variable {α β γ : Type} {room d d' : Nat} {x x' : Option α} {y y' : Option β}

theorem of_eq (h : x = x') : Within room 0 x x' :=
  h.trans (if_pos (Nat.zero_le room)).symm

theorem map (h : Within room d x x') (make : α → β) :
    Within room d (x.map make) (x'.map make) := by
  rw [Within, h, apply_ite (Option.map make)]
  rfl

theorem bind (h : Within room d x x') {g g' : α → Option β}
    (hg : ∀ a, Within room d' (g a) (g' a)) : Within room (max d d') (x >>= g) (x' >>= g') := by
  rw [Within, h, funext hg]
  by_cases hd : d ≤ room
  · rw [if_pos hd]
    by_cases hd' : d' ≤ room
    · simp only [if_pos hd', if_pos (Nat.max_le.2 ⟨hd, hd'⟩)]
    · have hmax : ¬ max d d' ≤ room := fun h => hd' (Nat.max_le.1 h).2
      simp only [if_neg hd', if_neg hmax]
      cases x' <;> rfl
  · rw [if_neg hd, if_neg fun h => hd (Nat.max_le.1 h).1]
    rfl

theorem bind_pure (h : Within room d x x') (make : α → β) :
    Within room d (do let a ← x; return make a) (x'.map make) := by
  have hmap := h.map make
  rwa [Option.map_eq_bind] at hmap

theorem pair (h : Within room d x x') (h' : Within room d' y y') (make : α → β → γ) :
    Within room (max d d') (do let a ← x; let b ← y; return make a b)
      (do let a ← x'; let b ← y'; return make a b) :=
  h.bind fun a => by
    have hmake := h'.bind_pure (make a)
    rwa [Option.map_eq_bind] at hmake

theorem of_room {f : Nat → Option α} (h0 : f 0 = none)
    (h : ∀ room, Within room d (f (room + 1)) x') : ∀ room, Within room (d + 1) (f room) x'
  | 0 => h0
  | room + 1 => by
    rw [Within, h room]
    simp only [Nat.add_le_add_iff_right]

end Within

end Json

open Json

theorem Json.int64?_ofInt64 (n : Int64) : (ofInt64 n).int64? = some n := by
  rw [ofInt64, int64?, String.toList_ofList]
  exact Number.read?_intChars n

theorem Literal.read_within (value : Literal) :
    ∀ room, Within room (0 + 1) (Literal.ofJson? room value.toJson) (value.mapFloat? reread) := by
  refine Within.of_room rfl fun room => .of_eq ?_
  cases value with
  | int n =>
    change (ofInt64 n).int64?.map Literal.int = _
    rw [int64?_ofInt64]
    rfl
  | float x => rfl
  | str s => rfl

theorem Literal.depth_toJson (value : Literal) : value.toJson.depth = 1 := by
  cases value with
  | float x => rw [toJson, depth_case, depth_ofFloat]
  | _ => rfl

theorem Expr.read_case {e : Option Expr} {name : String} {content : Json} {d : Nat}
    (h : ∀ room, Within room d (Expr.ofCase? room name content) e) :
    ∀ room, Within room (d + 1) (Expr.ofJson? room (case name content)) e :=
  Within.of_room rfl h

def Json.operation (kind name : String) (left right : Expr) : Json :=
  case kind (record [("op", text name), ("left", left.toJson), ("right", right.toJson)])

theorem Json.depth_operation (kind name : String) (left right : Expr) :
    (operation kind name left right).depth = max left.toJson.depth right.toJson.depth + 1 + 1 := by
  simp [operation, case]

theorem Expr.read_operation {kind name : String} {left right : Expr} {make : Expr → Expr → Expr}
    (hread : ∀ room, Expr.ofJson? (room + 1 + 1) (operation kind name left right) = (do
      let l ← Expr.ofJson? room left.toJson
      let r ← Expr.ofJson? room right.toJson
      return make l r))
    (hone : Expr.ofJson? 1 (operation kind name left right) = none)
    (hl : ∀ room, Within room left.toJson.depth (Expr.ofJson? room left.toJson)
      (left.mapFloats? reread))
    (hr : ∀ room, Within room right.toJson.depth (Expr.ofJson? room right.toJson)
      (right.mapFloats? reread)) (room : Nat) :
    Within room (operation kind name left right).depth
      (Expr.ofJson? room (operation kind name left right))
      (do
        let l ← left.mapFloats? reread
        let r ← right.mapFloats? reread
        return make l r) := by
  rw [depth_operation]
  revert room
  -- One level is for the case, and one for the structure that is its content.
  refine Within.of_room rfl (Within.of_room hone fun room => ?_)
  rw [hread]
  exact (hl room).pair (hr room) make

mutual

theorem Expr.read_within : ∀ (e : Expr) (room : Nat),
    Within room e.toJson.depth (Expr.ofJson? room e.toJson) (e.mapFloats? reread)
  | .literal value => by
    rw [Expr.toJson, depth_case, value.depth_toJson]
    refine Expr.read_case fun room => ?_
    have hread : Expr.ofCase? room "Literal" value.toJson =
        (Literal.ofJson? room value.toJson).map .literal := by
      cases room <;> rfl
    rw [hread]
    exact (value.read_within room).map Expr.literal
  | .ident name => by
    rw [Expr.toJson, depth_case]
    refine Expr.read_case fun room => .of_eq ?_
    cases room <;> rfl
  | .assign target value => by
    refine Expr.read_operation (fun room => ?_) rfl (Expr.read_within target)
      (Expr.read_within value)
    cases room <;> rfl
  | .arith op left right => by
    refine Expr.read_operation (fun room => ?_) rfl (Expr.read_within left)
      (Expr.read_within right)
    cases op <;> cases room <;> rfl
  | .compare op left right => by
    refine Expr.read_operation (fun room => ?_) rfl (Expr.read_within left)
      (Expr.read_within right)
    cases op <;> cases room <;> rfl
  | .call function args => by
    have hdepth : (record [("function", text function),
        ("args", array (Expr.listToJson args))]).depth =
        itemDepth (Expr.listToJson args) + 1 + 1 := by
      simp
    rw [Expr.toJson, depth_case, hdepth]
    refine Expr.read_case (Within.of_room rfl fun room => ?_)
    have hargs := Within.of_room (f := (Expr.listOfJson? · (array (Expr.listToJson args)))) rfl
      (Expr.list_read_within args) room
    exact hargs.bind_pure (Expr.call function)

theorem Expr.list_read_within : ∀ (es : List Expr) (room : Nat),
    Within room (itemDepth (Expr.listToJson es)) ((Expr.listToJson es).mapM (Expr.ofJson? room))
      (Expr.listMapFloats? reread es)
  | [], room => .of_eq rfl
  | e :: es, room => by
    rw [Expr.listToJson, List.mapM_cons]
    exact (Expr.read_within e room).pair (Expr.list_read_within es room) List.cons

end

theorem Stmt.read_case {s : Option Stmt} {name : String} {content : Json} {d : Nat}
    (h : ∀ room, Within room d (Stmt.ofCase? room name content) s) :
    ∀ room, Within room (d + 1) (Stmt.ofJson? room (case name content)) s :=
  Within.of_room rfl h

/-- The document of an expression is not null, so it is not taken for a missing one. -/
theorem Stmt.ofCase?_return (room : Nat) (e : Expr) : Stmt.ofCase? room "Return" e.toJson = (do
    let value ← Expr.ofJson? room e.toJson
    return .ret (some value)) := by
  cases e <;> cases room <;> rfl

mutual

theorem Stmt.read_within : ∀ (s : Stmt) (room : Nat),
    Within room s.toJson.depth (Stmt.ofJson? room s.toJson) (s.mapFloats? reread)
  | .declare name value => by
    have hdepth : (record [("name", text name), ("value", value.toJson)]).depth =
        value.toJson.depth + 1 := by
      simp
    rw [Stmt.toJson, depth_case, hdepth]
    refine Stmt.read_case (Within.of_room rfl fun room => ?_)
    exact (value.read_within room).bind_pure (Stmt.declare name)
  | .ret none => by
    rw [Stmt.toJson, depth_case]
    refine Stmt.read_case fun room => .of_eq ?_
    cases room <;> rfl
  | .ret (some value) => by
    rw [Stmt.toJson, depth_case]
    refine Stmt.read_case fun room => ?_
    rw [Stmt.ofCase?_return]
    exact (value.read_within room).bind_pure fun e => Stmt.ret (some e)
  | .branch condition onTrue none => by
    have hdepth : (record [("condition", condition.toJson),
        ("then_branch", array (Stmt.listToJson onTrue)), ("else_branch", null)]).depth =
        max condition.toJson.depth (itemDepth (Stmt.listToJson onTrue) + 1) + 1 := by
      simp
    rw [Stmt.toJson, depth_case, hdepth]
    refine Stmt.read_case (Within.of_room rfl fun room => ?_)
    exact (condition.read_within room).pair (Stmt.array_read_within onTrue room)
      fun c t => Stmt.branch c t none
  | .branch condition onTrue (some onFalse) => by
    have hdepth : (record [("condition", condition.toJson),
        ("then_branch", array (Stmt.listToJson onTrue)),
        ("else_branch", array (Stmt.listToJson onFalse))]).depth =
        max condition.toJson.depth (max (itemDepth (Stmt.listToJson onTrue) + 1)
          (itemDepth (Stmt.listToJson onFalse) + 1)) + 1 := by
      simp
    rw [Stmt.toJson, depth_case, hdepth]
    refine Stmt.read_case (Within.of_room rfl fun room => ?_)
    exact (condition.read_within room).bind fun c => (Stmt.array_read_within onTrue room).pair
      (Stmt.array_read_within onFalse room) fun t f => Stmt.branch c t (some f)
  | .loop condition body => by
    have hdepth : (record [("condition", condition.toJson),
        ("body", array (Stmt.listToJson body))]).depth =
        max condition.toJson.depth (itemDepth (Stmt.listToJson body) + 1) + 1 := by
      simp
    rw [Stmt.toJson, depth_case, hdepth]
    refine Stmt.read_case (Within.of_room rfl fun room => ?_)
    exact (condition.read_within room).pair (Stmt.array_read_within body room) Stmt.loop
  | .leave => by
    intro room
    refine .of_eq ?_
    cases room <;> rfl
  | .effect e => by
    rw [Stmt.toJson, depth_case]
    refine Stmt.read_case fun room => ?_
    have hread : Stmt.ofCase? room "Expr" e.toJson = (do
        let e ← Expr.ofJson? room e.toJson
        return .effect e) := by
      cases room <;> rfl
    rw [hread]
    exact (e.read_within room).bind_pure Stmt.effect

theorem Stmt.array_read_within : ∀ (ss : List Stmt) (room : Nat),
    Within room (itemDepth (Stmt.listToJson ss) + 1)
      (Stmt.listOfJson? room (array (Stmt.listToJson ss))) (Stmt.listMapFloats? reread ss)
  | ss => Within.of_room rfl (Stmt.list_read_within ss)

theorem Stmt.list_read_within : ∀ (ss : List Stmt) (room : Nat),
    Within room (itemDepth (Stmt.listToJson ss)) ((Stmt.listToJson ss).mapM (Stmt.ofJson? room))
      (Stmt.listMapFloats? reread ss)
  | [], room => .of_eq rfl
  | s :: ss, room => by
    rw [Stmt.listToJson, List.mapM_cons]
    exact (Stmt.read_within s room).pair (Stmt.list_read_within ss room) List.cons

end

theorem Json.strings_read_within (names : List String) : ∀ room,
    Within room (0 + 1) ((array (names.map text)).strings? room) (some names) := by
  refine Within.of_room rfl fun room => .of_eq ?_
  change (names.map text).mapM string? = some names
  induction names with
  | nil => rfl
  | cons name names ih =>
    rw [List.map_cons, List.mapM_cons, ih]
    rfl

theorem Json.itemDepth_text (names : List String) : itemDepth (names.map text) = 0 := by
  induction names with
  | nil => rfl
  | cons name names ih => rw [List.map_cons, itemDepth, ih]; rfl

theorem Function.read_within (f : Function) : ∀ room,
    Within room f.toJson.depth (Function.ofJson? room f.toJson) (f.mapFloats? reread) := by
  have hdepth : f.toJson.depth = max (itemDepth (Stmt.listToJson f.body) + 1) (0 + 1) + 1 := by
    simp [toJson, itemDepth_text]
  rw [hdepth]
  refine Within.of_room rfl fun room => ?_
  have hread := (Stmt.array_read_within f.body room).pair (strings_read_within f.params room)
    fun body params => Function.mk f.name params body
  rw [mapFloats?, Option.map_eq_bind]
  exact hread

theorem Function.list_read_within (fs : List Function) (room : Nat) :
    Within room (itemDepth (fs.map Function.toJson))
      ((fs.map Function.toJson).mapM (Function.ofJson? room))
      (fs.mapM (Function.mapFloats? reread)) := by
  induction fs with
  | nil => exact .of_eq rfl
  | cons f fs ih =>
    rw [List.map_cons, List.mapM_cons, List.mapM_cons]
    exact (f.read_within room).pair ih List.cons

theorem Program.read_within (p : Program) : ∀ room,
    Within room p.toJson.depth (Program.ofJson? room p.toJson) (p.mapFloats? reread) := by
  have hdepth : p.toJson.depth = itemDepth (p.functions.map Function.toJson) + 1 + 1 := by
    simp [toJson]
  rw [hdepth]
  refine Within.of_room rfl fun room => ?_
  have functions : ∀ room, Within room (itemDepth (p.functions.map Function.toJson) + 1)
      (Function.listOfJson? room (array (p.functions.map Function.toJson)))
      (p.functions.mapM (Function.mapFloats? reread)) :=
    Within.of_room rfl (Function.list_read_within p.functions)
  exact (functions room).bind_pure Program.mk

theorem Json.wellWritten_ofFloat (x : Float) : (ofFloat x).WellWritten := by
  unfold ofFloat
  split
  · next hx =>
    rw [WellWritten, Decimal.Layout.text, String.toList_ofList]
    exact Decimal.Layout.numeral_chars hx
  · trivial

theorem Literal.wellWritten (value : Literal) : value.toJson.WellWritten := by
  cases value with
  | int n =>
    refine ⟨?_, trivial⟩
    rw [ofInt64, WellWritten, String.toList_ofList]
    exact Decimal.numeral_intChars n.toInt
  | float x => exact ⟨wellWritten_ofFloat x, trivial⟩
  | str s => exact ⟨trivial, trivial⟩

mutual

theorem Expr.wellWritten : ∀ e : Expr, e.toJson.WellWritten
  | .literal value => ⟨value.wellWritten, trivial⟩
  | .ident _ => ⟨trivial, trivial⟩
  | .assign target value =>
    ⟨⟨trivial, Expr.wellWritten target, Expr.wellWritten value, trivial⟩, trivial⟩
  | .arith _ left right =>
    ⟨⟨trivial, Expr.wellWritten left, Expr.wellWritten right, trivial⟩, trivial⟩
  | .compare _ left right =>
    ⟨⟨trivial, Expr.wellWritten left, Expr.wellWritten right, trivial⟩, trivial⟩
  | .call _ args => ⟨⟨trivial, Expr.wellWritten_list args, trivial⟩, trivial⟩

theorem Expr.wellWritten_list : ∀ es : List Expr, ItemsWellWritten (Expr.listToJson es)
  | [] => trivial
  | e :: es => ⟨Expr.wellWritten e, Expr.wellWritten_list es⟩

end

mutual

theorem Stmt.wellWritten : ∀ s : Stmt, s.toJson.WellWritten
  | .declare _ value => ⟨⟨trivial, value.wellWritten, trivial⟩, trivial⟩
  | .ret none => ⟨trivial, trivial⟩
  | .ret (some value) => ⟨value.wellWritten, trivial⟩
  | .branch condition onTrue none =>
    ⟨⟨condition.wellWritten, Stmt.wellWritten_list onTrue, trivial, trivial⟩, trivial⟩
  | .branch condition onTrue (some onFalse) =>
    ⟨⟨condition.wellWritten, Stmt.wellWritten_list onTrue, Stmt.wellWritten_list onFalse, trivial⟩,
      trivial⟩
  | .loop condition body =>
    ⟨⟨condition.wellWritten, Stmt.wellWritten_list body, trivial⟩, trivial⟩
  | .leave => trivial
  | .effect e => ⟨e.wellWritten, trivial⟩

theorem Stmt.wellWritten_list : ∀ ss : List Stmt, ItemsWellWritten (Stmt.listToJson ss)
  | [] => trivial
  | s :: ss => ⟨Stmt.wellWritten s, Stmt.wellWritten_list ss⟩

end

theorem Function.wellWritten (f : Function) : f.toJson.WellWritten :=
  ⟨trivial, itemsWellWritten_map text (fun _ => trivial) f.params,
    Stmt.wellWritten_list f.body, trivial⟩

theorem Program.wellWritten (p : Program) : p.toJson.WellWritten :=
  ⟨itemsWellWritten_map Function.toJson Function.wellWritten p.functions, trivial⟩

/-- The program that is read from the document of a program. -/
def Program.reread? (p : Program) : Option Program :=
  if p.toJson.depth ≤ 127 then p.mapFloats? reread else none

theorem Program.read?_chars (p : Program) (style : Style) {space : List Char}
    (hs : ∀ c ∈ space, Json.Lexer.isSpace c = true) :
    Program.read? (String.ofList (p.toJson.chars style 0 ++ space)) = p.reread? := by
  rw [Program.read?, parse?_chars p.wellWritten style hs, Option.bind_some]
  exact p.read_within 127

namespace Program

theorem reread?_eq_self_iff {p : Program} :
    p.reread? = some p ↔ (∀ x ∈ p.floats, reread x = some x) ∧ p.toJson.depth ≤ 127 := by
  unfold reread?
  split
  · next h => rw [p.maps.eq_some_iff, and_iff_left h]
  · next h => exact iff_of_false nofun fun hp => h hp.2

theorem reread?_eq_none_iff {p : Program} :
    p.reread? = none ↔ (∃ x ∈ p.floats, reread x = none) ∨ ¬ p.toJson.depth ≤ 127 := by
  unfold reread?
  split
  · next h => rw [p.maps.eq_none_iff, or_iff_left (not_not_intro h)]
  · next h => exact iff_of_true rfl (.inr h)

theorem reread_of_not_finite {x : Float} (h : x.isFinite ≠ true) : reread x = none := by
  rw [reread, ofFloat, if_neg h]
  rfl

end Program

/-- The text of a program reads back as that program, or as none. -/
theorem Program.read?_render (p : Program) (h : ∀ x ∈ p.floats, ReadsBack x) (style : Style) :
    Program.read? (p.toJson.render style) =
      if (∀ x ∈ p.floats, x.isFinite = true) ∧ p.toJson.depth ≤ 127 then some p else none := by
  have hread := p.read?_chars style (List.forall_mem_nil _)
  rw [List.append_nil] at hread
  rw [Json.render, hread]
  split
  · next hp => exact reread?_eq_self_iff.2 ⟨fun x hx => h x hx (hp.1 x hx), hp.2⟩
  · next hp =>
    rw [reread?_eq_none_iff]
    rcases not_and_or.1 hp with hfinite | hdepth
    · obtain ⟨x, hx⟩ := not_forall.1 hfinite
      obtain ⟨hmem, hx⟩ := Classical.not_imp.1 hx
      exact .inl ⟨x, hmem, reread_of_not_finite hx⟩
    · exact .inr hdepth

namespace Program

/-- Statements and expressions of most kinds, names with quotes, line breaks and blanks, and numbers
with signs and exponents. -/
def assorted : Program where
  functions :=
    [⟨"main", [], [.declare "n" (.literal (.int (-9223372036854775808))),
        .loop (.compare .le (.ident "n") (.literal (.float 1e21)))
          [.branch (.call "is \"odd\"?" [.ident "n", .literal (.str "\x01\n\\")])
            [.effect (.assign (.ident "n")
              (.arith .div (.ident "n") (.literal (.float (-2.5e-7)))))]
            (some [.leave]),
          .branch (.ident "n") [] none, .branch (.ident "n") [] (some [])],
        .ret none]⟩,
      ⟨"is \"odd\"?", ["x", "😀"], [.ret (some (.literal (.float (-0.0))))]⟩]

def zeros : Nat → Expr
  | 0 => .literal (.int 0)
  | n + 1 => .arith .add (zeros n) (.literal (.int 0))

def longSum : Program :=
  ⟨[⟨"main", [], [.ret (some (zeros 61))]⟩]⟩

theorem read?_render_assorted :
    (∀ x ∈ assorted.floats, ReadsBack x) ∧ (∀ x ∈ excess.floats, ReadsBack x) ∧
      (∀ x ∈ longSum.floats, ReadsBack x) ∧
      ∀ style, Program.read? (assorted.toJson.render style) = some assorted ∧
        Program.read? (excess.toJson.render style) = none ∧
        Program.read? (longSum.toJson.render style) = none := by
  have readsBack : ∀ x ∈ assorted.floats ++ excess.floats ++ longSum.floats, ReadsBack x := by
    unfold ReadsBack
    decide +kernel
  simp only [List.forall_mem_append] at readsBack
  obtain ⟨⟨ha, he⟩, hl⟩ := readsBack
  refine ⟨ha, he, hl, fun style => ?_⟩
  rw [read?_render assorted ha, read?_render excess he, read?_render longSum hl]
  exact ⟨if_pos (by decide +kernel), if_neg (by decide +kernel), if_neg (by decide +kernel)⟩

end Program

end BlueCode
