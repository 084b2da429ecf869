import BlueCode.Decimal.Layout
import BlueCode.Json.Number
import BlueCode.Json.Reader
import BlueCode.Program

namespace BlueCode

/-- Numbers in documents: an exponent has a sign, and a tie between digits goes to the even one. -/
def Decimal.Layout.json : Decimal.Layout := ⟨some (-5, 16), true, true, .toEven⟩

namespace Json

def ofInt64 (n : Int64) : Json :=
  number (String.ofList (Decimal.intChars n.toInt))

def ofFloat (x : Float) : Json :=
  if x.isFinite then number (Decimal.Layout.json.text x) else null

def case (name : String) (content : Json) : Json :=
  record [(name, content)]

def int64? : Json → Option Int64
  | number text => (Number.read? text.toList).bind Number.int64?
  | _ => none

def float? : Json → Option Float
  | number text => (Number.read? text.toList).map Number.float
  | _ => none

def string? : Json → Option String
  | string text => text
  | _ => none

def occurrences (fields : List (Option String × Json)) (name : String) : Nat :=
  fields.countP fun (n, _) => n == some name

/-- The fields of a structure, in the order of `names`: all of an array's items, or what an object
has under each name. No name may occur twice, and every field's name needs a text. -/
def fields? (names : List String) : Json → Option (List (Option Json))
  | array items => if items.length = names.length then some (items.map some) else none
  | object fields =>
    if fields.all (·.1.isSome) ∧ names.all (occurrences fields · ≤ 1) then
      some (names.map fun name => (fields.find? (·.1 == some name)).map (·.2))
    else none
  | _ => none

/-- The name of a case that has no content, as an object or bare. -/
def bareCase? : Nat → Json → Option String
  | _ + 1, object [(name, null)] => name
  | _, string name => name
  | _, _ => none

end Json

open Json

namespace ArithOp

def caseName : ArithOp → String
  | add => "Add"
  | sub => "Sub"
  | mul => "Mul"
  | div => "Div"

end ArithOp

namespace CompareOp

def caseName : CompareOp → String
  | eq => "Eq"
  | ne => "Ne"
  | lt => "Lt"
  | gt => "Gt"
  | le => "Le"
  | ge => "Ge"

end CompareOp

def Literal.toJson : Literal → Json
  | int n => case "Int" (ofInt64 n)
  | float x => case "Float" (ofFloat x)
  | str s => case "Str" (text s)

mutual

def Expr.toJson : Expr → Json
  | .literal value => case "Literal" value.toJson
  | .ident name => case "Ident" (text name)
  | .assign target value =>
    case "Binary" (record
      [("op", text "Assign"), ("left", target.toJson), ("right", value.toJson)])
  | .arith op left right =>
    case "Binary" (record
      [("op", text op.caseName), ("left", left.toJson), ("right", right.toJson)])
  | .compare op left right =>
    case "Compare" (record
      [("op", text op.caseName), ("left", left.toJson), ("right", right.toJson)])
  | .call function args =>
    case "Call" (record [("function", text function), ("args", array (Expr.listToJson args))])

def Expr.listToJson : List Expr → List Json
  | [] => []
  | e :: rest => e.toJson :: Expr.listToJson rest

end

mutual

def Stmt.toJson : Stmt → Json
  | .declare name value => case "Var" (record [("name", text name), ("value", value.toJson)])
  | .ret none => case "Return" null
  | .ret (some value) => case "Return" value.toJson
  | .branch condition onTrue none =>
    case "If" (record
      [("condition", condition.toJson), ("then_branch", array (Stmt.listToJson onTrue)),
       ("else_branch", null)])
  | .branch condition onTrue (some onFalse) =>
    case "If" (record
      [("condition", condition.toJson), ("then_branch", array (Stmt.listToJson onTrue)),
       ("else_branch", array (Stmt.listToJson onFalse))])
  | .loop condition body =>
    case "While" (record
      [("condition", condition.toJson), ("body", array (Stmt.listToJson body))])
  | .leave => text "Break"
  | .effect expr => case "Expr" expr.toJson

def Stmt.listToJson : List Stmt → List Json
  | [] => []
  | s :: rest => s.toJson :: Stmt.listToJson rest

end

def Function.toJson (f : Function) : Json :=
  record
    [("name", text f.name), ("params", array (f.params.map text)),
     ("body", array (Stmt.listToJson f.body))]

def Program.toJson (p : Program) : Json :=
  record [("functions", array (p.functions.map Function.toJson))]

-- The number that each reader takes first bounds how deep arrays and objects may be nested in the
-- document that it reads.
def Literal.ofJson? : Nat → Json → Option Literal
  | _ + 1, object [(some "Int", content)] => content.int64?.map .int
  | _ + 1, object [(some "Float", content)] => content.float?.map .float
  | _ + 1, object [(some "Str", content)] => content.string?.map .str
  | _, _ => none

mutual

def Expr.ofJson? : Nat → Json → Option Expr
  | room + 1, object [(some name, content)] => Expr.ofCase? room name content
  | _, _ => none

def Expr.ofCase? : Nat → String → Json → Option Expr
  | room, "Literal", content => (Literal.ofJson? room content).map .literal
  | _, "Ident", content => content.string?.map .ident
  | room + 1, "Binary", content =>
    match content.fields? ["op", "left", "right"] with
    | some [some op, some left, some right] => do
      let op ← op.bareCase? room
      let left ← Expr.ofJson? room left
      let right ← Expr.ofJson? room right
      if op = "Assign" then return .assign left right
      return .arith (← ArithOp.all.find? (·.caseName == op)) left right
    | _ => none
  | room + 1, "Compare", content =>
    match content.fields? ["op", "left", "right"] with
    | some [some op, some left, some right] => do
      let op ← op.bareCase? room
      let left ← Expr.ofJson? room left
      let right ← Expr.ofJson? room right
      return .compare (← CompareOp.all.find? (·.caseName == op)) left right
    | _ => none
  | room + 1, "Call", content =>
    match content.fields? ["function", "args"] with
    | some [some function, some args] =>
      return .call (← function.string?) (← Expr.listOfJson? room args)
    | _ => none
  | _, _, _ => none

def Expr.listOfJson? : Nat → Json → Option (List Expr)
  | room + 1, array items => items.mapM (Expr.ofJson? room)
  | _, _ => none

end

mutual

def Stmt.ofJson? : Nat → Json → Option Stmt
  | room + 1, object [(some name, content)] => Stmt.ofCase? room name content
  | _, string name => if name = some "Break" then some .leave else none
  | _, _ => none

def Stmt.ofCase? : Nat → String → Json → Option Stmt
  | room + 1, "Var", content =>
    match content.fields? ["name", "value"] with
    | some [some name, some value] =>
      return .declare (← name.string?) (← Expr.ofJson? room value)
    | _ => none
  | _, "Return", null => some (.ret none)
  | room, "Return", content => return .ret (some (← Expr.ofJson? room content))
  | room + 1, "If", content =>
    match content.fields? ["condition", "then_branch", "else_branch"] with
    | some [some condition, some onTrue, onFalse] => do
      let condition ← Expr.ofJson? room condition
      let onTrue ← Stmt.listOfJson? room onTrue
      match onFalse with
      | none => return .branch condition onTrue none
      | some null => return .branch condition onTrue none
      | some onFalse => return .branch condition onTrue (some (← Stmt.listOfJson? room onFalse))
    | _ => none
  | room + 1, "While", content =>
    match content.fields? ["condition", "body"] with
    | some [some condition, some body] =>
      return .loop (← Expr.ofJson? room condition) (← Stmt.listOfJson? room body)
    | _ => none
  | _, "Break", null => some .leave
  | room, "Expr", content => return .effect (← Expr.ofJson? room content)
  | _, _, _ => none

def Stmt.listOfJson? : Nat → Json → Option (List Stmt)
  | room + 1, array items => items.mapM (Stmt.ofJson? room)
  | _, _ => none

end

def Json.strings? : Nat → Json → Option (List String)
  | _ + 1, array items => items.mapM Json.string?
  | _, _ => none

def Function.ofJson? : Nat → Json → Option Function
  | room + 1, j =>
    match j.fields? ["name", "params", "body"] with
    | some [some name, params, some body] => do
      let name ← name.string?
      let body ← Stmt.listOfJson? room body
      match params with
      | none => return ⟨name, [], body⟩
      | some params => return ⟨name, ← params.strings? room, body⟩
    | _ => none
  | _, _ => none

def Function.listOfJson? : Nat → Json → Option (List Function)
  | room + 1, array items => items.mapM (Function.ofJson? room)
  | _, _ => none

def Program.ofJson? : Nat → Json → Option Program
  | room + 1, j =>
    match j.fields? ["functions"] with
    | some [some functions] => return ⟨← Function.listOfJson? room functions⟩
    | _ => none
  | _, _ => none

/-- Documents nested deeper than 127 arrays and objects are refused. -/
def Program.read? (text : String) : Option Program :=
  (Json.parse? text).bind (Program.ofJson? 127)

end BlueCode
