namespace BlueCode

inductive Json where
  | null
  | bool (b : Bool)
  | number (text : String)
  | string (text : Option String)
  | array (items : List Json)
  | object (fields : List (Option String × Json))
  deriving Repr, Inhabited

namespace Json

/-- A string that has a text. -/
def text (s : String) : Json :=
  string (some s)

def record (fields : List (String × Json)) : Json :=
  object (fields.map fun (name, value) => (some name, value))

end Json

end BlueCode
