import BlueCode.Json

namespace BlueCode.Json

inductive Style where
  | compact
  | pretty
  deriving DecidableEq, Repr

def Style.lineBreak : Style → Nat → List Char
  | .compact, _ => []
  | .pretty, depth => '\n' :: List.replicate (2 * depth) ' '

def Style.colon : Style → List Char
  | .compact => [':']
  | .pretty => [':', ' ']

def hexPair (n : Nat) : List Char :=
  [Nat.digitChar (n / 16), Nat.digitChar (n % 16)]

/-- Only quotes, backslashes and control characters are escaped. -/
def escape (c : Char) : List Char :=
  match c with
  | '"' => ['\\', '"']
  | '\\' => ['\\', '\\']
  | '\x08' => ['\\', 'b']
  | '\t' => ['\\', 't']
  | '\n' => ['\\', 'n']
  | '\x0c' => ['\\', 'f']
  | '\r' => ['\\', 'r']
  | c => if c.toNat < 0x20 then ['\\', 'u', '0', '0'] ++ hexPair c.toNat else [c]

/-- A string without a text is written as half of a surrogate pair. -/
def quote : Option String → List Char
  | some s => '"' :: s.toList.flatMap escape ++ ['"']
  | none => ['"', '\\', 'u', 'd', '8', '0', '0', '"']

mutual

def chars (style : Style) (depth : Nat) : Json → List Char
  | null => ['n', 'u', 'l', 'l']
  | bool true => ['t', 'r', 'u', 'e']
  | bool false => ['f', 'a', 'l', 's', 'e']
  | number text => text.toList
  | string text => quote text
  | array [] => ['[', ']']
  | array (first :: rest) =>
    '[' :: style.lineBreak (depth + 1) ++ chars style (depth + 1) first ++
      itemChars style (depth + 1) rest ++ style.lineBreak depth ++ [']']
  | object [] => ['{', '}']
  | object ((name, value) :: rest) =>
    '{' :: style.lineBreak (depth + 1) ++ quote name ++ style.colon ++
      chars style (depth + 1) value ++ fieldChars style (depth + 1) rest ++
      style.lineBreak depth ++ ['}']

def itemChars (style : Style) (depth : Nat) : List Json → List Char
  | [] => []
  | item :: rest =>
    ',' :: style.lineBreak depth ++ chars style depth item ++ itemChars style depth rest

def fieldChars (style : Style) (depth : Nat) : List (Option String × Json) → List Char
  | [] => []
  | (name, value) :: rest =>
    ',' :: style.lineBreak depth ++ quote name ++ style.colon ++ chars style depth value ++
      fieldChars style depth rest

end

def render (style : Style) (j : Json) : String :=
  String.ofList (j.chars style 0)

end BlueCode.Json
