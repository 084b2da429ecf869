import BlueCode.Decimal.Layout
import BlueCode.Decimal.Reading

namespace BlueCode

/-- The tokens that have one spelling: keywords, operators and punctuation. -/
inductive Symbol where
  | func
  | var
  | ret
  | cond
  | otherwise
  | loop
  | leave
  | equal
  | notEqual
  | lessEqual
  | greaterEqual
  | less
  | greater
  | assign
  | plus
  | minus
  | star
  | slash
  | openParen
  | closeParen
  | openBrace
  | closeBrace
  | semicolon
  | comma
  deriving DecidableEq, Repr

def Symbol.spelling : Symbol → String
  | func => "func"
  | var => "var"
  | ret => "return"
  | cond => "if"
  | otherwise => "else"
  | loop => "while"
  | leave => "break"
  | equal => "=="
  | notEqual => "!="
  | lessEqual => "<="
  | greaterEqual => ">="
  | less => "<"
  | greater => ">"
  | assign => "="
  | plus => "+"
  | minus => "-"
  | star => "*"
  | slash => "/"
  | openParen => "("
  | closeParen => ")"
  | openBrace => "\x7b"
  | closeBrace => "\x7d"
  | semicolon => ";"
  | comma => ","

def Symbol.keywords : List Symbol :=
  [func, var, ret, cond, otherwise, loop, leave]

inductive Token where
  | symbol (s : Symbol)
  | int (n : Int64)
  | float (x : Float)
  | str (s : String)
  | ident (name : String)
  deriving DecidableEq, Repr

namespace Token

/-- A word is a keyword or else an identifier. -/
def ofWord (word : String) : Token :=
  match Symbol.keywords.find? (·.spelling == word) with
  | some keyword => symbol keyword
  | none => ident word

def describe : Token → String
  | symbol s => "'" ++ s.spelling ++ "'"
  | int n => "number " ++ String.ofList (Decimal.intChars n.toInt)
  | float x => "number " ++ Decimal.Layout.literal.text x
  | str s => "string \"" ++ s ++ "\""
  | ident name => "identifier '" ++ name ++ "'"

end Token

end BlueCode
