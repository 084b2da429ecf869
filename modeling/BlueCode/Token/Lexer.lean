import BlueCode.Token
import BlueCode.Text.Span
import BlueCode.Text.Word

namespace BlueCode

structure Located where
  token : Token
  span : Text.Span
  deriving DecidableEq, Repr

/-- A piece of text that is no token: where it starts, in bytes, and the piece itself. -/
structure LexError where
  position : Nat
  snippet : String
  deriving DecidableEq, Repr

namespace LexError

def suggestion (e : LexError) : String :=
  match e.snippet.toList with
  | '"' :: _ => "String literals must close on the same line with '\"'"
  | '!' :: _ => "Did you mean '!='?"
  | c :: _ =>
    if c.isDigit then "Number '" ++ e.snippet ++ "' does not fit in a 64-bit integer"
    else "Unexpected character(s): '" ++ e.snippet ++ "'"
  | [] => "Unexpected character(s): '" ++ e.snippet ++ "'"

def message (e : LexError) : String :=
  "Lex error at position " ++ toString e.position ++ ": '" ++ e.snippet ++ "'. " ++ e.suggestion

end LexError

namespace Lexer

def isSpace (c : Char) : Bool :=
  c == ' ' || c == '\t' || c == '\r' || c == '\n' || c == '\x0c'

inductive Content where
  | skipped
  | token (t : Token)
  | fault
  deriving DecidableEq, Repr

structure Piece where
  extra : Nat
  content : Content
  deriving DecidableEq, Repr

def Piece.symbol (extra : Nat) (s : Symbol) : Piece :=
  ⟨extra, .token (.symbol s)⟩

/-- Digits with digits after a point are a floating-point number; other digits are an integer. -/
def number (c : Char) (rest : List Char) : Piece :=
  let whole := c :: rest.takeWhile Char.isDigit
  let integer : Piece :=
    match Decimal.readInt64? whole with
    | some n => ⟨whole.length - 1, .token (.int n)⟩
    | none => ⟨whole.length - 1, .fault⟩
  match rest.dropWhile Char.isDigit with
  | '.' :: after =>
    match after.takeWhile Char.isDigit with
    | [] => integer
    | fraction =>
      match Decimal.readFloat? (whole ++ '.' :: fraction) with
      | some x => ⟨whole.length + fraction.length, .token (.float x)⟩
      | none => integer
  | _ => integer

/-- A string ends at the next quote, which has to come before the end of the line. -/
def string (rest : List Char) : Piece :=
  let body := rest.takeWhile fun c => c != '"' && c != '\n'
  match rest.drop body.length with
  | '"' :: _ => ⟨body.length + 1, .token (.str (String.ofList body))⟩
  | _ => ⟨body.length, .fault⟩

/-- Operators and punctuation, the longer spelling first. -/
def punctuation (c : Char) (rest : List Char) : Piece :=
  match c, rest with
  | '=', '=' :: _ => .symbol 1 .equal
  | '!', '=' :: _ => .symbol 1 .notEqual
  | '<', '=' :: _ => .symbol 1 .lessEqual
  | '>', '=' :: _ => .symbol 1 .greaterEqual
  | '=', _ => .symbol 0 .assign
  | '<', _ => .symbol 0 .less
  | '>', _ => .symbol 0 .greater
  | '+', _ => .symbol 0 .plus
  | '-', _ => .symbol 0 .minus
  | '*', _ => .symbol 0 .star
  | '/', _ => .symbol 0 .slash
  | '(', _ => .symbol 0 .openParen
  | ')', _ => .symbol 0 .closeParen
  | '{', _ => .symbol 0 .openBrace
  | '}', _ => .symbol 0 .closeBrace
  | ';', _ => .symbol 0 .semicolon
  | ',', _ => .symbol 0 .comma
  | _, _ => ⟨0, .fault⟩

def piece (c : Char) (rest : List Char) : Piece :=
  if isSpace c then ⟨(rest.takeWhile isSpace).length, .skipped⟩
  else if c = '/' ∧ rest.head? = some '/' then ⟨(rest.takeWhile (· != '\n')).length, .skipped⟩
  else if c.isDigit then number c rest
  else if Text.isWordStart c then
    let more := rest.takeWhile Text.isWordPart
    ⟨more.length, .token (.ofWord (String.ofList (c :: more)))⟩
  else if c = '"' then string rest
  else punctuation c rest

def tokens (start : Nat) : List Char → Except LexError (List Located)
  | [] => .ok []
  | c :: rest =>
    let p := piece c rest
    let lexeme := c :: rest.take p.extra
    let stop := start + Text.byteLength lexeme
    match p.content with
    | .fault => .error ⟨start, String.ofList lexeme⟩
    | .skipped => tokens stop (rest.drop p.extra)
    | .token t => (tokens stop (rest.drop p.extra)).map (⟨t, ⟨start, stop⟩⟩ :: ·)
termination_by cs => cs.length
decreasing_by
  all_goals
    simp only [List.length_cons, List.length_drop]
    omega

end Lexer

def lex (source : String) : Except LexError (List Located) :=
  Lexer.tokens 0 source.toList

end BlueCode
