import BlueCode.Diagnostic
import BlueCode.Text.Lines

namespace BlueCode.Diagnostic

inductive Paint where
  | bold
  | boldRed
  | cyan
  | dim
  deriving DecidableEq, Repr

def Paint.number : Paint → String
  | bold => "1"
  | boldRed => "1;31"
  | cyan => "36"
  | dim => "2"

def paint (colored : Bool) (p : Paint) (s : String) : String :=
  if colored then "\x1b[" ++ p.number ++ "m" ++ s ++ "\x1b[0m" else s

def repeated (c : Char) (count : Nat) : String :=
  String.ofList (List.replicate count c)

/-- How many carets mark a span that starts at a column of a line: at least one, and none behind the
end of the line. -/
def caretCount (line : String) (column : Nat) (span : Text.Span) : Nat :=
  max 1 (min (span.stop - span.start) (max 1 (line.utf8ByteSize - (column - 1))))

def headLine (colored : Bool) (d : Diagnostic) : String :=
  let head :=
    match d.code with
    | some code => "error[" ++ code ++ "]"
    | none => "error"
  paint colored .boldRed head ++ ": " ++ paint colored .bold d.message ++ "\n"

def snippet (colored : Bool) (label : Label) (source : String) : String :=
  let place := Text.placeOf source label.span.start
  let line := Text.lineText source place.line
  let number := toString place.line
  let pad := repeated ' ' number.length
  let bar := paint colored .cyan "|"
  let carets := paint colored .boldRed (repeated '^' (caretCount line place.column label.span))
  let word := if label.message = "" then "" else " " ++ paint colored .boldRed label.message
  "  " ++ paint colored .cyan "-->" ++ " " ++ number ++ ":" ++ toString place.column ++ "\n" ++
  pad ++ " " ++ bar ++ "\n" ++
  paint colored .cyan number ++ " " ++ bar ++ " " ++ line ++ "\n" ++
  -- A label begins inside the source, where columns count from one.
  pad ++ " " ++ bar ++ " " ++ repeated ' ' (place.column - 1) ++ carets ++ word ++ "\n"

def remark (colored : Bool) (kind text : String) : String :=
  "  " ++ paint colored .dim "=" ++ " " ++ kind ++ ": " ++ text ++ "\n"

/-- The snippet is left out unless both label and source are known. -/
def render (colored : Bool) (d : Diagnostic) : String :=
  let shown :=
    match d.label, d.source with
    | some label, some source => snippet colored label source
    | _, _ => ""
  headLine colored d ++ shown ++ String.join (d.notes.map (remark colored "note")) ++
    String.join (d.suggestion.toList.map (remark colored "help"))

end BlueCode.Diagnostic
