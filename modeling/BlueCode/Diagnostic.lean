import BlueCode.Pipeline

namespace BlueCode

/-- A marked part of a source text, with a word on it. -/
structure Label where
  span : Text.Span
  message : String
  deriving DecidableEq, Repr

structure Diagnostic where
  code : Option String
  message : String
  label : Option Label
  notes : List String
  suggestion : Option String
  source : Option String
  deriving DecidableEq, Repr

namespace Diagnostic

def error (message : String) : Diagnostic :=
  ⟨none, message, none, [], none, none⟩

def withSource (d : Diagnostic) (source : String) : Diagnostic :=
  { d with source := some source }

def ofLex (e : LexError) : Diagnostic :=
  { error ("unexpected '" ++ e.snippet ++ "'") with
    code := some (Failure.lex e).code
    label := some ⟨⟨e.position, e.position + max e.snippet.utf8ByteSize 1⟩, "here"⟩
    suggestion := some e.suggestion }

def ofParse (e : ParseError) : Diagnostic :=
  { error e.detail with code := some e.code, label := some ⟨e.span, "here"⟩ }

def suggestion? : CompileError → Option String
  | .undefinedVariable name _ => some ("declare it first: var " ++ name ++ " = ...")
  | .tooManyParameters .. | .arityMismatch .. =>
    some "functions take at most one argument, passed in the accumulator"
  | _ => none

def ofCompile (e : CompileError) : Diagnostic :=
  { error e.message with
    code := some e.code
    notes := e.function?.toList.map fun function => "in function '" ++ function ++ "'"
    suggestion := suggestion? e }

def ofLoad (e : LoadError) : Diagnostic :=
  { error e.message with
    code := some e.code
    notes := e.line?.toList.map fun line => "at bytecode line " ++ toString line }

def ofRun (e : RunError) : Diagnostic :=
  { error e.message with code := some e.code }

def ofFailure : Failure → Diagnostic
  | .lex e => ofLex e
  | .parse e => ofParse e
  | .compile e => ofCompile e
  | .load e => ofLoad e
  | .run e => ofRun e

end Diagnostic

end BlueCode
