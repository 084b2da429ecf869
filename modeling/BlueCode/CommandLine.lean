import BlueCode.CommandLine.Arguments
import BlueCode.CommandLine.Help
import BlueCode.Diagnostic.Json
import BlueCode.Diagnostic.Terminal
import BlueCode.Json.Printer
import BlueCode.Program.Json

namespace BlueCode.CommandLine

def pathNames (path : String) : List String :=
  ((path.toList.splitOn '/').map String.ofList).filter fun name => name ≠ "" ∧ name ≠ "."

/-- What follows the last dot of a file's name. A dot at its very start does not count. -/
def extension? (path : String) : Option String :=
  match (pathNames path).getLast? with
  | none => none
  | some name =>
    let last := name.toList.reverse.takeWhile (· != '.')
    let stem := name.toList.reverse.drop (last.length + 1)
    if stem = [] ∨ name = ".." then none else some (String.ofList last.reverse)

def fileError (path reason : String) : Diagnostic :=
  .error (path ++ ": " ++ reason)

def missing : String := "No such file or directory (os error 2)"

def readProgram (path text : String) : Except Diagnostic Program :=
  if extension? path = some "json" then
    match Program.read? text with
    | some p => .ok p
    | none => .error { Diagnostic.error "invalid AST JSON: not a program" with notes := [path] }
  else (Program.ofSource text).mapError fun f => (Diagnostic.ofFailure f).withSource text

inductive Job where
  | display (text : String)
  | save (path text : String)
  | execute (image : Image)

def Invocation.job (i : Invocation) (text : String) : Except Diagnostic Job :=
  match i.command with
  | .run => do
    let p ← readProgram i.file text
    return .execute (← (p.image i.optimize).mapError .ofFailure)
  | .build => do
    let p ← readProgram i.file text
    let code ← (p.build i.optimize).mapError .ofCompile
    match i.output with
    | some path => return .save path code
    | none => return .display code
  | .exec => return .execute (← (load text).mapError .ofLoad)
  | .ast => do
    let p ← readProgram i.file text
    return .display (p.toJson.render .pretty ++ "\n")

def Invocation.settings (i : Invocation) : Settings :=
  { maxCallDepth := i.maxCallDepth }

def farewell : Halt → String
  | .returned .null => ""
  | .returned value => value.display ++ "\n"
  | .exited _ => ""

/-- The status of the process when a run has ended, of which eight bits are kept. -/
def exitStatus : Halt → Nat
  | .returned _ => 0
  | .exited status => (status.toInt % 256).toNat

def Invocation.complaint (i : Invocation) (terminal : Bool) (d : Diagnostic) : String :=
  if i.json then d.jsonLine ++ "\n" else d.render (terminal && i.color)

structure Response where
  status : Nat
  stdout : String
  stderr : String
  deriving DecidableEq, Repr

def Invocation.failure (i : Invocation) (stdout : String) (d : Diagnostic) : Response :=
  ⟨1, stdout, i.complaint false d⟩

abbrev Files := List (String × String)

def Files.read? (files : Files) (path : String) : Option String :=
  (files.find? fun (name, _) => pathNames name = pathNames path).map (·.2)

def Files.hasDirectory (files : Files) (names : List String) : Bool :=
  names = [] || files.any fun (name, _) => names.isPrefixOf (pathNames name).dropLast

/-- The files after one of them has been written; none if its directory is missing. -/
def Files.write? (files : Files) (path text : String) : Option Files :=
  if files.hasDirectory (pathNames path).dropLast then
    if (files.read? path).isSome then
      some (files.map fun (name, old) =>
        if pathNames name = pathNames path then (name, text) else (name, old))
    else some (files ++ [(String.intercalate "/" (pathNames path), text)])
  else none

/-- Does a job in a directory. There is no answer if the run takes more than `fuel` steps. -/
def Invocation.perform (i : Invocation) (fuel : Nat) (files : Files) :
    Job → Option (Response × Files)
  | .display text => some (⟨0, text, ""⟩, files)
  | .save path text =>
    match files.write? path text with
    | some files => some (⟨0, "", ""⟩, files)
    | none => some (i.failure "" (fileError path missing), files)
  | .execute image =>
    (image.run i.settings fuel).map fun outcome =>
      match outcome.result with
      | .ok halt => (⟨exitStatus halt, outcome.output ++ farewell halt, ""⟩, files)
      | .error e => (i.failure outcome.output (.ofRun e), files)

def Invocation.respond (i : Invocation) (fuel : Nat) (files : Files) :
    Option (Response × Files) :=
  match files.read? i.file with
  | none => some (i.failure "" (fileError i.file missing), files)
  | some text =>
    match i.job text with
    | .ok job => i.perform fuel files job
    | .error d => some (i.failure "" d, files)

/-- Answers a command line in a directory in which nothing is a terminal. -/
def respond (fuel : Nat) (files : Files) (args : List String) : Option (Response × Files) :=
  match Request.ofArguments args with
  | .invoke i => i.respond fuel files
  | .version => some (⟨0, versionLine, ""⟩, files)
  | .help command => some (⟨0, helpText command, ""⟩, files)
  | .misuse => some (⟨2, "", misuseText⟩, files)

end BlueCode.CommandLine
