import BlueCode.Decimal.Reading

namespace BlueCode.CommandLine

inductive Command where
  | run
  | build
  | exec
  | ast
  deriving DecidableEq, Repr

namespace Command

def all : List Command := [run, build, exec, ast]

def name : Command → String
  | run => "run"
  | build => "build"
  | exec => "exec"
  | ast => "ast"

def purpose : Command → String
  | run => "Compile and execute a program (.vr source or .json AST)"
  | build => "Compile a program to BlueCode"
  | exec => "Execute a BlueCode file"
  | ast => "Print the parsed AST as JSON"

def ofName? (name : String) : Option Command :=
  all.find? (·.name == name)

end Command

structure Options where
  noOpt : Bool
  maxCallDepth : Option Nat
  json : Bool
  noColor : Bool
  output : Option String
  deriving DecidableEq, Repr

def Options.none : Options := ⟨false, .none, false, false, .none⟩

structure Invocation where
  command : Command
  file : String
  output : Option String
  optimize : Bool
  maxCallDepth : Nat
  json : Bool
  color : Bool
  deriving DecidableEq, Repr

inductive Request where
  | invoke (i : Invocation)
  | version
  | help (command : Option Command)
  | misuse
  deriving DecidableEq, Repr

inductive Flag where
  | noOpt
  | maxCallDepth
  | json
  | noColor
  | output
  | help
  | version
  deriving DecidableEq, Repr

/-- Whether the option is known at this place: `none` stands for the place before the subcommand. -/
def Flag.isKnown (command : Option Command) : Flag → Bool
  | output => command = some .build
  | version => command = none
  | _ => true

def Flag.ofLongName? (name : String) : Option Flag :=
  [("no-opt", noOpt), ("max-call-depth", maxCallDepth), ("json", json), ("no-color", noColor),
   ("output", output), ("help", help), ("version", version)].lookup name

def Flag.ofShortName? (name : Char) : Option Flag :=
  [('o', output), ('h', help), ('V', version)].lookup name

/-- An argument that starts with a dash and goes on is no value. -/
def looksLikeOption (arg : String) : Bool :=
  match arg.toList with
  | '-' :: _ :: _ => true
  | _ => false

def readDepth? (value : String) : Option Nat :=
  let digits :=
    match value.toList with
    | '+' :: rest => rest
    | cs => cs
  (Decimal.readNat? digits).filter (· < UInt64.size)

def Options.setValue? (o : Options) (value : String) : Flag → Option Options
  | .maxCallDepth =>
    if o.maxCallDepth.isSome then .none
    else (readDepth? value).map fun n => { o with maxCallDepth := some n }
  | .output =>
    if o.output.isSome ∨ value = "" then .none else some { o with output := some value }
  | _ => .none

def Options.setSwitch? (o : Options) : Flag → Option Options
  | .noOpt => if o.noOpt then .none else some { o with noOpt := true }
  | .json => if o.json then .none else some { o with json := true }
  | .noColor => if o.noColor then .none else some { o with noColor := true }
  | _ => .none

def Flag.takesValue : Flag → Bool
  | maxCallDepth | output => true
  | _ => false

/-- An argument split into an option and the value attached to it. After a short option that takes
no value the rest of the argument is not looked at. -/
def splitOption (arg : String) : Option (Option Flag × Option String) :=
  match arg.toList with
  | '-' :: '-' :: name =>
    let long := name.takeWhile (· != '=')
    let attached :=
      match name.drop long.length with
      | _ :: value => some (String.ofList value)
      | [] => none
    some (Flag.ofLongName? (String.ofList long), attached)
  | '-' :: name :: rest =>
    let attached :=
      if name = 'o' then
        match rest with
        | [] => none
        | '=' :: value => some (String.ofList value)
        | value => some (String.ofList value)
      else none
    some (Flag.ofShortName? name, attached)
  | _ => none

structure Reading where
  command : Option Command
  file : Option String
  outer : Options
  options : Options

def Reading.word (r : Reading) (arg : String) : Except Request Reading :=
  match r.command, r.file with
  | none, _ =>
    match Command.ofName? arg with
    | some c => .ok { r with command := some c, outer := r.options, options := .none }
    | none => .error .misuse
  | some _, none => if arg = "" then .error .misuse else .ok { r with file := some arg }
  | some _, some _ => .error .misuse

def Reading.finish (r : Reading) : Request :=
  match r.command, r.file with
  | some command, some file =>
    .invoke
      { command, file
        output := r.options.output
        optimize := !(r.outer.noOpt || r.options.noOpt)
        maxCallDepth := (r.options.maxCallDepth <|> r.outer.maxCallDepth).getD 1024
        json := r.outer.json || r.options.json
        color := !(r.outer.noColor || r.options.noColor) }
  | _, _ => .misuse

def helpRequest : List String → Request
  | [] => .help none
  | [name] =>
    match Command.ofName? name with
    | some c => .help (some c)
    | none => if name = "help" then .help none else .misuse
  | _ => .misuse

/-- After `--` no argument is an option. -/
def Reading.words (r : Reading) : List String → Request
  | [] => r.finish
  | arg :: rest =>
    if r.command.isNone then .misuse
    else
      match r.word arg with
      | .ok next => next.words rest
      | .error request => request

/-- An option, perhaps with a value attached. The answer says whether the next argument was taken as
its value. -/
def Reading.option (r : Reading) (flag : Flag) (attached : Option String) (rest : List String) :
    Except Request (Reading × Bool) :=
  if !flag.isKnown r.command then .error .misuse
  else if flag = .help ∧ attached.isNone then .error (.help r.command)
  else if flag = .version ∧ attached.isNone then .error .version
  else if flag.takesValue then
    let value := attached <|> rest.head?.filter (!looksLikeOption ·)
    match value.bind fun v => r.options.setValue? v flag with
    | some options => .ok ({ r with options }, attached.isNone)
    | none => .error .misuse
  else if attached.isSome then .error .misuse
  else
    match r.options.setSwitch? flag with
    | some options => .ok ({ r with options }, false)
    | none => .error .misuse

def Reading.run (r : Reading) : List String → Request
  | [] => r.finish
  | arg :: rest =>
    if arg = "--" then r.words rest
    else if r.command = none ∧ arg = "help" then helpRequest rest
    else
      match splitOption arg with
      | none =>
        match r.word arg with
        | .ok next => next.run rest
        | .error request => request
      | some (none, _) => .misuse
      | some (some flag, attached) =>
        match r.option flag attached rest with
        | .ok (next, takesNext) => next.run (rest.drop (if takesNext then 1 else 0))
        | .error request => request
termination_by args => args.length
decreasing_by
  all_goals
    simp only [List.length_cons, List.length_drop]
    omega

def Request.ofArguments (args : List String) : Request :=
  Reading.run ⟨none, none, .none, .none⟩ args

end BlueCode.CommandLine
