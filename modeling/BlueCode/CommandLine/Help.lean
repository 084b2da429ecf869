import BlueCode.CommandLine.Arguments

namespace BlueCode.CommandLine

def versionLine : String := "varia 0.1.0\n"

def padded (width : Nat) (text : String) : String :=
  text ++ String.ofList (List.replicate (width - text.length) ' ')

def optionLine (option explanation : String) : String :=
  "  " ++ padded 39 option ++ explanation ++ "\n"

def commandLine (name explanation : String) : String :=
  "  " ++ padded 7 name ++ explanation ++ "\n"

def commonOptions : String :=
  optionLine "    --no-opt" "Skip the peephole optimizer" ++
  optionLine "    --max-call-depth <MAX_CALL_DEPTH>"
    "Maximum nested calls before the VM gives up [default: 1024]" ++
  optionLine "    --json" "Report errors as JSON lines on stderr" ++
  optionLine "    --no-color" "Disable coloured error output" ++
  optionLine "-h, --help" "Print help"

def helpText : Option Command → String
  | none =>
    "Compile and run varia programs on the BlueCode VM\n\n" ++
    "Usage: varia [OPTIONS] <COMMAND>\n\nCommands:\n" ++
    String.join (Command.all.map fun c => commandLine c.name c.purpose) ++
    commandLine "help" "Print this message or the help of the given subcommand(s)" ++
    "\nOptions:\n" ++ commonOptions ++ optionLine "-V, --version" "Print version"
  | some c =>
    c.purpose ++ "\n\nUsage: varia " ++ c.name ++ " [OPTIONS] <FILE>\n\n" ++
    "Arguments:\n  <FILE>  \n\nOptions:\n" ++
    (if c = .build then optionLine "-o, --output <OUTPUT>" "Write BlueCode here instead of stdout"
     else "") ++
    commonOptions

def misuseText : String :=
  "error: invalid arguments\n\nUsage: varia [OPTIONS] <COMMAND>\n\n" ++
  "For more information, try '--help'.\n"

end BlueCode.CommandLine
