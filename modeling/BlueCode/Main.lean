import BlueCode.CommandLine

namespace BlueCode.Main

open CommandLine

def reason : IO.Error → String
  | .noFileOrDirectory .. => missing
  | e => toString e

/-- Runs until the machine halts, printing and pausing as it goes. -/
partial def drive (settings : Settings) (image : Image) (s : State) :
    IO (Except RunError Halt) := do
  match s.pause? with
  | some seconds => IO.sleep (seconds * 1000).toUInt32
  | none => pure ()
  match s.step settings image with
  | .ok (.moved next) | .ok (.entered next) | .ok (.left next) => drive settings image next
  | .ok (.printed text next) =>
    let out ← IO.getStdout
    out.putStr text
    out.flush
    drive settings image next
  | .ok (.halted halt) => return .ok halt
  | .error e => return .error e

def execute (settings : Settings) (image : Image) : IO (Except RunError Halt) :=
  match image.find? "main" with
  | some main => drive settings image (.start main)
  | none => return .error (.missingFunction "main")

def complain (i : Invocation) (d : Diagnostic) : IO UInt32 := do
  let err ← IO.getStderr
  err.putStr (i.complaint (← err.isTty) d)
  return 1

def perform (i : Invocation) : Job → IO UInt32
  | .display text => do
    (← IO.getStdout).putStr text
    return 0
  | .save path text => do
    match ← (IO.FS.writeFile path text).toBaseIO with
    | .ok _ => return 0
    | .error e => complain i (fileError path (reason e))
  | .execute image => do
    match ← execute i.settings image with
    | .ok halt =>
      (← IO.getStdout).putStr (farewell halt)
      return UInt32.ofNat (exitStatus halt)
    | .error e => complain i (.ofRun e)

def invoke (i : Invocation) : IO UInt32 := do
  match ← (IO.FS.readFile i.file).toBaseIO with
  | .ok text =>
    match i.job text with
    | .ok job => perform i job
    | .error d => complain i d
  | .error e => complain i (fileError i.file (reason e))

end BlueCode.Main

open BlueCode BlueCode.CommandLine in
def main (args : List String) : IO UInt32 := do
  match Request.ofArguments args with
  | .invoke i => Main.invoke i
  | .version => do
    (← IO.getStdout).putStr versionLine
    return 0
  | .help command => do
    (← IO.getStdout).putStr (helpText command)
    return 0
  | .misuse => do
    (← IO.getStderr).putStr misuseText
    return 2
