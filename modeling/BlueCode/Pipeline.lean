import BlueCode.Image.Loader
import BlueCode.Machine
import BlueCode.Peephole
import BlueCode.Program.Compile
import BlueCode.Program.Parser

namespace BlueCode

inductive Failure where
  | lex (e : LexError)
  | parse (e : ParseError)
  | compile (e : CompileError)
  | load (e : LoadError)
  | run (e : RunError)
  deriving DecidableEq, Repr

namespace Failure

def code : Failure → String
  | lex _ => "VAR-L001"
  | parse e => e.code
  | compile e => e.code
  | load e => e.code
  | run e => e.code

def message : Failure → String
  | lex e => e.message
  | parse e => e.message
  | compile e => e.message
  | load e => e.message
  | run e => e.message

end Failure

namespace Program

def ofSource (source : String) : Except Failure Program := do
  let tokens ← (lex source).mapError .lex
  (parse tokens).mapError .parse

def instructions (optimized : Bool) (p : Program) : Except CompileError (List Instruction) :=
  p.compile.map fun code => if optimized then optimize code else code

def build (optimized : Bool) (p : Program) : Except CompileError String :=
  (p.instructions optimized).map assemble

def image (optimized : Bool) (p : Program) : Except Failure Image := do
  let text ← (p.build optimized).mapError .compile
  (load text).mapError .load

end Program

/-- How a run through the stages has ended, and what it has printed. -/
structure Report where
  result : Except Failure Halt
  output : String

def Outcome.report (o : Outcome) : Report :=
  ⟨o.result.mapError .run, o.output⟩

def Failure.report (f : Failure) : Report :=
  ⟨.error f, ""⟩

def runImage (settings : Settings) (fuel : Nat) : Except Failure Image → Option Report
  | .ok image => (image.run settings fuel).map Outcome.report
  | .error f => some f.report

end BlueCode
