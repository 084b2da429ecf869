import BlueCode.Value
import BlueCode.Text.Blank
import BlueCode.Text.Lines
import BlueCode.Token.Lexer
import BlueCode.Program.Parser
import BlueCode.Json.Reader
import BlueCode.Json.Printer
import BlueCode.Program.Json
import BlueCode.Instruction
import BlueCode.Image.Loader
import BlueCode.Program.Compile
import BlueCode.Peephole
import BlueCode.Memory
import BlueCode.Machine
import BlueCode.Trace
import BlueCode.Diagnostic.Terminal
import BlueCode.Diagnostic.Json
import BlueCode.CommandLine.Arguments
import BlueCode.CommandLine
import BlueCode.Main
import BlueCode.Proofs.Steps
import BlueCode.Proofs.Routines
import BlueCode.Proofs.Emission
import BlueCode.Proofs.TidyCode
import BlueCode.Proofs.Activations
import BlueCode.Proofs.ProperCalls
import BlueCode.Proofs.Thinning
import BlueCode.Proofs.ProgramImage
import BlueCode.Proofs.StackDiscipline
import BlueCode.Proofs.OperandText
import BlueCode.Proofs.LineText
import BlueCode.Proofs.TextRoundTrip
import BlueCode.Proofs.ThinnedRuns
import BlueCode.Proofs.RereadCode
import BlueCode.Proofs.Optimization
import BlueCode.Proofs.Evaluation
import BlueCode.Proofs.Realization
import BlueCode.Proofs.ExpressionRuns
import BlueCode.Proofs.StatementRuns
import BlueCode.Proofs.CompilerCorrectness
import BlueCode.Proofs.InstructionForm
import BlueCode.Proofs.LoadedCode
import BlueCode.Proofs.StepEffects
import BlueCode.Proofs.Isolation
import BlueCode.Proofs.LocalRewrites
import BlueCode.Proofs.CallMachine
import BlueCode.Proofs.Rewriting
import BlueCode.Proofs.RewrittenRuns
import BlueCode.Proofs.Shortening
import BlueCode.Proofs.PeepholeSoundness
import BlueCode.Proofs.AcceptedPrograms
import BlueCode.Proofs.Reading
import BlueCode.Proofs.ViablePrefix
import BlueCode.Proofs.Traversal
import BlueCode.Proofs.WrittenExpressions
import BlueCode.Proofs.WrittenPrograms
import BlueCode.Proofs.ForwardCode
import BlueCode.Proofs.BoundedRuns
import BlueCode.Proofs.CallLimit
import BlueCode.Proofs.OperandErrors
import BlueCode.Proofs.Listings
import BlueCode.Proofs.LongestMatch
import BlueCode.Proofs.MaximalMunch
import BlueCode.Proofs.DecimalText
import BlueCode.Proofs.JsonText
import BlueCode.Proofs.JsonNumbers
import BlueCode.Proofs.JsonPrograms
import BlueCode.Proofs.PeepholeSteps
import BlueCode.Proofs.PeepholeFixpoint
import BlueCode.Proofs.FrontEnds
import BlueCode.Proofs.Traces
import BlueCode.Proofs.WellFormed
import BlueCode.Proofs.FirstViolation
import BlueCode.Proofs.ThinnedImages
import BlueCode.Proofs.OptimizedCode
import BlueCode.Proofs.LocalVariables
import BlueCode.Proofs.Renaming
import BlueCode.Proofs.LineContents
import BlueCode.Proofs.LineLayout
import BlueCode.Proofs.TextEdits
import BlueCode.Proofs.FunctionOrder
import BlueCode.Proofs.FloatOrder
import BlueCode.Proofs.Rounding
import BlueCode.Proofs.Widening
import BlueCode.Proofs.ValueOrder
import BlueCode.Proofs.ValueArithmetic
import BlueCode.Proofs.ImageContents
import BlueCode.Proofs.TokenSpacing
import BlueCode.Proofs.PeepholeBlocks
import BlueCode.Proofs.TextPlaces
import BlueCode.Proofs.JsonDiagnostics
import BlueCode.Proofs.CaretLines
