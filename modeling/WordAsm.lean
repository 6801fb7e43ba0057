import WordAsm.Command.Arguments
import WordAsm.Command.Disk
import WordAsm.Command.Run
import WordAsm.Expr.Basic
import WordAsm.Expr.Parser
import WordAsm.Expr.Precedence
import WordAsm.Expr.Simplify
import WordAsm.Fault
import WordAsm.Image.Decode
import WordAsm.Image.Disassembly
import WordAsm.Layout
import WordAsm.Machine.Argument
import WordAsm.Machine.Word
import WordAsm.Main
import WordAsm.Options
import WordAsm.Preprocess.Directive
import WordAsm.Preprocess.Macro
import WordAsm.Preprocess.Reader
import WordAsm.Preprocess.Run
import WordAsm.Program
import WordAsm.Proofs.ArgumentTexts
import WordAsm.Proofs.Blocks
import WordAsm.Proofs.BraceSugar
import WordAsm.Proofs.BytePairs
import WordAsm.Proofs.Completion
import WordAsm.Proofs.ConditionalChains
import WordAsm.Proofs.ConstantIndependence
import WordAsm.Proofs.DataTexts
import WordAsm.Proofs.DecodedLines
import WordAsm.Proofs.DisassemblyChunks
import WordAsm.Proofs.DisassemblyLines
import WordAsm.Proofs.Displacement
import WordAsm.Proofs.Emission
import WordAsm.Proofs.EmissionFaults
import WordAsm.Proofs.EmittedTrees
import WordAsm.Proofs.ExpressionScan
import WordAsm.Proofs.FailureLocations
import WordAsm.Proofs.FlowReachability
import WordAsm.Proofs.FrameStacks
import WordAsm.Proofs.FramedStrings
import WordAsm.Proofs.HeldLines
import WordAsm.Proofs.IncludedBytes
import WordAsm.Proofs.InstructionTexts
import WordAsm.Proofs.InstructionWord
import WordAsm.Proofs.LabelKeys
import WordAsm.Proofs.LabelNames
import WordAsm.Proofs.LabelValues
import WordAsm.Proofs.Latches
import WordAsm.Proofs.LayoutConvergence
import WordAsm.Proofs.LayoutFixedPoint
import WordAsm.Proofs.LayoutLineNumbers
import WordAsm.Proofs.LayoutPasses
import WordAsm.Proofs.LayoutStates
import WordAsm.Proofs.LineEffects
import WordAsm.Proofs.LineEndings
import WordAsm.Proofs.LineNumbers
import WordAsm.Proofs.LiteralTexts
import WordAsm.Proofs.MacroHygiene
import WordAsm.Proofs.Numerals
import WordAsm.Proofs.OptimizedEmission
import WordAsm.Proofs.OptimizedLayout
import WordAsm.Proofs.Outcomes
import WordAsm.Proofs.PackedStrings
import WordAsm.Proofs.PaddingLengths
import WordAsm.Proofs.ParameterWords
import WordAsm.Proofs.PartParsing
import WordAsm.Proofs.PeepholeMeaning
import WordAsm.Proofs.PlainTexts
import WordAsm.Proofs.PrecedenceParsing
import WordAsm.Proofs.PreprocessStep
import WordAsm.Proofs.PrintedTrees
import WordAsm.Proofs.ReadingFaults
import WordAsm.Proofs.Rearrangement
import WordAsm.Proofs.RegisterNames
import WordAsm.Proofs.RelativeJumps
import WordAsm.Proofs.RenderedData
import WordAsm.Proofs.Repetitions
import WordAsm.Proofs.Replacement
import WordAsm.Proofs.RoundTrip
import WordAsm.Proofs.ScanSteps
import WordAsm.Proofs.Shapes
import WordAsm.Proofs.SkippedBlocks
import WordAsm.Proofs.SourceCoverage
import WordAsm.Proofs.StagedSimplification
import WordAsm.Proofs.SteadySources
import WordAsm.Proofs.Surroundings
import WordAsm.Proofs.SymbolHistory
import WordAsm.Proofs.TextBytes
import WordAsm.Proofs.TextParsing
import WordAsm.Proofs.WholeLines
import WordAsm.Proofs.WrittenLines
import WordAsm.Source.Line
import WordAsm.Source.Tokenizer
import WordAsm.Statement.Basic
import WordAsm.Statement.Data
import WordAsm.Statement.Instruction
import WordAsm.Statement.Operand
import WordAsm.Statement.Padding
import WordAsm.Statement.StringLiteral
import WordAsm.Symbol.Lookup
import WordAsm.Symbol.Table
import WordAsm.Text.Basic
import WordAsm.Text.Case
import WordAsm.Text.Printable
