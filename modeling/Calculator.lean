import Calculator.Text.Blank
import Calculator.Text.Cut
import Calculator.Precedence
import Calculator.Binary64.Basic
import Calculator.Binary64.Operations
import Calculator.Numeral.Basic
import Calculator.Numeral.Shortest
import Calculator.Token.Basic
import Calculator.Token.Lexer
import Calculator.Operator
import Calculator.Error
import Calculator.Function.Native
import Calculator.Function.Formula
import Calculator.Function.Table
import Calculator.Reading.Basic
import Calculator.Reading.Equations
import Calculator.Evaluation
import Calculator.Environment
import Calculator.Builtins
import Calculator.Session
import Calculator.Console.Definition
import Calculator.Console.Transcript
import Calculator.Main
import Calculator.Proofs.Outcome
import Calculator.Proofs.Invocation
import Calculator.Proofs.Machine
import Calculator.Proofs.Compilation
import Calculator.Proofs.Execution
import Calculator.Proofs.Lexemes
import Calculator.Proofs.Grammar
import Calculator.Proofs.Calls
import Calculator.Proofs.Levels
import Calculator.Proofs.Derivation
import Calculator.Proofs.Chain
import Calculator.Proofs.Unambiguity
import Calculator.Proofs.Derivable
import Calculator.Proofs.Spacing
import Calculator.Proofs.Expression
import Calculator.Proofs.Printing
import Calculator.Proofs.CallGraph
import Calculator.Proofs.CallDepth
import Calculator.Proofs.Mentions
import Calculator.Proofs.Comparison
import Calculator.Proofs.DepthLimit
import Calculator.Proofs.Isolation
import Calculator.Proofs.Failure
import Calculator.Proofs.Parameters
import Calculator.Proofs.Inlining
import Calculator.Proofs.Layout
import Calculator.Proofs.LongestMatch
import Calculator.Proofs.Numerals
import Calculator.Proofs.LexicalFailure
import Calculator.Proofs.Brackets
import Calculator.Proofs.Frames
import Calculator.Proofs.Juxtaposition
import Calculator.Proofs.Application
import Calculator.Proofs.Transparency
import Calculator.Proofs.Cursor
import Calculator.Proofs.Termination
import Calculator.Proofs.Realization
import Calculator.Proofs.Registration
import Calculator.Proofs.Headroom
import Calculator.Proofs.UnusedParameters
import Calculator.Proofs.Cutting
import Calculator.Proofs.Padding
import Calculator.Proofs.DefinitionLines
import Calculator.Proofs.Display
import Calculator.Proofs.Reordering
import Calculator.Proofs.Parts
import Calculator.Proofs.Rounding
import Calculator.Proofs.Positional
import Calculator.Proofs.Dialogue
import Calculator.Proofs.ReadBack
import Calculator.Proofs.History
import Calculator.Proofs.InputLines
import Calculator.Proofs.OneLine
import Calculator.Proofs.Transcripts
import Calculator.Proofs.BuiltinNames
import Calculator.Proofs.PositiveSign
import Calculator.Proofs.Extremes
import Calculator.Proofs.Watch
import Calculator.Proofs.Consumption
import Calculator.Proofs.LookAhead
