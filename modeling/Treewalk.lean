import Treewalk.Text
import Treewalk.Number.Basic
import Treewalk.Number.Rounding
import Treewalk.Number.Arithmetic
import Treewalk.Number.Shortest
import Treewalk.Number.Layout
import Treewalk.Number.Numeral
import Treewalk.Number.Elementary
import Treewalk.Source
import Treewalk.Diagnostic
import Treewalk.Token.Basic
import Treewalk.Token.Lexer
import Treewalk.Token.Dump
import Treewalk.Tree.Basic
import Treewalk.Tree.Printer
import Treewalk.Tree.Dump
import Treewalk.Tree.Reader
import Treewalk.Eval.Value
import Treewalk.Eval.Frame
import Treewalk.Eval.Expression
import Treewalk.Eval.Statement
import Treewalk.Program
import Treewalk.Session
import Treewalk.Command
import Treewalk.Main
import Treewalk.Proofs.Grammar.Basic
import Treewalk.Proofs.Grammar.Unambiguous
import Treewalk.Proofs.Grammar.Complete
import Treewalk.Proofs.Grammar.Sound
import Treewalk.Proofs.Number.Nearest
import Treewalk.Proofs.Number.Spelling
import Treewalk.Proofs.Reader.Numeral
import Treewalk.Proofs.Token.Longest
import Treewalk.Proofs.Token.Cut
import Treewalk.Proofs.Reader.Refusals
import Treewalk.Proofs.Reader.Completion
import Treewalk.Proofs.Reader.EndOfInput
import Treewalk.Proofs.Reader.Relocation
import Treewalk.Proofs.Number.Shortest
import Treewalk.Proofs.Number.Layout
import Treewalk.Proofs.Tree.Printing
import Treewalk.Proofs.Tree.RoundTrip
import Treewalk.Proofs.Eval.Steps
import Treewalk.Proofs.Eval.Closed
import Treewalk.Proofs.Eval.Renaming
import Treewalk.Proofs.Eval.Frames
import Treewalk.Proofs.Eval.Texts
import Treewalk.Proofs.Eval.Pairing
import Treewalk.Proofs.Eval.Execution
import Treewalk.Proofs.Eval.Origin
import Treewalk.Proofs.Eval.Failures
import Treewalk.Proofs.Eval.Places
import Treewalk.Proofs.Eval.Parameters
import Treewalk.Proofs.Eval.Rules
import Treewalk.Proofs.Eval.Termination
import Treewalk.Proofs.Eval.Growth
import Treewalk.Proofs.Eval.CallLimit
import Treewalk.Proofs.Eval.Replay
import Treewalk.Proofs.Eval.Scopes
import Treewalk.Proofs.Eval.ReadBack
import Treewalk.Proofs.Eval.Joining
import Treewalk.Proofs.Eval.Moments
import Treewalk.Proofs.Eval.Raising
import Treewalk.Proofs.Eval.Captures
import Treewalk.Proofs.Eval.Histories
import Treewalk.Proofs.Eval.Declarations
import Treewalk.Proofs.Eval.Pointing
import Treewalk.Proofs.Eval.Tracking
import Treewalk.Proofs.Eval.Purity
import Treewalk.Proofs.Eval.Arrays
import Treewalk.Proofs.Eval.Unused
import Treewalk.Proofs.Token.Spacing
import Treewalk.Proofs.Source
import Treewalk.Proofs.LineMap
import Treewalk.Proofs.Token.Caret
import Treewalk.Proofs.Token.Dump
import Treewalk.Proofs.Tree.Dump
import Treewalk.Proofs.Number.Faithful
import Treewalk.Proofs.Number.Integers
import Treewalk.Proofs.Command.Options
import Treewalk.Proofs.Command.Answers
import Treewalk.Proofs.Eval.Lines
import Treewalk.Proofs.Eval.Subscripts
import Treewalk.Proofs.Eval.Calls
import Treewalk.Proofs.Reader.Descent
import Treewalk.Proofs.Reader.Following
import Treewalk.Proofs.Reader.Progress
