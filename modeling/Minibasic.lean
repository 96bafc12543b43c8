import Minibasic.Command
import Minibasic.Main
import Minibasic.Proofs.Grammar.Continuation
import Minibasic.Proofs.Parser.Progress
import Minibasic.Proofs.Parser.Spans
import Minibasic.Proofs.Parser.Soundness
import Minibasic.Proofs.Parser.Completeness
import Minibasic.Proofs.Parser.Acceptance
import Minibasic.Proofs.Grammar.Writing
import Minibasic.Proofs.Parser.Recovery
import Minibasic.Proofs.Parser.RoundTrip
import Minibasic.Proofs.Expr.Children
import Minibasic.Proofs.Value.Plain
import Minibasic.Proofs.Value.Operands
import Minibasic.Proofs.Environment.Bindings
import Minibasic.Proofs.Evaluation.Frame
import Minibasic.Proofs.Evaluation.Invariant
import Minibasic.Proofs.Evaluation.Parents
import Minibasic.Proofs.Evaluation.Session
import Minibasic.Proofs.Evaluation.Likeness
import Minibasic.Proofs.Parser.Layout
import Minibasic.Proofs.Evaluation.Simulation
import Minibasic.Proofs.Evaluation.Metadata
import Minibasic.Proofs.Grammar.Productions
import Minibasic.Proofs.Parser.Rules
import Minibasic.Proofs.Parser.Lookahead
import Minibasic.Proofs.Parser.Viability
import Minibasic.Proofs.Parser.FirstWrong
import Minibasic.Proofs.Evaluation.Registers
import Minibasic.Proofs.Evaluation.Calls
import Minibasic.Proofs.Evaluation.Lexical
import Minibasic.Proofs.Evaluation.Output
import Minibasic.Proofs.Evaluation.Repetition
import Minibasic.Proofs.Evaluation.Tasks
import Minibasic.Proofs.Evaluation.Visited
import Minibasic.Proofs.Evaluation.Faults
import Minibasic.Proofs.Evaluation.Blame
import Minibasic.Proofs.Evaluation.Depth
import Minibasic.Proofs.Evaluation.Reached
import Minibasic.Proofs.Evaluation.WellFormed
import Minibasic.Proofs.Number.Counters
import Minibasic.Proofs.Number.Ranks
import Minibasic.Proofs.Number.Words
import Minibasic.Proofs.Number.Rounding
import Minibasic.Proofs.Number.Comparison
import Minibasic.Proofs.Number.Powers
import Minibasic.Proofs.Number.Integrality
import Minibasic.Proofs.Evaluation.Counting
import Minibasic.Proofs.Evaluation.LoopBounds
import Minibasic.Proofs.Environment.Sharing
import Minibasic.Proofs.Source.Places
import Minibasic.Proofs.Source.Order
import Minibasic.Proofs.Token.Language
import Minibasic.Proofs.Token.LongestMatch
import Minibasic.Proofs.Token.Tiling
import Minibasic.Proofs.Parser.Nesting
import Minibasic.Proofs.Console.Lines
import Minibasic.Proofs.Evaluation.Exchanges
import Minibasic.Proofs.Command.Dialogue
import Minibasic.Proofs.Source.Moving
import Minibasic.Proofs.Token.Composition
import Minibasic.Proofs.Parser.Confinement
import Minibasic.Proofs.Grammar.Demands
import Minibasic.Proofs.Parser.Messages
import Minibasic.Proofs.Value.Exact
import Minibasic.Proofs.Evaluation.Exact
import Minibasic.Proofs.Text.Quoted
import Minibasic.Proofs.Text.Nested
import Minibasic.Proofs.Token.Literals
import Minibasic.Proofs.Decimal.Digits
import Minibasic.Proofs.Decimal.Style
import Minibasic.Proofs.Decimal.Shortest
import Minibasic.Proofs.Number.Unsigned
import Minibasic.Proofs.Number.Texts
import Minibasic.Proofs.Grammar.Payload
import Minibasic.Proofs.Expr.Nested
import Minibasic.Proofs.Expr.Words
import Minibasic.Proofs.Expr.Printing
import Minibasic.Proofs.Evaluation.Provenance
import Minibasic.Proofs.Diagnostic.Lines
import Minibasic.Proofs.Diagnostic.Carets
import Minibasic.Proofs.Diagnostic.Traceback
import Minibasic.Proofs.Console.Integers
import Minibasic.Proofs.Evaluation.Consumption
import Minibasic.Proofs.Command.Status
import Minibasic.Proofs.Evaluation.Echo
import Minibasic.Proofs.Evaluation.WellFormed
