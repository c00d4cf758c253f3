import Scriptlet.Location
import Scriptlet.Source
import Scriptlet.CharClass
import Scriptlet.Double.Magnitude
import Scriptlet.Double
import Scriptlet.Decimal
import Scriptlet.Decimal.Layout
import Scriptlet.Numeral
import Scriptlet.Text.Quoted
import Scriptlet.Lexeme
import Scriptlet.Token
import Scriptlet.Scanner
import Scriptlet.Lexer
import Scriptlet.Operator
import Scriptlet.Node
import Scriptlet.Node.Pieces
import Scriptlet.ParseError
import Scriptlet.Parse
import Scriptlet.Grammar
import Scriptlet.Grammar.Expression
import Scriptlet.Grammar.Statement
import Scriptlet.Grammar.Counted
import Scriptlet.Value
import Scriptlet.Value.Apply
import Scriptlet.Environment
import Scriptlet.RuntimeError
import Scriptlet.Eval
import Scriptlet.Session
import Scriptlet.Text.Escaped
import Scriptlet.Node.Outline
import Scriptlet.CommandLine
import Scriptlet.Main
import Scriptlet.Proofs.CharClass
import Scriptlet.Proofs.Operator
import Scriptlet.Proofs.Source
import Scriptlet.Proofs.Source.Pushback
import Scriptlet.Proofs.Source.Indexed
import Scriptlet.Proofs.Token
import Scriptlet.Proofs.Lexeme
import Scriptlet.Proofs.Gap
import Scriptlet.Proofs.Lexer
import Scriptlet.Proofs.Lexer.Lookahead
import Scriptlet.Proofs.Numeral
import Scriptlet.Proofs.Parse
import Scriptlet.Proofs.Computation
import Scriptlet.Proofs.Exhaustion
import Scriptlet.Proofs.Grammar.Derives
import Scriptlet.Proofs.Grammar.Follow
import Scriptlet.Proofs.Grammar.Soundness
import Scriptlet.Proofs.Node.Unplaced
import Scriptlet.Proofs.Grammar.Completeness
import Scriptlet.Proofs.Grammar.Nesting
import Scriptlet.Proofs.Grammar.Expression
import Scriptlet.Proofs.Grammar.States
import Scriptlet.Proofs.Grammar.StatesSoundness
import Scriptlet.Proofs.Grammar.Depth
import Scriptlet.Proofs.Grammar.Composition
import Scriptlet.Proofs.Grammar.Progress
import Scriptlet.Proofs.Grammar.StatesCompleteness
import Scriptlet.Proofs.Grammar.Exhaustion
import Scriptlet.Proofs.Grammar.Descent
import Scriptlet.Proofs.Grammar.Levels
import Scriptlet.Proofs.Node.Pieces
import Scriptlet.Proofs.Grammar.StatesPrinting
import Scriptlet.Proofs.Grammar.Written
import Scriptlet.Proofs.Grammar.Content
import Scriptlet.Proofs.Grammar.Conservation
import Scriptlet.Proofs.RoundTrip.Tokens
import Scriptlet.Proofs.LongestMatch
import Scriptlet.Proofs.Scanner.Numeral
import Scriptlet.Proofs.Scanner
import Scriptlet.Proofs.RoundTrip.Reading
import Scriptlet.Proofs.RoundTrip.Text
import Scriptlet.Proofs.Session.Rounds
import Scriptlet.Proofs.Session.Agreement
import Scriptlet.Proofs.Environment
import Scriptlet.Proofs.Environment.Isolation
import Scriptlet.Proofs.Node.Names
import Scriptlet.Proofs.Node.Paths
import Scriptlet.Proofs.Node.Height
import Scriptlet.Proofs.Eval.Composition
import Scriptlet.Proofs.Eval.Frame
import Scriptlet.Proofs.Eval.Errors
import Scriptlet.Proofs.Eval.Visible
import Scriptlet.Proofs.Eval.Expansion
import Scriptlet.Proofs.Grammar.Grouping
import Scriptlet.Proofs.Session.Recovery
import Scriptlet.Proofs.Grammar.Regrouped
import Scriptlet.Proofs.Grammar.Built
import Scriptlet.Proofs.Grammar.Places
import Scriptlet.Proofs.Grammar.Counting
import Scriptlet.Proofs.Grammar.Height
import Scriptlet.Proofs.Grammar.Calls
import Scriptlet.Proofs.Grammar.Alike
import Scriptlet.Proofs.Text.Quoted
import Scriptlet.Proofs.Double.Magnitude
import Scriptlet.Proofs.Value.Comparison
import Scriptlet.Proofs.Double
import Scriptlet.Proofs.Value.Bits32
import Scriptlet.Proofs.Numeral.Conversion
import Scriptlet.Proofs.Decimal
import Scriptlet.Proofs.Decimal.Layout
import Scriptlet.Proofs.RoundTrip.Number
