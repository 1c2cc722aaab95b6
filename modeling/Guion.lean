import Guion.CommandLine.Options
import Guion.CommandLine.Report
import Guion.Console
import Guion.Double.Read
import Guion.Double.Remainder
import Guion.Double.Shape
import Guion.Double.Shortest
import Guion.Double.Text
import Guion.Eval
import Guion.Failure
import Guion.Fault
import Guion.Json
import Guion.Json.Printer
import Guion.Json.Reader
import Guion.Machine
import Guion.Main
import Guion.Name
import Guion.Number
import Guion.Operator
import Guion.Parse
import Guion.Parse.Accept
import Guion.Parse.State
import Guion.Parse.Step
import Guion.Pos
import Guion.Program
import Guion.Session
import Guion.Store
import Guion.Store.History
import Guion.Text.Digit
import Guion.Text.Hidden
import Guion.Token
import Guion.Token.Lexer
import Guion.Trace
import Guion.Tree
import Guion.Tree.Codec
import Guion.Tree.Display
import Guion.Tree.Equality
import Guion.Tree.Reading
import Guion.Tree.Writing
import Guion.Value
import Guion.Value.Apply
import Guion.Value.Conform
import Guion.Width
import Guion.Proofs.Plan
import Guion.Proofs.Plan.Steps
import Guion.Proofs.Plan.Course
import Guion.Proofs.Plan.Contract
import Guion.Proofs.Regular
import Guion.Proofs.Regular.Binary
import Guion.Proofs.Written
import Guion.Proofs.Sound.Store
import Guion.Proofs.Sound.Machine
import Guion.Proofs.Sound.Steps
import Guion.Proofs.Discipline.Store
import Guion.Proofs.Discipline.Machine
import Guion.Proofs.Discipline
import Guion.Proofs.Fresh
import Guion.Proofs.Grammar
import Guion.Proofs.Grammar.Lexing
import Guion.Proofs.Grammar.Pending
import Guion.Proofs.Grammar.State
import Guion.Proofs.Grammar.Steps
import Guion.Proofs.Grammar.Written
import Guion.Proofs.Grammar.Parsing
import Guion.Proofs.Sound.Session
import Guion.Proofs.Sound.Failures
import Guion.Proofs.Plan.Shape
import Guion.Proofs.Depth
import Guion.Proofs.Plan.Table
import Guion.Proofs.Plan.Parts
import Guion.Proofs.Plan.Stack
import Guion.Proofs.Termination
import Guion.Proofs.Grammar.Placed
import Guion.Proofs.Location
import Guion.Proofs.Overrun
import Guion.Proofs.Grammar.Complete
import Guion.Proofs.Grammar.Lexemes
import Guion.Proofs.Grammar.Scanning
import Guion.Proofs.Digits
import Guion.Proofs.Printing
import Guion.Proofs.RoundTrip
import Guion.Proofs.Figures
import Guion.Proofs.Json.Legible
import Guion.Proofs.Tree.Durable
import Guion.Proofs.Tree.Stored
import Guion.Proofs.Replay
import Guion.Proofs.Likeness
import Guion.Proofs.Reports
import Guion.Proofs.Calls
import Guion.Proofs.Limit
import Guion.Proofs.Verbosity
import Guion.Proofs.Signals
import Guion.Proofs.Padding
import Guion.Proofs.Rounds
import Guion.Proofs.Expansion
import Guion.Proofs.Plan.Moves
import Guion.Proofs.Isolation
import Guion.Proofs.Input
import Guion.Proofs.Grammar.Positions
import Guion.Proofs.Grammar.Cut
import Guion.Proofs.Grammar.Completion
import Guion.Proofs.Grammar.Cursor
import Guion.Proofs.Grammar.FirstError
import Guion.Proofs.Relocation
import Guion.Proofs.Grammar.Relocated
import Guion.Proofs.Grammar.Correspondence
import Guion.Proofs.Grammar.Layout
import Guion.Proofs.Grammar.Concatenation
import Guion.Proofs.Counterparts
import Guion.Proofs.Concatenation
import Guion.Proofs.Interaction
import Guion.Proofs.Tree.Decoding
import Guion.Proofs.Tree.Normal
import Guion.Proofs.Wrapping
import Guion.Proofs.Division
import Guion.Proofs.Numerals
import Guion.Proofs.Double.Rounding
import Guion.Proofs.Double.Shortest
import Guion.Proofs.Double.Text
import Guion.Proofs.Conformity
import Guion.Proofs.Lines
import Guion.Proofs.Bracketing
import Guion.Proofs.Places
import Guion.Proofs.Scoping
