import Lox.Number
import Lox.Number.Text
import Lox.Text.Printable
import Lox.Text.Quoted
import Lox.Text.DecimalDigit
import Lox.Text.Newlines
import Lox.Token
import Lox.Token.Text
import Lox.Diagnostic
import Lox.Token.Scan
import Lox.Form
import Lox.Form.Describe
import Lox.Defect
import Lox.Form.Prefix
import Lox.Syntax
import Lox.Syntax.Form
import Lox.Syntax.Numbering
import Lox.Syntax.Prefix
import Lox.Parse.Basic
import Lox.Parse.Expression
import Lox.Parse.Statement
import Lox.Scope
import Lox.Locals
import Lox.Resolve
import Lox.Resolve.Misfit
import Lox.Value
import Lox.Environment
import Lox.Machine
import Lox.RuntimeError
import Lox.Operator
import Lox.Evaluate.Basic
import Lox.Evaluate.Expression
import Lox.Evaluate.Statement
import Lox.Evaluate
import Lox.Session
import Lox.Session.Forms
import Lox.Console
import Lox.CommandLine.Options
import Lox.CommandLine.Directory
import Lox.CommandLine
import Lox.Main
import Lox.Proofs.Grammar
import Lox.Proofs.Grammar.Greedy
import Lox.Proofs.Grammar.Follow
import Lox.Proofs.Parse.Reads
import Lox.Proofs.Parse.Sound
import Lox.Proofs.Parse.SoundStatement
import Lox.Proofs.Parse.Complete
import Lox.Proofs.Parse.CompleteStatement
import Lox.Proofs.Native
import Lox.Proofs.Lexical.Alike
import Lox.Proofs.Lexical.Stage
import Lox.Proofs.Lexical.Agree
import Lox.Proofs.Machine
import Lox.Proofs.Lexical.Steps
import Lox.Proofs.Lexical.Lookup
import Lox.Proofs.Lexical.Objects
import Lox.Proofs.Lexical.Expression
import Lox.Proofs.Lexical.Watch
import Lox.Proofs.Lexical.Statement
import Lox.Proofs.Lexical.Simulation
import Lox.Proofs.Parse.Natural
import Lox.Proofs.Binding.Scopes
import Lox.Proofs.Grammar.WellFormed
import Lox.Proofs.Binding.Reference
import Lox.Proofs.Binding.Expression
import Lox.Proofs.Binding.Declaration
import Lox.Proofs.Binding.Statement
import Lox.Proofs.Scan.Segments
import Lox.Proofs.Scan.Tokens
import Lox.Proofs.Scan.Words
import Lox.Proofs.Session.Run
import Lox.Proofs.Session.Gate
import Lox.Proofs.Session.Reachable
import Lox.Proofs.Session.Join
import Lox.Proofs.Scan.Rename
import Lox.Proofs.Binding.Renaming
import Lox.Proofs.Session.Renaming
import Lox.Proofs.Syntax.Labels
import Lox.Proofs.Syntax.Form
import Lox.Proofs.Evaluate.Natural
import Lox.Proofs.Evaluate.NaturalProgram
import Lox.Proofs.Session.Renumbered
import Lox.Proofs.Session.Outline
import Lox.Proofs.Session.Layout
import Lox.Proofs.Session.Failed
import Lox.Proofs.Heap.Cells
import Lox.Proofs.Heap.Discipline
import Lox.Proofs.Heap.Evaluate
import Lox.Proofs.Heap.Frame
import Lox.Proofs.Heap.Store
import Lox.Proofs.Session.Steps
import Lox.Proofs.Heap.Current
import Lox.Proofs.Heap.Chains
import Lox.Proofs.Receiver.Monitor
import Lox.Proofs.Receiver.Scene
import Lox.Proofs.Receiver.Steps
import Lox.Proofs.Receiver.Expression
import Lox.Proofs.Receiver.Statement
import Lox.Proofs.Receiver.Call
import Lox.Proofs.Receiver.Session
import Lox.Proofs.Session.Globals
import Lox.Proofs.Scan.LongestMatch
import Lox.Proofs.Scan.Separated
import Lox.Proofs.Syntax.Fresh
import Lox.Proofs.Parse.Steady
import Lox.Proofs.Parse.Total
import Lox.Proofs.Parse.Append
import Lox.Proofs.Parse.CountingLoop
import Lox.Proofs.Number.Text
import Lox.Proofs.Syntax.Nested
import Lox.Proofs.Parse.PrefixForm
import Lox.Proofs.Parse.Recovery
import Lox.Proofs.Syntax.Position
import Lox.Proofs.Resolve.Walk
import Lox.Proofs.Resolve.Scopes
import Lox.Proofs.Resolve.Findings
import Lox.Proofs.Resolve.Located
import Lox.Proofs.Resolve.Table
import Lox.Proofs.Resolve.Distances
import Lox.Proofs.Return.Unwinding
import Lox.Proofs.Return.Reached
import Lox.Proofs.Number.Rounding
import Lox.Proofs.Number.Nearest
import Lox.Proofs.Number.Shortest
import Lox.Proofs.Number.ReadBack
import Lox.Proofs.Resolve.Tour
import Lox.Proofs.Resolve.Restored
