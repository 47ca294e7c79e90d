import GameScript.CommandLine.Files
import GameScript.CommandLine.Options
import GameScript.CommandLine.Run
import GameScript.Config.Compile
import GameScript.Config.Document
import GameScript.Config.Error
import GameScript.Config.Lexeme
import GameScript.Config.Literal
import GameScript.Config.Parser
import GameScript.Config.Reader
import GameScript.Config.Terminal
import GameScript.Decimal.Binary
import GameScript.Decimal.Notation
import GameScript.Decimal.Shortest
import GameScript.Diagnostic
import GameScript.Fields
import GameScript.Json.Basic
import GameScript.Json.Reader
import GameScript.Json.Writer
import GameScript.Limits
import GameScript.Machine.Basic
import GameScript.Machine.Evaluator
import GameScript.Machine.Fault
import GameScript.Machine.Operator
import GameScript.Main
import GameScript.Session.Basic
import GameScript.Session.Repl
import GameScript.Store
import GameScript.Text.Blank
import GameScript.Text.Digit
import GameScript.Text.Printable
import GameScript.Text.Quoted
import GameScript.Text.Units
import GameScript.Token.Basic
import GameScript.Token.Kind
import GameScript.Token.Name
import GameScript.Token.Scanner
import GameScript.Trace
import GameScript.Tree.Basic
import GameScript.Tree.Cursor
import GameScript.Tree.Defect
import GameScript.Tree.Encoding
import GameScript.Tree.Parser
import GameScript.Tree.Printer
import GameScript.Value.Basic
import GameScript.Value.Text
import GameScript.Proofs.CommandLine.Files
import GameScript.Proofs.CommandLine.Routes
import GameScript.Proofs.Config.Behaviour
import GameScript.Proofs.Config.Blueprint
import GameScript.Proofs.Config.Fields
import GameScript.Proofs.Config.Game
import GameScript.Proofs.Config.Lexeme
import GameScript.Proofs.Config.Literal
import GameScript.Proofs.Config.Reader
import GameScript.Proofs.Config.Values
import GameScript.Proofs.Confinement.Evaluator
import GameScript.Proofs.Confinement.Store
import GameScript.Proofs.Encoding
import GameScript.Proofs.Grammar.Basic
import GameScript.Proofs.Grammar.Completeness
import GameScript.Proofs.Grammar.Depth
import GameScript.Proofs.Grammar.Exactness
import GameScript.Proofs.Grammar.Progress
import GameScript.Proofs.Grammar.Soundness
import GameScript.Proofs.Grammar.Splitting
import GameScript.Proofs.Json.Equality
import GameScript.Proofs.Json.Reader
import GameScript.Proofs.Json.Scalars
import GameScript.Proofs.Json.Writer
import GameScript.Proofs.Matching.Evaluator
import GameScript.Proofs.Matching.Lines
import GameScript.Proofs.Matching.Parser
import GameScript.Proofs.Matching.Tree
import GameScript.Proofs.Regrouping.Store
import GameScript.Proofs.Regrouping.Tree
import GameScript.Proofs.Safety.Evaluator
import GameScript.Proofs.Safety.Session
import GameScript.Proofs.Safety.Tree
import GameScript.Proofs.Scanner
import GameScript.Proofs.Scanner.Coverage
import GameScript.Proofs.Session.Basic
import GameScript.Proofs.Session.Batch
import GameScript.Proofs.Session.Matching
import GameScript.Proofs.Session.Spelling
import GameScript.Proofs.Steps
import GameScript.Proofs.Regrouping.Evaluator
import GameScript.Proofs.Regrouping.Session
import GameScript.Proofs.Session.Tracing
import GameScript.Proofs.Scanner.Ending
import GameScript.Proofs.Session.Prompt
import GameScript.Proofs.Session.Record
import GameScript.Proofs.Config.Positions
import GameScript.Proofs.Config.Failures
import GameScript.Proofs.CommandLine.Writing
import GameScript.Proofs.Grammar.Calls
import GameScript.Proofs.Grammar.Surroundings
import GameScript.Proofs.Grammar.Recovery
import GameScript.Proofs.Places.Reading
import GameScript.Proofs.Places.Spot
import GameScript.Proofs.Places.Writing
import GameScript.Proofs.Renaming.Evaluator
import GameScript.Proofs.Renaming.ForLoop
import GameScript.Proofs.Renaming.Store
import GameScript.Proofs.CommandLine.Games
import GameScript.Proofs.Config.Detection
import GameScript.Proofs.Values.Equality
import GameScript.Proofs.Grammar.Positions
import GameScript.Proofs.Grammar.Blocks
import GameScript.Proofs.Blame.Calls
import GameScript.Proofs.Blame.Natives
import GameScript.Proofs.Blame.Session
import GameScript.Proofs.Encoding.Normalization
import GameScript.Proofs.Scopes.Lookup
import GameScript.Proofs.Decimal.Interval
import GameScript.Proofs.Decimal.Magnitude
import GameScript.Proofs.Printing.SExpr
import GameScript.Proofs.Printing.Program
import GameScript.Proofs.Scanner.Rendering
import GameScript.Proofs.Config.Denotation
import GameScript.Proofs.Config.Arrangement
import GameScript.Proofs.Config.Spelling
import GameScript.Proofs.Config.Grammar
import GameScript.Proofs.Config.Rearrangement
import GameScript.Proofs.Config.Interleaving
import GameScript.Proofs.Config.Standing
import GameScript.Proofs.Config.Triggers
