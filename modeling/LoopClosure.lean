import LoopClosure.Text.CharClass
import LoopClosure.Text.Cursor
import LoopClosure.Text.Split
import LoopClosure.Token.Name
import LoopClosure.Token.Lexer
import LoopClosure.Diagnostic
import LoopClosure.Comment
import LoopClosure.Options
import LoopClosure.Syntax.Pattern
import LoopClosure.Grammar.Program
import LoopClosure.Syntax.Nodes
import LoopClosure.Scope.Scopes
import LoopClosure.Binding.Bind
import LoopClosure.Json.Read
import LoopClosure.Json.Print
import LoopClosure.Json.Options
import LoopClosure.Sorting
import LoopClosure.Edit
import LoopClosure.Draft.Names
import LoopClosure.Draft.Basic
import LoopClosure.Draft.Variables
import LoopClosure.Distinct
import LoopClosure.Lowering.Wrap
import LoopClosure.Lowering.Hazard
import LoopClosure.Lowering.Relay
import LoopClosure.Lowering.Site
import LoopClosure.Lowering.Basic
import LoopClosure.Lowering.Body
import LoopClosure.Lowering.Calls
import LoopClosure.Lowering.Lower
import LoopClosure.Compile
import LoopClosure.Json.Comments
import LoopClosure.Json.Config
import LoopClosure.Report
import LoopClosure.Cli.Path
import LoopClosure.Cli.Args
import LoopClosure.Cli.Disk
import LoopClosure.Cli.Plan
import LoopClosure.Cli.Run
import LoopClosure.Cli.LogFormat
import LoopClosure.Main
import LoopClosure.Proofs.Text.Lines
import LoopClosure.Proofs.Text.Template
import LoopClosure.Proofs.Comment.Directive
import LoopClosure.Proofs.Json.Comments
import LoopClosure.Proofs.Token.Lossless
import LoopClosure.Proofs.Token.Sessions
import LoopClosure.Proofs.Grammar.TooDeep
import LoopClosure.Proofs.Grammar.Layout
import LoopClosure.Proofs.Grammar.Untraced
import LoopClosure.Proofs.Grammar.ArrowHeads
import LoopClosure.Proofs.Grammar.Operators
import LoopClosure.Proofs.Grammar.Suspension
import LoopClosure.Proofs.Grammar.Assignable
import LoopClosure.Proofs.Grammar.Pace.Progress
import LoopClosure.Proofs.Scope.Limits
import LoopClosure.Proofs.Binding.Scopes
import LoopClosure.Proofs.Binding.Duplicates
import LoopClosure.Proofs.Binding.Targets
import LoopClosure.Proofs.Binding.Writes
import LoopClosure.Proofs.Binding.Early
import LoopClosure.Proofs.Binding.Marks
import LoopClosure.Proofs.Binding.Partition
import LoopClosure.Proofs.Edit.Splice
import LoopClosure.Proofs.Draft.Shared
import LoopClosure.Proofs.Draft.Pool
import LoopClosure.Proofs.Draft.Heads
import LoopClosure.Proofs.Draft.Allocation
import LoopClosure.Proofs.Draft.Common
import LoopClosure.Proofs.Lowering.Room
import LoopClosure.Proofs.Lowering.Crossing
import LoopClosure.Proofs.Lowering.Jumps
import LoopClosure.Proofs.Lowering.Homes
import LoopClosure.Proofs.Lowering.Hygiene
import LoopClosure.Proofs.Lowering.Applied
import LoopClosure.Proofs.Lowering.Keywords
import LoopClosure.Proofs.Lowering.Renewal
import LoopClosure.Proofs.Lowering.Truthful
import LoopClosure.Proofs.Lowering.Lists
import LoopClosure.Proofs.Lowering.Forest
import LoopClosure.Proofs.Lowering.Derived
import LoopClosure.Proofs.Lowering.Confined
import LoopClosure.Proofs.Lowering.Brackets
import LoopClosure.Proofs.Lowering.Blockers
import LoopClosure.Proofs.Cli.Outputs
import LoopClosure.Proofs.Lowering.Outcome
import LoopClosure.Proofs.Report
