import FlagFold.Command.Options
import FlagFold.Command.Run
import FlagFold.Command.Sources
import FlagFold.Concrete.Basic
import FlagFold.Concrete.Faults
import FlagFold.Concrete.Outline
import FlagFold.Decimal.Binary64
import FlagFold.Feature.Merge
import FlagFold.Feature.Presets
import FlagFold.Feature.Store
import FlagFold.Fold.Binding
import FlagFold.Fold.Module
import FlagFold.Fold.Parsing
import FlagFold.Fold.Pragma
import FlagFold.Fold.Query
import FlagFold.Fold.Transform
import FlagFold.Grammar.Cursor
import FlagFold.Grammar.Expression
import FlagFold.Grammar.Function
import FlagFold.Grammar.LeftOut
import FlagFold.Grammar.Markup
import FlagFold.Grammar.ModuleItem
import FlagFold.Grammar.Operator
import FlagFold.Grammar.Parser
import FlagFold.Grammar.Pattern
import FlagFold.Grammar.Rule
import FlagFold.Grammar.Statement
import FlagFold.Grammar.Token
import FlagFold.Grammar.TypeExpression
import FlagFold.Json.Basic
import FlagFold.Json.Printer
import FlagFold.Json.Reader
import FlagFold.Language
import FlagFold.Main
import FlagFold.Print.Edit
import FlagFold.Print.Program
import FlagFold.Print.Render
import FlagFold.Proofs.Command.Batch
import FlagFold.Proofs.Command.Failed
import FlagFold.Proofs.Command.Gathered
import FlagFold.Proofs.Command.Outputs
import FlagFold.Proofs.Command.Reading
import FlagFold.Proofs.Command.Reasons
import FlagFold.Proofs.Concrete.Faults
import FlagFold.Proofs.Concrete.Nodes
import FlagFold.Proofs.Concrete.Places
import FlagFold.Proofs.Feature.History
import FlagFold.Proofs.Feature.Lookup
import FlagFold.Proofs.Feature.Merge
import FlagFold.Proofs.Feature.Resolution
import FlagFold.Proofs.Feature.Store
import FlagFold.Proofs.Fold.Again
import FlagFold.Proofs.Fold.Bare
import FlagFold.Proofs.Fold.Comments
import FlagFold.Proofs.Fold.Crlf
import FlagFold.Proofs.Fold.Cutting
import FlagFold.Proofs.Fold.Delivered
import FlagFold.Proofs.Fold.Dynamic
import FlagFold.Proofs.Fold.Elision
import FlagFold.Proofs.Fold.FirstMatch
import FlagFold.Proofs.Fold.ListRule
import FlagFold.Proofs.Fold.Loader
import FlagFold.Proofs.Fold.Mapped
import FlagFold.Proofs.Fold.Names
import FlagFold.Proofs.Fold.Outcome
import FlagFold.Proofs.Fold.PragmaFree
import FlagFold.Proofs.Fold.QueryRule
import FlagFold.Proofs.Fold.QueryText
import FlagFold.Proofs.Fold.Records
import FlagFold.Proofs.Fold.Removal
import FlagFold.Proofs.Fold.Reported
import FlagFold.Proofs.Fold.Run
import FlagFold.Proofs.Fold.Scope
import FlagFold.Proofs.Fold.Settled
import FlagFold.Proofs.Fold.Statements
import FlagFold.Proofs.Fold.Triggers
import FlagFold.Proofs.Fold.Typed
import FlagFold.Proofs.Fold.Unrelated
import FlagFold.Proofs.Fold.Words
import FlagFold.Proofs.Print.Anchors
import FlagFold.Proofs.Print.Comments
import FlagFold.Proofs.Print.Copies
import FlagFold.Proofs.Print.Crlf
import FlagFold.Proofs.Print.Cuts
import FlagFold.Proofs.Print.Edits
import FlagFold.Proofs.Print.Ending
import FlagFold.Proofs.Print.Literal
import FlagFold.Proofs.Print.MapExact
import FlagFold.Proofs.Print.Order
import FlagFold.Proofs.Print.Placed
import FlagFold.Proofs.Print.Program
import FlagFold.Proofs.Print.Remarks
import FlagFold.Proofs.Print.Removal
import FlagFold.Proofs.Print.Replacement
import FlagFold.Proofs.Print.Seams
import FlagFold.Proofs.Print.Sites
import FlagFold.Proofs.Print.Splice
import FlagFold.Proofs.SourceMap.Compose
import FlagFold.Proofs.SourceMap.Malformed
import FlagFold.Proofs.SourceMap.Mappings
import FlagFold.Proofs.SourceMap.Vlq
import FlagFold.Proofs.Text.Blanks
import FlagFold.Proofs.Text.Lines
import FlagFold.Proofs.Text.Offsets
import FlagFold.Proofs.Text.Pieces
import FlagFold.Proofs.Tree.Calls
import FlagFold.Proofs.Tree.Callbacks
import FlagFold.Proofs.Tree.Equality
import FlagFold.Proofs.Tree.Layout
import FlagFold.Proofs.Tree.Nodes
import FlagFold.Proofs.Tree.Occurrences
import FlagFold.Proofs.Tree.OfConcrete
import FlagFold.Proofs.Tree.Sources
import FlagFold.Proofs.Tree.Spans
import FlagFold.Proofs.Tree.StringValue
import FlagFold.Proofs.Tree.TemplateValue
import FlagFold.Proofs.Tree.Traversal
import FlagFold.Proofs.Tree.Walker
import FlagFold.Proofs.World.Files
import FlagFold.Proofs.World.Filled
import FlagFold.Proofs.World.Job
import FlagFold.Proofs.World.Paths
import FlagFold.Proofs.World.Steps
import FlagFold.Report
import FlagFold.SourceMap.Basic
import FlagFold.SourceMap.Compose
import FlagFold.SourceMap.Fault
import FlagFold.SourceMap.Mappings
import FlagFold.SourceMap.Vlq
import FlagFold.Table
import FlagFold.Text.Basic
import FlagFold.Text.Lines
import FlagFold.Text.Printable
import FlagFold.Text.Quoted
import FlagFold.Text.Utf8
import FlagFold.Tree.Basic
import FlagFold.Tree.OfConcrete
import FlagFold.Tree.Path
import FlagFold.Tree.StringLiteral
import FlagFold.Tree.Walk
import FlagFold.Tree.Walker
import FlagFold.World.Failure
import FlagFold.World.Files
import FlagFold.World.Job
