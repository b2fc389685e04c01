import JsonTemplate.Arguments
import JsonTemplate.CommandLine.Command
import JsonTemplate.CommandLine.Outcome
import JsonTemplate.Diagnostic
import JsonTemplate.Escape.Html
import JsonTemplate.Escape.Prose
import JsonTemplate.Escape.Uri
import JsonTemplate.Execution.Block
import JsonTemplate.Execution.Context
import JsonTemplate.Execution.Evaluation
import JsonTemplate.Execution.Formatting
import JsonTemplate.Execution.Frame
import JsonTemplate.Execution.Instruction
import JsonTemplate.Execution.Leaf
import JsonTemplate.Execution.Limiter
import JsonTemplate.Execution.Nesting
import JsonTemplate.Execution.Partial
import JsonTemplate.Execution.Run
import JsonTemplate.Execution.Step
import JsonTemplate.Expr.Lexer
import JsonTemplate.Expr.Postfix
import JsonTemplate.Expr.Program
import JsonTemplate.Expr.Reduce
import JsonTemplate.Expr.Token
import JsonTemplate.Expr.Value
import JsonTemplate.Json.Printer
import JsonTemplate.Json.Reader
import JsonTemplate.Json.Value
import JsonTemplate.Main
import JsonTemplate.Node
import JsonTemplate.Number.Double
import JsonTemplate.Number.Format
import JsonTemplate.Number.Quantity
import JsonTemplate.Number.Reader
import JsonTemplate.Number.Shortest
import JsonTemplate.Pattern.Cursor
import JsonTemplate.Pattern.Recognizer
import JsonTemplate.Pattern.Tokens
import JsonTemplate.Plugin.Catalog
import JsonTemplate.Plugin.Core
import JsonTemplate.Plugin.Formatters
import JsonTemplate.Plugin.Operand
import JsonTemplate.Plugin.Predicates
import JsonTemplate.Proofs.Arguments
import JsonTemplate.Proofs.Assembly.Canonical
import JsonTemplate.Proofs.Assembly.Grammar
import JsonTemplate.Proofs.Assembly.Linear
import JsonTemplate.Proofs.Assembly.Nesting
import JsonTemplate.Proofs.Pattern.Split
import JsonTemplate.Proofs.Pattern.Words
import JsonTemplate.Proofs.Plugin.Steady
import JsonTemplate.Proofs.Template.Canonical
import JsonTemplate.Proofs.Template.Cut
import JsonTemplate.Proofs.Template.Modes
import JsonTemplate.Proofs.Template.Operands
import JsonTemplate.Proofs.Template.ProblemOrder
import JsonTemplate.Proofs.Template.Respell
import JsonTemplate.Proofs.Template.RoundTrip
import JsonTemplate.Proofs.Template.TagPlace
import JsonTemplate.Proofs.Template.TagCases
import JsonTemplate.Proofs.Template.TagProblem
import JsonTemplate.Proofs.Text.CharClass
import JsonTemplate.Proofs.Text.Pieces
import JsonTemplate.Proofs.Text.Position
import JsonTemplate.Proofs.Variable.Name
import JsonTemplate.Template.Assembly
import JsonTemplate.Template.Compile
import JsonTemplate.Template.Event
import JsonTemplate.Template.Instruction
import JsonTemplate.Template.Piece
import JsonTemplate.Template.Report
import JsonTemplate.Template.Tag
import JsonTemplate.Template.Tree
import JsonTemplate.Template.Vocabulary
import JsonTemplate.Text.CharClass
import JsonTemplate.Text.Digit
import JsonTemplate.Text.Offset
import JsonTemplate.Text.Pieces
import JsonTemplate.Text.Printable
import JsonTemplate.Text.Quoted
import JsonTemplate.Text.View
import JsonTemplate.Variable.Name
import JsonTemplate.Proofs.Template.Coverage
import JsonTemplate.Proofs.Execution.Frame
import JsonTemplate.Proofs.Execution.Mirror
import JsonTemplate.Proofs.Execution.Neutral
import JsonTemplate.Proofs.Execution.Completion
import JsonTemplate.Proofs.Execution.NestingLimit
import JsonTemplate.Proofs.Execution.SafeMode
import JsonTemplate.Proofs.Execution.Termination
import JsonTemplate.Proofs.Execution.Lockstep
import JsonTemplate.Proofs.Execution.Privacy
import JsonTemplate.Proofs.Execution.CodeLimit
import JsonTemplate.Proofs.Execution.Rounds
import JsonTemplate.Proofs.Execution.Preprocess
import JsonTemplate.Proofs.Execution.Manner
import JsonTemplate.Proofs.Execution.Report
import JsonTemplate.Proofs.Execution.Company
import JsonTemplate.Proofs.Execution.PartialCache
import JsonTemplate.Proofs.Assembly.Onto
import JsonTemplate.Proofs.Template.Unplaced
import JsonTemplate.Proofs.Template.MacroSource
import JsonTemplate.Proofs.Execution.Exchange
import JsonTemplate.Proofs.Execution.MacroPartial
import JsonTemplate.Proofs.Expr.Expression
import JsonTemplate.Proofs.Expr.Postfix
import JsonTemplate.Proofs.Assembly.Formed
import JsonTemplate.Proofs.Expr.Evaluation
import JsonTemplate.Proofs.Expr.Operators
import JsonTemplate.Proofs.Template.ReportCounts
import JsonTemplate.Proofs.Template.Agreement
import JsonTemplate.Proofs.Template.Sites
import JsonTemplate.Proofs.Template.SiteNames
import JsonTemplate.Proofs.Execution.Watch
import JsonTemplate.Proofs.Execution.UsageScopes
import JsonTemplate.Proofs.Execution.Branch
import JsonTemplate.Proofs.Execution.Scratch
import JsonTemplate.Proofs.Execution.Locals
import JsonTemplate.Proofs.Template.FormatterFault
import JsonTemplate.Proofs.Template.VariableTag
import JsonTemplate.Proofs.Expr.Balance
import JsonTemplate.Proofs.Expr.Assignment
import JsonTemplate.Proofs.Template.Placement
import JsonTemplate.Proofs.Template.FormatterPlace
import JsonTemplate.Proofs.Plugin.Divisibility
import JsonTemplate.Proofs.Expr.NumberLiteral
import JsonTemplate.Proofs.Expr.Written
import JsonTemplate.Proofs.Escape.Percent
import JsonTemplate.Proofs.Escape.Entities
import JsonTemplate.Proofs.Number.NumberText
import JsonTemplate.Proofs.Json.Embedding
import JsonTemplate.Proofs.Pattern.Window
import JsonTemplate.Proofs.Pattern.Cursor
import JsonTemplate.Proofs.Pattern.Grammar
import JsonTemplate.Proofs.Pattern.Repetition
import JsonTemplate.Proofs.Variable.Reading
