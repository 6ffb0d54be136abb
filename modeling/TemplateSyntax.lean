import TemplateSyntax.Span
import TemplateSyntax.Text.Bytes
import TemplateSyntax.Text.Blank
import TemplateSyntax.Text.Alphabetic
import TemplateSyntax.Text.Control
import TemplateSyntax.Decimal.Shortest
import TemplateSyntax.Json.Value
import TemplateSyntax.Markup.Scan
import TemplateSyntax.Report.Position
import TemplateSyntax.Report.LogLevel
import TemplateSyntax.Directive.Kind
import TemplateSyntax.Expr.Tree
import TemplateSyntax.Expr.Error
import TemplateSyntax.Expr.Numeral
import TemplateSyntax.Expr.Reading
import TemplateSyntax.Expr.Cursor
import TemplateSyntax.Expr.Reader
import TemplateSyntax.Expr.Reader.Lemmas
import TemplateSyntax.Expr.Parse
import TemplateSyntax.Expr.Json
import TemplateSyntax.Markup.Json
import TemplateSyntax.Tree.Error
import TemplateSyntax.Tree.Node
import TemplateSyntax.Tree.Shape
import TemplateSyntax.Tree.Part
import TemplateSyntax.Tree.Program
import TemplateSyntax.Tree.Builder
import TemplateSyntax.Tree.Json
import TemplateSyntax.Template
import TemplateSyntax.Report.Diagnostic
import TemplateSyntax.Command.Arguments
import TemplateSyntax.Command.Usage
import TemplateSyntax.Command.Log
import TemplateSyntax.Command.FileTree
import TemplateSyntax.Command.Run
import TemplateSyntax.Main
import TemplateSyntax.Proofs.Tree.Open
import TemplateSyntax.Proofs.Tree.Push
import TemplateSyntax.Proofs.Tree.Invariant
import TemplateSyntax.Proofs.Tree.Preorder
import TemplateSyntax.Proofs.Tree.Grammar
import TemplateSyntax.Proofs.Tree.Acceptance
import TemplateSyntax.Proofs.Expr.Layers
import TemplateSyntax.Proofs.Expr.Grouping
import TemplateSyntax.Proofs.Expr.Grammar
import TemplateSyntax.Proofs.Expr.Acceptance
import TemplateSyntax.Proofs.Expr.Climbing
import TemplateSyntax.Proofs.Expr.Spelling
import TemplateSyntax.Proofs.Expr.WellFormed
import TemplateSyntax.Proofs.Expr.Printing
import TemplateSyntax.Proofs.Markup.Tiling
import TemplateSyntax.Proofs.Markup.Bytewise.Region
import TemplateSyntax.Proofs.Markup.Bytewise.Template
import TemplateSyntax.Proofs.Expr.Spans
import TemplateSyntax.Proofs.Tree.Spans
import TemplateSyntax.Proofs.Markup.Seams
import TemplateSyntax.Proofs.Markup.Resuming
import TemplateSyntax.Proofs.Expr.Balance
import TemplateSyntax.Proofs.Markup.Failures
import TemplateSyntax.Proofs.Tree.Fatal
import TemplateSyntax.Proofs.Tree.Unclosed
import TemplateSyntax.Proofs.Expr.Relocation
import TemplateSyntax.Proofs.Expr.Shift
import TemplateSyntax.Proofs.Tree.Behind
import TemplateSyntax.Proofs.Concatenation
import TemplateSyntax.Proofs.Tree.Recovery
import TemplateSyntax.Proofs.Tree.Keeping
import TemplateSyntax.Proofs.Tree.Forms
import TemplateSyntax.Proofs.Tree.Shapes
import TemplateSyntax.Proofs.Text.Boundary
import TemplateSyntax.Proofs.Expr.Faults
import TemplateSyntax.Proofs.Tree.Reports
import TemplateSyntax.Proofs.Diagnostics
import TemplateSyntax.Proofs.Tree.Labels
import TemplateSyntax.Proofs.Command.Agreement
import TemplateSyntax.Proofs.Json.Outline
import TemplateSyntax.Proofs.Json.Expression
import TemplateSyntax.Proofs.Json.Tree
import TemplateSyntax.Proofs.Expr.Relexing
import TemplateSyntax.Proofs.Expr.Steps
import TemplateSyntax.Proofs.Expr.Alike
import TemplateSyntax.Proofs.Expr.Rewording
import TemplateSyntax.Proofs.Expr.Lossless
import TemplateSyntax.Proofs.Expr.Respacing
import TemplateSyntax.Proofs.Expr.Leaves
import TemplateSyntax.Proofs.Expr.Separators
import TemplateSyntax.Proofs.Markup.Separation
import TemplateSyntax.Proofs.Markup.Forms
import TemplateSyntax.Proofs.StringLiterals
import TemplateSyntax.Proofs.Tree.Swapping
import TemplateSyntax.Proofs.Tree.SelfClosing
import TemplateSyntax.Proofs.Settling
import TemplateSyntax.Proofs.Position
import TemplateSyntax.Proofs.Expr.Progress
import TemplateSyntax.Proofs.Expr.Limited
import TemplateSyntax.Proofs.Expr.Numbers
