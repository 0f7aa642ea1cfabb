import NaturalTemplate.Config.Reader
import NaturalTemplate.Engine
import NaturalTemplate.Processor.Script
import NaturalTemplate.Source.Reader
import NaturalTemplate.Standard.Dialect
import NaturalTemplate.Proofs.Markup.Spelling
import NaturalTemplate.Proofs.Markup.RoundTrip
import NaturalTemplate.Proofs.Context.Frame
import NaturalTemplate.Proofs.Processing.Keeps
import NaturalTemplate.Proofs.Processing.Scopes
import NaturalTemplate.Proofs.Expression.Scanning
import NaturalTemplate.Proofs.Expression.Printing
import NaturalTemplate.Proofs.Expression.Reading
import NaturalTemplate.Proofs.Expression.Evaluation
import NaturalTemplate.Proofs.Expression.Derivation
import NaturalTemplate.Proofs.Source.Lookahead
import NaturalTemplate.Proofs.Source.Utf8
import NaturalTemplate.Proofs.Source.Delivery
import NaturalTemplate.Proofs.Source.Cursor
import NaturalTemplate.Proofs.Markup.Tags
import NaturalTemplate.Proofs.Markup.Units
import NaturalTemplate.Proofs.Markup.Blocks
import NaturalTemplate.Proofs.Markup.Trees
import NaturalTemplate.Proofs.Markup.Plain
import NaturalTemplate.Proofs.Markup.Building
import NaturalTemplate.Proofs.Markup.Strict
import NaturalTemplate.Proofs.Markup.Relaxing
import NaturalTemplate.Proofs.Markup.Reparse
import NaturalTemplate.Proofs.Markup.Pieces
import NaturalTemplate.Proofs.Markup.Arrangement
import NaturalTemplate.Proofs.Markup.Tolerant
import NaturalTemplate.Proofs.Markup.Elements
import NaturalTemplate.Proofs.Markup.Removal
import NaturalTemplate.Proofs.Markup.Setting
import NaturalTemplate.Proofs.Markup.WellFormed
import NaturalTemplate.Proofs.Text.Escape
import NaturalTemplate.Proofs.Standard.Registry
import NaturalTemplate.Proofs.Standard.Tame
import NaturalTemplate.Proofs.Standard.Safe
import NaturalTemplate.Proofs.Processing.Visits
import NaturalTemplate.Proofs.Processing.Output
import NaturalTemplate.Proofs.Context.Agreement
import NaturalTemplate.Proofs.Engine
import NaturalTemplate.Proofs.Processing.Halting
import NaturalTemplate.Proofs.Standard.Body
import NaturalTemplate.Proofs.Processing.InStep
import NaturalTemplate.Proofs.Standard.Answers
import NaturalTemplate.Proofs.Standard.Likeness
import NaturalTemplate.Proofs.Standard.Reserved
import NaturalTemplate.Proofs.Processing.Unmatched
import NaturalTemplate.Proofs.Standard.Placement
import NaturalTemplate.Proofs.Standard.Stable
import NaturalTemplate.Proofs.Standard.Termination
import NaturalTemplate.Proofs.Standard.Consumed
import NaturalTemplate.Proofs.Standard.Blame
import NaturalTemplate.Proofs.Context.Tables
import NaturalTemplate.Proofs.Context.History
import NaturalTemplate.Proofs.Location
import NaturalTemplate.Proofs.Markup.Modes
import NaturalTemplate.Proofs.Markup.Balance
import NaturalTemplate.Proofs.Markup.Stages
import NaturalTemplate.Proofs.Markup.Spacing
import NaturalTemplate.Proofs.Markup.Places
import NaturalTemplate.Proofs.Markup.Preorder
import NaturalTemplate.Proofs.Markup.Verdicts
import NaturalTemplate.Proofs.Markup.Stream
import NaturalTemplate.Proofs.Markup.Breaks
import NaturalTemplate.Proofs.Markup.Grammar
import NaturalTemplate.Proofs.Markup.Batch
import NaturalTemplate.Proofs.Processing.Made
import NaturalTemplate.Proofs.Processing.Calls
import NaturalTemplate.Proofs.Processing.Places
import NaturalTemplate.Proofs.Context.Held
import NaturalTemplate.Proofs.Standard.Switches
import NaturalTemplate.Proofs.Standard.Cases
import NaturalTemplate.Proofs.Expression.Values
import NaturalTemplate.Proofs.Context.Padding
import NaturalTemplate.Proofs.Standard.Declared
import NaturalTemplate.Proofs.Standard.Repetition
import NaturalTemplate.Proofs.Standard.Wrappers
import NaturalTemplate.Proofs.Standard.Unwrapping
import NaturalTemplate.Proofs.Text.References
import NaturalTemplate.Proofs.Standard.Joining
import NaturalTemplate.Proofs.Markup.Reached
import NaturalTemplate.Proofs.Markup.Failing
import NaturalTemplate.Proofs.Markup.Delimited
import NaturalTemplate.Proofs.Markup.Closing
import NaturalTemplate.Proofs.Markup.RawText
import NaturalTemplate.Proofs.Expression.Inline
import NaturalTemplate.Proofs.Expression.Substitution
import NaturalTemplate.Proofs.Expression.Bars
import NaturalTemplate.Proofs.Processor.Registry
import NaturalTemplate.Proofs.Expression.Hidden
import NaturalTemplate.Proofs.Decimal.Nearest
import NaturalTemplate.Proofs.Decimal.Binary64
import NaturalTemplate.Proofs.Expression.Comparison
import NaturalTemplate.Proofs.Expression.Separators
import NaturalTemplate.Proofs.Standard.Assigned
import NaturalTemplate.Proofs.Context.Within
import NaturalTemplate.Proofs.Processing.GoingOn
import NaturalTemplate.Proofs.Standard.Bindings
import NaturalTemplate.Proofs.Processing.Triggers
import NaturalTemplate.Proofs.Markup.Walk
import NaturalTemplate.Proofs.Markup.Built
import NaturalTemplate.Proofs.Markup.Endings
import NaturalTemplate.Proofs.Processing.Leaves
import NaturalTemplate.Proofs.Standard.Endings
