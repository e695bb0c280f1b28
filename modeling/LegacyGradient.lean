import LegacyGradient.Batch
import LegacyGradient.Binary64.Arithmetic
import LegacyGradient.Binary64.Basic
import LegacyGradient.Binary64.Display
import LegacyGradient.Binary64.Rounding
import LegacyGradient.Color
import LegacyGradient.Command.Arguments
import LegacyGradient.Command.Report
import LegacyGradient.Command.Response
import LegacyGradient.Command.Run
import LegacyGradient.ConversionError
import LegacyGradient.Convert
import LegacyGradient.Corners
import LegacyGradient.Corners.Json
import LegacyGradient.Decimal.Basic
import LegacyGradient.Decimal.Shortest
import LegacyGradient.Direction.Basic
import LegacyGradient.Direction.Json
import LegacyGradient.Direction.Lexeme
import LegacyGradient.Gradient
import LegacyGradient.Gradient.Json
import LegacyGradient.Json.Compact
import LegacyGradient.Json.Ignored
import LegacyGradient.Json.Number
import LegacyGradient.Json.Numeral
import LegacyGradient.Json.Problem
import LegacyGradient.Json.Reader
import LegacyGradient.Json.Record
import LegacyGradient.Json.String
import LegacyGradient.Json.Value
import LegacyGradient.Legacy
import LegacyGradient.Length
import LegacyGradient.Lexeme
import LegacyGradient.Main
import LegacyGradient.Number
import LegacyGradient.Options.Basic
import LegacyGradient.Options.Json
import LegacyGradient.Placement
import LegacyGradient.Proofs.Batch.Collected
import LegacyGradient.Proofs.Batch.Joined
import LegacyGradient.Proofs.Batch.KeepSource
import LegacyGradient.Proofs.Batch.Segments
import LegacyGradient.Proofs.Binary64.Arithmetic
import LegacyGradient.Proofs.Binary64.Bounds
import LegacyGradient.Proofs.Binary64.Display
import LegacyGradient.Proofs.Binary64.Order
import LegacyGradient.Proofs.Binary64.Rounding
import LegacyGradient.Proofs.Convert.Fault
import LegacyGradient.Proofs.Convert.Form
import LegacyGradient.Proofs.Gradient.Enclosed
import LegacyGradient.Proofs.Gradient.Outline
import LegacyGradient.Proofs.Gradient.Reading
import LegacyGradient.Proofs.Gradient.Stops
import LegacyGradient.Proofs.Gradient.Written
import LegacyGradient.Proofs.Legacy.Form
import LegacyGradient.Proofs.Lexeme.Barrier
import LegacyGradient.Proofs.Lexeme.Matches
import LegacyGradient.Proofs.Lexeme.Separated
import LegacyGradient.Proofs.Placement.Anchors
import LegacyGradient.Proofs.Placement.Finite
import LegacyGradient.Proofs.Placement.Order
import LegacyGradient.Proofs.Placement.Overflow
import LegacyGradient.Proofs.Placement.Own
import LegacyGradient.Proofs.Placement.Pass
import LegacyGradient.Proofs.Placement.Reference
import LegacyGradient.Proofs.Text.Classes
import LegacyGradient.Proofs.Text.Cut
import LegacyGradient.Proofs.Text.Outside
import LegacyGradient.Proofs.Text.Trim
import LegacyGradient.Proofs.Token.Color
import LegacyGradient.Proofs.Token.Direction
import LegacyGradient.Proofs.Token.Length
import LegacyGradient.Proofs.Token.Number
import LegacyGradient.Proofs.Token.Percentage
import LegacyGradient.Stop
import LegacyGradient.Stop.Json
import LegacyGradient.Text.Basic
import LegacyGradient.Text.Blank
import LegacyGradient.Text.Cut
import LegacyGradient.Text.Digits
import LegacyGradient.Text.Line
import LegacyGradient.Text.Printable
import LegacyGradient.Text.Quoted
import LegacyGradient.Proofs.Batch.Policies
import LegacyGradient.Proofs.Batch.Composed
import LegacyGradient.Proofs.Binary64.Nearest
import LegacyGradient.Proofs.Convert.Spelling
import LegacyGradient.Proofs.Decimal.Digits
import LegacyGradient.Proofs.Decimal.Shortest
import LegacyGradient.Proofs.Gradient.Json
import LegacyGradient.Proofs.Placement.Stepwise
import LegacyGradient.Proofs.Decimal.Positional
import LegacyGradient.Proofs.Legacy.Distinct
import LegacyGradient.Proofs.Text.Line
import LegacyGradient.Proofs.Batch.Characters
import LegacyGradient.Proofs.Command.Input
import LegacyGradient.Proofs.Command.Report
import LegacyGradient.Proofs.Command.Transcript
import LegacyGradient.Proofs.Command.Sources
import LegacyGradient.Proofs.Placement.Explicit
import LegacyGradient.Proofs.Text.Slices
import LegacyGradient.Proofs.Stop.Pieces
import LegacyGradient.Proofs.Traversal
import LegacyGradient.Proofs.Binary64.Remainder
import LegacyGradient.Proofs.Corners.Angle
import LegacyGradient.Proofs.Corners.Turn
import LegacyGradient.Proofs.Corners.Range
import LegacyGradient.Proofs.Binary64.Closest
import LegacyGradient.Proofs.Token.Numeral
import LegacyGradient.Proofs.Color.Arguments
import LegacyGradient.Proofs.Binary64.Monotone
import LegacyGradient.Proofs.Placement.Checked
import LegacyGradient.Proofs.Options.Written
