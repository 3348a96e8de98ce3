import Railroad.Text.Utf8
import Railroad.Text.CodeRange
import Railroad.Text.Blank
import Railroad.Text.ZeroWidth
import Railroad.Text.Unprintable
import Railroad.Text.CharWidth
import Railroad.Text.Emoji
import Railroad.Text.Ligature
import Railroad.Text.Width
import Railroad.Text.Quoted
import Railroad.Span
import Railroad.Ascending
import Railroad.LineIndex
import Railroad.Notation.Printer
import Railroad.Notation.Equality
import Railroad.Notation.Event
import Railroad.Notation.Rule
import Railroad.Notation.Lexeme
import Railroad.Notation.Parser
import Railroad.Diagram.Basic
import Railroad.Diagram.Choice
import Railroad.Diagram.Drawing
import Railroad.Diagram.Expression
import Railroad.Duration
import Railroad.Grammar.Basic
import Railroad.Grammar.Reading
import Railroad.Render
import Railroad.SourceText
import Railroad.Ron.ReadError
import Railroad.Ron.Reader
import Railroad.Ron.AnyValue
import Railroad.Ron.Record
import Railroad.Ron.Reading
import Railroad.Diagram.Ron
import Railroad.Grammar.Ron
import Railroad.Render.Ron
import Railroad.Span.Ron
import Railroad.Proofs.Ascending
import Railroad.Proofs.Notation.Acceptance
import Railroad.Proofs.Notation.RoundTrip
import Railroad.Proofs.Diagram.Order
import Railroad.Proofs.Diagram.Meaning
import Railroad.Proofs.Diagram.NormalForm
import Railroad.Proofs.Diagram.Alternatives
import Railroad.Proofs.Notation.Congruence
import Railroad.Proofs.Notation.Nesting
import Railroad.Proofs.Notation.Placement
import Railroad.Proofs.Notation.Continuation
import Railroad.Proofs.Notation.ErrorReport
import Railroad.Proofs.Diagram.Expression
import Railroad.Proofs.Diagram.Drawable
import Railroad.Proofs.Notation.Concatenation
import Railroad.Proofs.Notation.Seams
import Railroad.Proofs.Notation.CheckedReader
import Railroad.Proofs.Notation.Tracking
import Railroad.Proofs.Notation.CheckedReading
import Railroad.Proofs.Notation.TakenText
import Railroad.Proofs.Diagram.CanonicalReading
import Railroad.Proofs.Grammar.Restored
import Railroad.Proofs.Grammar.ErrorReport
import Railroad.Proofs.Diagram.Parentheses
import Railroad.Proofs.Diagram.EmptyParts
import Railroad.Proofs.Notation.SingleProduction
import Railroad.Proofs.SourceText.Lines
import Railroad.Proofs.SourceText.Underline
import Railroad.Proofs.LineIndex.Lookup
import Railroad.Proofs.Diagram.Height
import Railroad.Proofs.Grammar.Index
import Railroad.Proofs.Diagram.Precedence
import Railroad.Proofs.Notation.FurthestFailure
import Railroad.Proofs.SourceText.Offsets
