import Railroad.Ron.Reading
import Railroad.Ron.Record
import Railroad.Ron.Writer
import Railroad.Span
set_option autoImplicit false

/-!
# Spans in RON

A span is stored as a record of its bounds. Reading takes any two bounds, also ones that are not in
order.
-/

namespace Railroad.Span

open Ron

/-- The stored form of a span. -/
def ronChars (span : Span) : List Char :=
  Form.record [("start", Form.number span.start), ("end", Form.number span.stop)]

/-- The stored form of a span. -/
def toRon (span : Span) : String := String.ofList (ronChars span)

/-- The record of the bounds of a span, which are counted in 64 bits. -/
def layout : Reader.PairRecord Nat Nat Span where
  type := "Span"
  first := ("start", Reader.number64)
  second := ("end", Reader.number64)
  closed := false
  make start stop := .ok ⟨start, stop⟩

/-- The span that a text is the stored form of. -/
def ofRon (text : String) : Except ReadFailure Span :=
  Reader.run (Reader.record layout) text

end Railroad.Span
