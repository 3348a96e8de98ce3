import Railroad.Render
import Railroad.Ron.Reading
import Railroad.Ron.Record
import Railroad.Ron.Writer
set_option autoImplicit false

/-!
# Durations and rendering options in RON

A duration is stored as a record of its seconds and nanoseconds, and the options for a renderer as a
record of the time limit and the kind of document. Nanoseconds that make up full seconds are carried
over when a duration is read.
-/

namespace Railroad

open Ron

namespace Duration

/-- The stored form of a duration. -/
def ronChars (duration : Duration) : List Char :=
  Form.record [("secs", Form.number duration.seconds), ("nanos", Form.number duration.nanos)]

/-- The record of the parts of a duration. -/
def layout : Reader.PairRecord Nat Nat Duration where
  type := "Duration"
  first := ("secs", Reader.number64)
  second := ("nanos", Reader.number32)
  closed := true
  make seconds nanos :=
    match ofParts? seconds nanos with
    | some duration => .ok duration
    | none => .error .durationOverflow

end Duration

namespace RenderOptions

/-- The stored form of options. -/
def ronChars (options : RenderOptions) : List Char :=
  Form.record [("timeout", options.timeout.ronChars),
    ("standalone", Form.boolean options.standalone)]

/-- The stored form of options. -/
def toRon (options : RenderOptions) : String := String.ofList (ronChars options)

/-- The record of the options. -/
def layout : Reader.PairRecord Duration Bool RenderOptions where
  type := "RenderOptions"
  first := ("timeout", Reader.record Duration.layout)
  second := ("standalone", Reader.boolean)
  closed := false
  make timeout standalone := .ok ⟨timeout, standalone⟩

/-- The options that a text is the stored form of. -/
def ofRon (text : String) : Except ReadFailure RenderOptions :=
  Reader.run (Reader.record layout) text

end RenderOptions

end Railroad
