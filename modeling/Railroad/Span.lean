set_option autoImplicit false

/-!
# Spans

A span says which bytes of a text something was read from. Spans made with `Span.ofBounds` never end
before they start; spans are ordered by their start and then by their end.
-/

namespace Railroad

/-- The bytes of a text from offset `start` up to, and not including, offset `stop`. -/
structure Span where
  start : Nat
  stop : Nat
  deriving DecidableEq, Repr, Inhabited

/-- Bounds that cannot be those of a span, because the end lies before the start. -/
structure BackwardBounds where
  start : Nat
  stop : Nat

namespace BackwardBounds

/-- The complaint about such bounds. -/
def message (bounds : BackwardBounds) : String :=
  "Span starts (" ++ toString bounds.start ++ ") after it ends (" ++ toString bounds.stop ++ ")!"

end BackwardBounds

namespace Span

/-- The span with the given bounds, which have to be in order. -/
def ofBounds (start stop : Nat) : Except BackwardBounds Span :=
  if stop < start then .error ⟨start, stop⟩ else .ok ⟨start, stop⟩

/-- The empty span at an offset. -/
def point (offset : Nat) : Span := ⟨offset, offset⟩

/-- Number of bytes in the span. -/
def length (span : Span) : Nat := span.stop - span.start

/-- Whether the span holds no byte. -/
def isEmpty (span : Span) : Bool := span.length == 0

/-- Spans compare by start, then by end. -/
def compare (a b : Span) : Ordering :=
  (Ord.compare a.start b.start).then (Ord.compare a.stop b.stop)

instance : Ord Span := ⟨Span.compare⟩

end Span

end Railroad
