import Railroad.Span
import Railroad.Text.Utf8
set_option autoImplicit false

/-!
# Line index

A line index keeps the offset at which each line of a text begins and the length of the text, and no
character of the text itself. The text may arrive in pieces: `LineIndex.feed` extends the index by
one piece. Lines and columns count from 1. A line break is `'\n'`, and a `'\r'` in front of it
shares its column.

`feed_feed` says that it makes no difference where the text was cut into pieces.
-/

namespace Railroad

/-- Where the lines of a text begin, in ascending order, and how many bytes the text has. -/
structure LineIndex where
  starts : List Nat
  length : Nat
  deriving DecidableEq, Repr

namespace LineIndex

/-- Offsets just after each line break of a text that itself begins at offset `base`. -/
def startsFrom (base : Nat) : List Char → List Nat
  | [] => []
  | c :: cs =>
      if c = '\n' then (base + 1) :: startsFrom (base + 1) cs
      else startsFrom (base + c.utf8Size) cs

/-- The index of the empty text, which has one line. -/
def empty : LineIndex := ⟨[0], 0⟩

instance : Inhabited LineIndex := ⟨empty⟩

/-- The index after one more piece of the text. -/
def feed (index : LineIndex) (piece : List Char) : LineIndex :=
  ⟨index.starts ++ startsFrom index.length piece, index.length + Text.byteLength piece⟩

/-- The index of a whole text. -/
def ofText (text : List Char) : LineIndex := empty.feed text

/-- The number of the line that holds byte `b`: as many lines as begin at or before it. The end of
the text belongs to the last line; an offset beyond it has no line. -/
def lineNumber? (index : LineIndex) (b : Nat) : Option Nat :=
  if b ≤ index.length then some (index.starts.countP (· ≤ b)) else none

/-- The offset at which line `n` begins. -/
def lineStart? (index : LineIndex) (n : Nat) : Option Nat :=
  if n = 0 then none else index.starts[n - 1]?

/-- Whether a position lies between the two characters of a line break `'\r' '\n'`. -/
def splitsLineBreak (before after : List Char) : Bool :=
  before.getLast? == some '\r' && after.head? == some '\n'

/-- Line and column of byte `b` of `text`, which has to be the indexed text. There is no answer
beyond the text, inside a character, or when `text` does not have the indexed length. -/
def lineColumn? (index : LineIndex) (text : List Char) (b : Nat) : Option (Nat × Nat) := do
  guard (Text.byteLength text = index.length)
  let line ← index.lineNumber? b
  let start ← index.lineStart? line
  let before ← Text.slice? start b text
  let after ← Text.dropBytes? b text
  return (line, if splitsLineBreak before after then before.length else before.length + 1)

/-- The offset at which the line that holds byte `b` begins. -/
def startOfLine (index : LineIndex) (b : Nat) : Nat :=
  (index.starts.takeWhile (· ≤ b)).getLast?.getD 0

/-- The offset at which the line that holds byte `b` ends, its line break excluded. -/
def endOfLine (index : LineIndex) (b : Nat) : Nat :=
  match index.starts.find? (b < ·) with
  | some next => next - 1
  | none => index.length

/-- The first byte of the first line that a span touches and the end of the last one. The part of a
span beyond the text counts as its end. -/
def lineBounds (index : LineIndex) (span : Span) : Nat × Nat :=
  let first := min span.start index.length
  let last := if span.isEmpty then first else min (span.stop - 1) index.length
  (index.startOfLine first, index.endOfLine last)

/-- The line starts of a text are those of its first part, and those of the second part moved behind
it. -/
theorem startsFrom_append (base : Nat) (xs ys : List Char) :
    startsFrom base (xs ++ ys) =
      startsFrom base xs ++ startsFrom (base + Text.byteLength xs) ys := by
  induction xs generalizing base with
  | nil => simp [startsFrom]
  | cons c cs ih =>
      by_cases hc : c = '\n'
      · simp [startsFrom, hc, ih, Nat.add_assoc, Char.utf8Size]
      · simp [startsFrom, hc, ih, Nat.add_assoc]

/-- Two pieces fed one after the other index the same text as both at once. -/
theorem feed_feed (index : LineIndex) (xs ys : List Char) :
    (index.feed xs).feed ys = index.feed (xs ++ ys) := by
  simp [feed, startsFrom_append, Nat.add_assoc]

end LineIndex

end Railroad
