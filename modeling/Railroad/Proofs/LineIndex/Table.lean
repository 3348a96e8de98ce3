import Railroad.Span
import Railroad.Text.Utf8
set_option autoImplicit false

/-!
# Line tables

A line index once more, now as it is kept and looked up step by step. A table does not know the
length of its text. It has the starts of the lines and counts the bytes behind the last of them, and
from these the length is put together whenever it is needed, also when the table is about to be
extended. The line of an offset is found by halving the starts again and again. Nothing is taken for
granted on the way: a position without an entry, a difference below zero and a text that is cut
within a character are faults (`Fault`), and a fault ends everything.
-/

namespace Railroad

/-- Where the lines of a text begin, in ascending order, and how many bytes the last line has. -/
structure LineTable where
  starts : List Nat
  trailing : Nat
  deriving DecidableEq, Repr

namespace LineTable

/-- What may go wrong with a table. -/
inductive Fault where
  /-- There is no entry at a position. -/
  | noEntry (position : Nat)
  /-- More is taken away from a number than there is. -/
  | belowZero (number less : Nat)
  /-- A text is cut at an offset that lies beyond it or within a character. -/
  | misplaced (offset : Nat)
  deriving DecidableEq, Repr

/-- The entry at a position. -/
def entryAt (entries : List Nat) (position : Nat) : Except Fault Nat :=
  match entries[position]? with
  | some entry => .ok entry
  | none => .error (.noEntry position)

/-- A number with some of it taken away. -/
def minus (number less : Nat) : Except Fault Nat :=
  if less ≤ number then .ok (number - less) else .error (.belowZero number less)

/-- The text from an offset on. -/
def restAt (text : List Char) (offset : Nat) : Except Fault (List Char) :=
  match Text.dropBytes? offset text with
  | some rest => .ok rest
  | none => .error (.misplaced offset)

/-! ## Feeding -/

/-- The table of the empty text. -/
def empty : LineTable := ⟨[0], 0⟩

/-- The length of the text: the last line begins at the last start and has the trailing bytes. -/
def length (table : LineTable) : Except Fault Nat := do
  let last ← minus table.starts.length 1
  let start ← entryAt table.starts last
  return start + table.trailing

/-- The table after one more character, at offset `offset` of a piece that begins where the text had
`base` bytes. -/
def addChar (base : Nat) (table : LineTable) (offset : Nat) (c : Char) : LineTable :=
  if c = '\n' then ⟨table.starts ++ [base + offset + 1], 0⟩
  else ⟨table.starts, table.trailing + c.utf8Size⟩

/-- The table after more characters, the first of them at offset `offset` of the piece. -/
def addChars (base : Nat) : LineTable → Nat → List Char → LineTable
  | table, _, [] => table
  | table, offset, c :: cs => addChars base (table.addChar base offset c) (offset + c.utf8Size) cs

/-- The table after one more piece of the text. -/
def feed (table : LineTable) (piece : List Char) : Except Fault LineTable := do
  let base ← table.length
  return table.addChars base 0 piece

/-- The table after several pieces of the text, one after the other. -/
def feedEach : LineTable → List (List Char) → Except Fault LineTable
  | table, [] => .ok table
  | table, piece :: pieces => do
      let fed ← table.feed piece
      fed.feedEach pieces

/-! ## Looking up -/

/-- The position of a number among ascending entries: it is there, or it would have to be inserted
there. -/
inductive Slot where
  | taken (position : Nat)
  | free (position : Nat)
  deriving DecidableEq, Repr

/-- The slot of a number among ascending entries, searched from position `low` up to, and not
including, position `high`. -/
def searchBetween (entries : List Nat) (number low high : Nat) : Except Fault Slot :=
  if low < high then do
    let middle := low + (high - low) / 2
    let entry ← entryAt entries middle
    match compare entry number with
    | .eq => return .taken middle
    | .lt => searchBetween entries number (middle + 1) high
    | .gt => searchBetween entries number low middle
  else return .free low
  termination_by high - low

/-- The slot of a number among ascending entries. -/
def search (entries : List Nat) (number : Nat) : Except Fault Slot :=
  searchBetween entries number 0 entries.length

/-- The number of the line that holds byte `b`. Positions of starts count from 0, and lines from
1. -/
def lineNumber? (table : LineTable) (b : Nat) : Except Fault (Option Nat) := do
  let length ← table.length
  if length < b then return none
  match ← search table.starts b with
  | .taken position => return some (position + 1)
  | .free position => return some position

/-- The offset at which line `n` begins. -/
def lineStart? (table : LineTable) (n : Nat) : Except Fault (Option Nat) := do
  if n = 0 ∨ table.starts.length < n then return none
  let position ← minus n 1
  let start ← entryAt table.starts position
  return some start

/-- The column of byte `b` of a text, in front of which its line has the characters `before`. What
follows the byte is looked at only behind a carriage return. -/
def columnOf (text : List Char) (b : Nat) (before : List Char) : Except Fault Nat := do
  let column := before.length + 1
  if before.getLast? = some '\r' then
    let after ← restAt text b
    if after.head? = some '\n' then minus column 1 else return column
  else return column

/-- Line and column of byte `b` of `text`. -/
def lineColumn? (table : LineTable) (text : List Char) (b : Nat) :
    Except Fault (Option (Nat × Nat)) := do
  let length ← table.length
  if length < b ∨ Text.byteLength text ≠ length then return none
  let some line ← table.lineNumber? b | return none
  let some start ← table.lineStart? line | return none
  let some before := Text.slice? start b text | return none
  let column ← columnOf text b before
  return some (line, column)

/-- The offset at which the line that holds byte `b` begins. A byte without a line is taken to be in
the last one. -/
def startOfLine (table : LineTable) (b : Nat) : Except Fault Nat := do
  let line ← table.lineNumber? b
  let position ← minus (line.getD table.starts.length) 1
  entryAt table.starts position

/-- The offset at which the line that holds byte `b` ends, its line break excluded. -/
def endOfLine (table : LineTable) (b : Nat) : Except Fault Nat := do
  let line ← table.lineNumber? b
  let position := line.getD table.starts.length
  if position < table.starts.length then
    let next ← entryAt table.starts position
    minus next 1
  else table.length

/-- The offset of the last byte of a span in a text with `length` bytes. An empty span has it where
it begins. -/
def lastOffset (span : Span) (length : Nat) : Except Fault Nat := do
  let size ← minus span.stop span.start
  if size = 0 then return min span.start length
  let last ← minus span.stop 1
  return min last length

/-- The first byte of the first line that a span touches and the end of the last one. -/
def lineBounds (table : LineTable) (span : Span) : Except Fault (Nat × Nat) := do
  let length ← table.length
  let last ← lastOffset span length
  let start ← table.startOfLine (min span.start length)
  let stop ← table.endOfLine last
  return (start, stop)

end LineTable

end Railroad
