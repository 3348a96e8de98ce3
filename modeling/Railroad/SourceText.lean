import Railroad.LineIndex
import Railroad.Text.Width
set_option autoImplicit false

/-!
# Messages about a text

A message about a text names the place it is about by path, line and column, and quotes the lines
that a span touches with the span underlined. Quoting fails when the span cuts a character in two.
-/

namespace Railroad

/-- A text and the path under which it is known. -/
structure SourceText where
  path : String
  text : String

namespace SourceText

/-- The characters of the text. -/
def chars (source : SourceText) : List Char := source.text.toList

/-- The line index of the text. -/
def lineIndex (source : SourceText) : LineIndex := LineIndex.ofText source.chars

/-- A message with the place it is about: the path, and line and column where a span starts. A span
that starts nowhere in the text is placed at line and column 0. -/
def locate (source : SourceText) (message : String) : Option Span → String
  | none => message ++ " in " ++ source.path
  | some span =>
      let (line, column) := (source.lineIndex.lineColumn? source.chars span.start).getD (0, 0)
      message ++ " at " ++ source.path ++ ":" ++ toString line ++ ":" ++ toString column

/-- A text cut at its line breaks. -/
def linesOf : List Char → List (List Char)
  | [] => [[]]
  | c :: cs =>
      match linesOf cs with
      | [] => [[c]]
      | line :: rest => if c = '\n' then [] :: line :: rest else (c :: line) :: rest

/-- A line without a `'\r'` at its end. -/
def withoutReturn (line : List Char) : List Char :=
  if line.getLast? = some '\r' then line.dropLast else line

/-- The nearest number that is not outside the bounds. -/
def clamp (n low high : Nat) : Nat := max low (min n high)

/-- One quoted line that begins at offset `start`, and below it the marks under its part of the
span. An empty part is shown by a single mark. -/
def quoteLine? (index : LineIndex) (span : Span) (mark : Char) (start : Nat)
    (line : List Char) : Option (List Char) := do
  let stop := start + Text.byteLength line
  let markStart := clamp span.start start stop
  let markStop := clamp span.stop markStart stop
  let before ← Text.slice? 0 (markStart - start) line
  let marked ← Text.slice? (markStart - start) (markStop - start) line
  let gutter := (toString ((index.lineNumber? start).getD 0)).toList ++ ['|', ' ']
  return gutter ++ line ++ ['\n'] ++
    List.replicate (gutter.length + Text.width before) ' ' ++
    List.replicate (max (Text.width marked) 1) mark

/-- Quoted lines one below the other, the first of which begins at offset `start`. -/
def quoteLines? (index : LineIndex) (span : Span) (mark : Char) :
    Nat → List (List Char) → Option (List Char)
  | _, [] => some []
  | start, [line] => quoteLine? index span mark start (withoutReturn line)
  | start, line :: rest => do
      let quoted ← quoteLine? index span mark start (withoutReturn line)
      let more ← quoteLines? index span mark (start + Text.byteLength line + 1) rest
      return quoted ++ ['\n'] ++ more

/-- The lines that a span touches, with the span underlined by a mark and a message after the last
mark. -/
def underline? (source : SourceText) (span : Span) (message : String) (mark : Char) :
    Option String := do
  let index := source.lineIndex
  let (start, stop) := index.lineBounds span
  let touched ← Text.slice? start stop source.chars
  let quoted ← quoteLines? index span mark start (linesOf touched)
  return String.ofList (quoted ++ [' '] ++ message.toList)

/-- A message about a span: its place, and below it the lines it touches. -/
def report? (source : SourceText) (span : Span) (message : String) : Option String := do
  let quoted ← source.underline? span message '^'
  return source.locate "Error" (some span) ++ "\n" ++ quoted

end SourceText

end Railroad
