import Railroad.Notation.Event
import Railroad.Span
import Railroad.Text.Quoted
import Railroad.Text.Utf8
set_option autoImplicit false

/-!
# Syntax errors

A text that does not fit the notation is blamed at the furthest place that any rule reached,
together with everything that was looked for there. A text whose groups are nested too deeply is
blamed at the parenthesis of the first group that is one too many.
-/

namespace Railroad.Notation

/-- How deeply groups may be nested in each other. -/
def maxNesting : Nat := 64

/-- Why a text is no grammar text. -/
inductive SyntaxError.Cause where
  /-- A character at which no rule could go on. -/
  | unexpected (found : Char)
  /-- The text ends where something more was needed. -/
  | prematureEnd
  /-- Groups are nested more than `maxNesting` deep. -/
  | nestedTooDeeply
  deriving DecidableEq, Repr

/-- Why and where a text is no grammar text, and what would have allowed it to go on. -/
structure SyntaxError where
  cause : SyntaxError.Cause
  span : Span
  expected : List Expected
  deriving DecidableEq, Repr

namespace SyntaxError

/-- The message of a cause on its own. -/
def Cause.message : Cause → String
  | .unexpected found => "Unexpected " ++ String.ofList (Text.quotedChar found)
  | .prematureEnd => "File ends prematurely"
  | .nestedTooDeeply => "Parentheses nested more than " ++ toString maxNesting ++ " deep"

/-- The offset at which the text is blamed. -/
def position (error : SyntaxError) : Nat := error.span.start

/-- The message of an error, with what was expected if there is anything. -/
def message (error : SyntaxError) : String :=
  error.cause.message ++
    match error.expected with
    | [] => ""
    | [only] => ": expected " ++ only.message
    | several => ": expected one of " ++ String.intercalate ", " (several.map Expected.message)

/-- The error for a text whose reading failed with the given events. -/
def ofEvents (text : List Char) (events : List Event) : SyntaxError :=
  let offset := Event.furthest events
  let cause := match Text.charAt? offset text with
    | some found => Cause.unexpected found
    | none => .prematureEnd
  ⟨cause, .point offset, Event.expectedAt offset events⟩

/-- The error for a group at the given offset that is nested too deeply. -/
def tooDeep (offset : Nat) : SyntaxError :=
  ⟨.nestedTooDeeply, ⟨offset, offset + 1⟩, []⟩

end SyntaxError

end Railroad.Notation
