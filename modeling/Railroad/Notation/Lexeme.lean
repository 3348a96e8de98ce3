import Railroad.Notation.Rule
import Railroad.Notation.Tree
import Railroad.Text.Blank
set_option autoImplicit false

/-!
# Lexemes

The rules for the smallest parts of the notation: what may stand between two parts (`skip`), names,
strings, character codes and classes, and links.
-/

namespace Railroad.Notation

open Rule

/-- A comment runs from `/*` to the first `*/` behind it. -/
def comment : Rule Unit := do
  literal "/*"
  let _ ← charsBefore ['*', '/']
  literal "*/"

/-- Whether a character ends a line. -/
def isLineEnd (c : Char) : Bool := c == '\n' || c == '\r'

/-- One blank, tab or comment, or one end of a line if `breaks` allows it. -/
def gap (breaks : Bool) : Rule Unit :=
  (do
    lookahead (charWhere (· == '/'))
    comment) <|>
  (do let _ ← charWhere fun c => c == ' ' || c == '\t' || (breaks && isLineEnd c))

/-- Any number of gaps. A comment without an end is left where it is. -/
def skip (breaks : Bool) : Rule Unit := do
  let _ ← many (gap breaks)

/-- At least one gap within a line. -/
def space : Rule Unit := do
  gap false
  skip false

/-- A name. -/
def name : Rule Name := do
  let start ← here
  let chars ← expecting .name do
    let first ← charWhere Char.isUpper
    let more ← charsWhile Char.isAlphanum
    return first :: more
  let stop ← here
  return ⟨String.ofList chars, ⟨start, stop⟩⟩

/-- A string, which ends at the next quote of the kind it began with. -/
def stringLiteral : Rule StringLiteral := do
  let start ← here
  let quote ← expecting .stringLiteral (charWhere fun c => c == '"' || c == '\'')
  let value ← charsWhile (· != quote)
  literal (String.singleton quote)
  let stop ← here
  return ⟨String.ofList value, quote, ⟨start, stop⟩⟩

/-- A character code. -/
def charCode : Rule CharCode := do
  let start ← here
  let digits ← expecting .charCode do
    literal "#x"
    someCharsWhile Text.isHexDigit
  let stop ← here
  return ⟨String.ofList digits, ⟨start, stop⟩⟩

/-- A character that stands for itself in a character class. -/
def classChar : Rule Char :=
  expecting .classItem (charWhere fun c => c != ']' && !Text.isControl c)

/-- The dash between the bounds of a range. -/
def dash : Rule Unit := do
  let _ ← charWhere (· == '-')

/-- A member of a character class. A range is preferred to its first character, and a code to the
characters in which it is written. -/
def classItem : Rule ClassItem :=
  (do
    let first ← charCode
    dash
    let last ← charCode
    return .codeRange first last) <|>
  (do
    let first ← classChar
    dash
    let last ← classChar
    return .range first last) <|>
  (.code <$> charCode) <|>
  (.char <$> classChar)

/-- A character class, which has at least one member. A circumflex right after the bracket negates
it. -/
def charClass : Rule CharClass := do
  let start ← here
  literal "["
  let caret ← perhaps (charWhere (· == '^'))
  let items ← many classItem
  if items.isEmpty then mismatch
  else
    literal "]"
    let stop ← here
    return ⟨caret.isSome, items, ⟨start, stop⟩⟩

/-- Whether a character may occur in front of the `://` of an address. -/
def isSchemeChar (c : Char) : Bool :=
  !(c == ']' || c == ':' || c == '/' || c == '?' || c == '#' || Text.isBlank c)

/-- Whether a character may occur behind the `://` of an address. -/
def isAddressChar (c : Char) : Bool :=
  !(c == ']' || c == '#' || Text.isBlank c)

/-- The address of a document. -/
def url : Rule String := do
  let chars ← expecting .url do
    let scheme ← someCharsWhile isSchemeChar
    literal "://"
    let body ← someCharsWhile isAddressChar
    return scheme ++ [':', '/', '/'] ++ body
  return String.ofList chars

/-- A link. -/
def link : Rule Link := do
  let start ← here
  literal "["
  let address ← url
  let fragment ← perhaps do
    let _ ← charWhere (· == '#')
    name
  literal "]"
  let stop ← here
  return ⟨address, fragment, ⟨start, stop⟩⟩

end Railroad.Notation
