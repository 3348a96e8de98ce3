import Railroad.Notation.Lexeme
import Railroad.Notation.SyntaxError
set_option autoImplicit false

/-!
# The notation

The rules that make up a grammar text, from items to the whole document. Groups may contain choices
again, up to a given depth, which `item` counts down. The alternatives are ordered: a link is
preferred to a choice if the production ends after it, and a difference is preferred to a sequence.
-/

namespace Railroad.Notation

open Rule

/-- A choice in parentheses, where `choice` reads what stands between them. -/
def group (choice : Rule Choice) : Rule Choice := do
  let start ← here
  literal "("
  inside start do
    skip false
    let within ← choice
    skip false
    literal ")"
    return within

/-- A group where none is allowed any more: its parenthesis ends the reading of the whole text. -/
def refusedGroup : Rule Choice := do
  let start ← here
  literal "("
  refuse start

/-- A primary, where `group` reads the groups. -/
def primary (group : Rule Choice) : Rule Primary :=
  (.name <$> name) <|>
  (.string <$> stringLiteral) <|>
  (.code <$> charCode) <|>
  (.charClass <$> charClass) <|>
  (.group <$> group)

/-- A primary and possibly a mark directly behind it. -/
def itemOf (primary : Rule Primary) : Rule Item := do
  let start ← here
  let body ← primary
  let mark ← perhaps (charFor Cardinality.ofMark?)
  let stop ← here
  return ⟨body, mark, ⟨start, stop⟩⟩

/-- What follows the left side of a difference that begins at `start`. -/
def differenceFrom (item : Rule Item) (start : Nat) (left : Item) : Rule Branch := do
  skip false
  literal "-"
  skip false
  let right ← item
  let stop ← here
  return .difference left right ⟨start, stop⟩

/-- What follows the first item of a sequence that begins at `start`. -/
def sequenceFrom (item : Rule Item) (start : Nat) (first : Item) : Rule Branch := do
  let more ← many do
    space
    item
  let stop ← here
  return .sequence (first :: more) ⟨start, stop⟩

/-- A difference, or else a sequence. -/
def branch (item : Rule Item) : Rule Branch := do
  let start ← here
  let first ← item
  differenceFrom item start first <|> sequenceFrom item start first

/-- Branches with bars between them. -/
def choice (item : Rule Item) : Rule Choice := do
  let start ← here
  let first ← branch item
  let more ← many do
    skip false
    literal "|"
    skip false
    branch item
  let stop ← here
  return ⟨first :: more, ⟨start, stop⟩⟩

/-- An item in which groups are nested at most `depth` deep. -/
def item : Nat → Rule Item
  | 0 => itemOf (primary refusedGroup)
  | depth + 1 => itemOf (primary (group (choice (item depth))))

/-- Matches nothing, where nothing more follows in a line but gaps. -/
def lineIsOver : Rule Unit := lookahead do
  skip false
  atEnd <|> (do let _ ← charWhere isLineEnd)

/-- A definition. A link looks like the beginning of an item, and is one only if nothing follows
it. -/
def definition (item : Rule Item) : Rule Definition :=
  (do
    let target ← link
    lineIsOver
    return .link target) <|>
  (.choice <$> choice item)

/-- A name and what it is defined to be. -/
def production (item : Rule Item) : Rule Production := do
  skip false
  let start ← here
  let defined ← name
  skip false
  literal "::="
  skip false
  let meaning ← definition item
  let stop ← here
  return ⟨defined, meaning, ⟨start, stop⟩⟩

/-- What stands between two productions: gaps, with the end of a line among them. -/
def separator : Rule Unit := do
  skip false
  let _ ← expecting .newline (charWhere isLineEnd)
  skip true

/-- One or more productions. -/
def document (item : Rule Item) : Rule Document := do
  skip true
  let first ← production item
  let more ← many do
    separator
    production item
  skip true
  expecting .endOfText atEnd
  return ⟨first :: more⟩

/-- The attempt to read a text in which groups may be nested `depth` deep. -/
def run (depth : Nat) (text : List Char) : Run Document :=
  document (item depth) ⟨text, 0⟩

/-- The tree of a grammar text, as its attempt has found it. -/
def conclude (text : List Char) (run : Run Document) : Except SyntaxError Document :=
  match run.outcome with
  | .matched found _ => .ok found
  | .mismatch => .error (.ofEvents text run.events)
  | .tooDeep offset => .error (.tooDeep offset)

/-- The tree of a grammar text, or why it is none. -/
def parse (text : String) : Except SyntaxError Document :=
  conclude text.toList (run maxNesting text.toList)

end Railroad.Notation
