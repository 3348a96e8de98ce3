import Railroad.Span
import Railroad.Text.Hex
set_option autoImplicit false

/-!
# Grammar texts as trees

A grammar text is a list of productions, each a name with its definition. The definition is a link
to another document or a choice of branches; a branch is a sequence of items or the difference of
two; an item is a primary with an optional cardinality mark; a primary is a name, a string, a
character code, a character class or a choice in parentheses. Blanks and comments are not kept, and
every part records the span it was read from.
-/

namespace Railroad.Notation

/-- An upper-case ASCII letter followed by ASCII letters and digits. -/
structure Name where
  text : String
  span : Span
  deriving DecidableEq, Repr

/-- A text between two quotes of one kind; nothing in it is escaped. -/
structure StringLiteral where
  value : String
  quote : Char
  span : Span
  deriving DecidableEq, Repr

/-- `#x` and hexadecimal digits. -/
structure CharCode where
  hex : String
  span : Span
  deriving DecidableEq, Repr

/-- A member of a character class: a character, a range of characters, and both by their codes. -/
inductive ClassItem where
  | char (c : Char)
  | range (first last : Char)
  | code (c : CharCode)
  | codeRange (first last : CharCode)
  deriving DecidableEq, Repr

/-- Members in square brackets, all other characters being meant when the class is negated. -/
structure CharClass where
  negated : Bool
  items : List ClassItem
  span : Span
  deriving DecidableEq, Repr

/-- The address of another document in square brackets, and possibly the name of a place in it. -/
structure Link where
  url : String
  fragment : Option Name
  span : Span
  deriving DecidableEq, Repr

/-- The marks that say how often an item may occur. -/
inductive Cardinality where
  | optional
  | zeroOrMore
  | oneOrMore
  deriving DecidableEq, Repr

mutual

/-- What an item consists of apart from its cardinality mark. -/
inductive Primary where
  | name (name : Name)
  | string (literal : StringLiteral)
  | code (code : CharCode)
  | charClass (cls : CharClass)
  | group (choice : Choice)

/-- A primary and the mark directly behind it. -/
structure Item where
  primary : Primary
  cardinality : Option Cardinality
  span : Span

/-- One branch of a choice: items one after the other, or one item without another. -/
inductive Branch where
  | sequence (items : List Item) (span : Span)
  | difference (left right : Item) (span : Span)

/-- Branches separated by bars. A group is a choice even if it has a single branch. -/
structure Choice where
  branches : List Branch
  span : Span

end

/-- What a name is defined to be. -/
inductive Definition where
  | choice (choice : Choice)
  | link (link : Link)

/-- A name and its definition. -/
structure Production where
  name : Name
  definition : Definition
  span : Span

/-- A grammar text: its productions in the order in which they are written. -/
structure Document where
  productions : List Production

/-- The part of the text that a primary was read from; for a group, that of the choice between the
parentheses. -/
def Primary.span : Primary → Span
  | .name n => n.span
  | .string s => s.span
  | .code c => c.span
  | .charClass c => c.span
  | .group c => c.span

/-- The part of the text that a branch was read from. -/
def Branch.span : Branch → Span
  | .sequence _ span => span
  | .difference _ _ span => span

/-- The part of the text that a definition was read from. -/
def Definition.span : Definition → Span
  | .choice c => c.span
  | .link l => l.span

/-- The character that a code denotes, if there is one with that code point. The digits may follow a
plus sign. -/
def CharCode.value? (code : CharCode) : Option Char :=
  let digits := match code.hex.toList with
    | '+' :: digits => digits
    | digits => digits
  (Text.hexNumber? digits).bind Text.charOfCode?

/-- The full address of a link: a place in the document follows after `#`. -/
def Link.target (link : Link) : String :=
  match link.fragment with
  | some name => link.url ++ "#" ++ name.text
  | none => link.url

/-- The cardinality that a mark stands for. -/
def Cardinality.ofMark? : Char → Option Cardinality
  | '?' => some .optional
  | '*' => some .zeroOrMore
  | '+' => some .oneOrMore
  | _ => none

/-- The mark of a cardinality. -/
def Cardinality.mark : Cardinality → Char
  | .optional => '?'
  | .zeroOrMore => '*'
  | .oneOrMore => '+'

/-- The mark of a cardinality is read as the cardinality. -/
theorem Cardinality.ofMark?_mark (cardinality : Cardinality) :
    ofMark? cardinality.mark = some cardinality := by
  cases cardinality <;> rfl

end Railroad.Notation
