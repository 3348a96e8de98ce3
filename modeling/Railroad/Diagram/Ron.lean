import Railroad.Diagram.Choice
import Railroad.Ron.Reading
import Railroad.Ron.Writer
set_option autoImplicit false

/-!
# Diagrams in RON

A diagram is stored as a variant for each of its kinds, which holds a text, a list of diagrams or a
diagram. There are two ways to read one: as it is written, or with the members of every choice as a
set, of which there have to be at least two.
-/

namespace Railroad.Diagram

open Ron

mutual

/-- The stored form of a diagram. -/
def ronChars : Layout → Diagram → List Char
  | _, .terminal text => Form.variant "Terminal" (Form.string text)
  | _, .nonTerminal name => Form.variant "NonTerminal" (Form.string name)
  | layout, .sequence parts =>
      Form.variant "Sequence" (Form.list layout (ronCharsEach layout.inner parts))
  | layout, .choice members =>
      Form.variant "Choice" (Form.list layout (ronCharsEach layout.inner members))
  | layout, .optional body => Form.variant "Optional" (ronChars layout body)
  | layout, .zeroOrMore body => Form.variant "ZeroOrMore" (ronChars layout body)
  | layout, .oneOrMore body => Form.variant "OneOrMore" (ronChars layout body)

/-- The stored forms of several diagrams. -/
def ronCharsEach : Layout → List Diagram → List (List Char)
  | _, [] => []
  | layout, d :: rest => ronChars layout d :: ronCharsEach layout rest

end

mutual

/-- How deeply the stored form of a diagram is nested. -/
def ronNesting : Diagram → Nat
  | .terminal _ => Nesting.variant 0
  | .nonTerminal _ => Nesting.variant 0
  | .sequence parts => Nesting.variant (Nesting.list (ronNestingEach parts))
  | .choice members => Nesting.variant (Nesting.list (ronNestingEach members))
  | .optional body => Nesting.variant (ronNesting body)
  | .zeroOrMore body => Nesting.variant (ronNesting body)
  | .oneOrMore body => Nesting.variant (ronNesting body)

/-- How deeply the stored forms of several diagrams are nested. -/
def ronNestingEach : List Diagram → List Nat
  | [] => []
  | d :: rest => ronNesting d :: ronNestingEach rest

end

/-- The stored form of a diagram, unless it is nested too deeply. -/
def toRon (layout : Layout) (d : Diagram) : Except ReadError String :=
  if ronNesting d ≤ nestingLimit then .ok (String.ofList (ronChars layout d))
  else .error .exceededRecursionLimit

/-- A way to read diagrams: the name that messages give to their type, and what becomes of the
members of a choice. -/
structure Reading where
  type : String
  choice : List Diagram → Except ReadError Diagram

/-- Choices are taken as they are written. -/
def Reading.plain : Reading :=
  ⟨"DiagramRepr", fun members => .ok (.choice members)⟩

/-- The members of a choice form a set of at least two. -/
def Reading.canonical : Reading :=
  ⟨"Node", fun members =>
    let distinct := setOf members
    if distinct.length < 2 then .error (.tooFewAlternatives distinct.length)
    else .ok (.choice distinct)⟩

/-- The names of the variants of a stored diagram. -/
def variantNames : List String :=
  ["Terminal", "NonTerminal", "Sequence", "Choice", "Optional", "ZeroOrMore", "OneOrMore"]

/-- Reads a diagram that may be nested as deeply as `budget` allows. Its name and its payload take
one each from the budget, and the list in a payload and every element of the list one more. -/
def reader (reading : Reading) : Nat → Reader Diagram
  | 0 => Reader.stop .exceededRecursionLimit
  | 1 => do
      Reader.gaps
      Reader.stop .exceededRecursionLimit
  | budget + 2 => do
      let elements : Reader (List Diagram) := Reader.list budget
        (match budget with
        | below + 2 => reader reading below
        | _ => Reader.stop .exceededRecursionLimit)
      Reader.gaps
      let name ← Reader.ident
      if name == "Terminal" then return .terminal (← Reader.payload Reader.string)
      else if name == "NonTerminal" then return .nonTerminal (← Reader.payload Reader.string)
      else if name == "Sequence" then return .sequence (← Reader.payload elements)
      else if name == "Choice" then
        let members ← Reader.payload elements
        match reading.choice members with
        | .ok d => return d
        | .error error => Reader.stop error
      else if name == "Optional" then return .optional (← Reader.payload (reader reading budget))
      else if name == "ZeroOrMore" then
        return .zeroOrMore (← Reader.payload (reader reading budget))
      else if name == "OneOrMore" then
        return .oneOrMore (← Reader.payload (reader reading budget))
      else Reader.stop (.noSuchVariant reading.type variantNames name)

/-- The diagram that a text is the stored form of. -/
def ofRon (reading : Reading) (text : String) : Except ReadFailure Diagram :=
  Reader.run (reader reading nestingLimit) text

end Railroad.Diagram
