set_option autoImplicit false

/-!
# Railroad diagrams

A railroad diagram is a tree of boxes and tracks: a box holds a literal text or the name of another
production, and tracks run through several diagrams in a row, branch out into alternatives, bypass a
diagram or lead back to its start.
-/

namespace Railroad

/-- A railroad diagram. -/
inductive Diagram where
  /-- A text that is shown as it is. -/
  | terminal (text : String)
  /-- A reference to a production by its name. -/
  | nonTerminal (name : String)
  /-- One diagram after the other. -/
  | sequence (parts : List Diagram)
  /-- One of several diagrams. -/
  | choice (members : List Diagram)
  /-- A diagram, or nothing. -/
  | optional (body : Diagram)
  /-- A diagram any number of times. -/
  | zeroOrMore (body : Diagram)
  /-- A diagram at least once. -/
  | oneOrMore (body : Diagram)
  deriving Repr, Inhabited

namespace Diagram

/-- Whether a diagram is a single box. -/
def isLeaf : Diagram → Bool
  | .terminal _ | .nonTerminal _ => true
  | _ => false

/-- The diagrams directly below a diagram. -/
def children : Diagram → List Diagram
  | .terminal _ | .nonTerminal _ => []
  | .sequence parts => parts
  | .choice members => members
  | .optional body | .zeroOrMore body | .oneOrMore body => [body]

end Diagram

end Railroad
