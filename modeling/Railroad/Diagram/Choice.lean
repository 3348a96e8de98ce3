import Railroad.Ascending
import Railroad.Diagram.Order
set_option autoImplicit false

/-!
# Alternatives as a set

In a canonical diagram the members of a choice form a set of at least two diagrams, kept in
ascending order, so that it makes no difference in which order alternatives are written or whether
one is repeated.
-/

namespace Railroad.Diagram

/-- The members of a list of diagrams in ascending order, each once. -/
def setOf (members : List Diagram) : List Diagram :=
  Ascending.ofList compare members

/-- The choice between some alternatives. A single distinct alternative stands for itself, and there
is no choice between none. -/
def choice? (alternatives : List Diagram) : Option Diagram :=
  match setOf alternatives with
  | [] => none
  | [only] => some only
  | members => some (.choice members)

mutual

/-- The diagram in which the members of every choice, at every depth, form a set. -/
def sortChoices : Diagram → Diagram
  | .terminal text => .terminal text
  | .nonTerminal name => .nonTerminal name
  | .sequence parts => .sequence (sortChoicesEach parts)
  | .choice members => .choice (setOf (sortChoicesEach members))
  | .optional body => .optional (sortChoices body)
  | .zeroOrMore body => .zeroOrMore (sortChoices body)
  | .oneOrMore body => .oneOrMore (sortChoices body)

/-- The diagrams of a list in which the members of every choice form a set. -/
def sortChoicesEach : List Diagram → List Diagram
  | [] => []
  | d :: rest => sortChoices d :: sortChoicesEach rest

end

end Railroad.Diagram
