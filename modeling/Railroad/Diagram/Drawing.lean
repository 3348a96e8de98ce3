import Railroad.Diagram.Choice
import Railroad.Notation.Printer
set_option autoImplicit false

/-!
# Drawing a grammar text

Every production of a grammar text becomes a diagram. Names become references, strings and character
classes become boxes with their text, and alternatives become a set. A branch is drawn as a list of
elements, and it depends on where its choice stands what becomes of them: in a group a single
element stands for itself (`Alternatives.grouped`), and in a definition it does so unless it is a
single box (`Alternatives.whole`). A choice without branches or a sequence without items has no
diagram; no grammar text contains one, but a tree that was put together otherwise may.
-/

namespace Railroad

/-- Parts of a tree that have nothing in them. -/
inductive EmptyPart.Kind where
  | choice
  | sequence
  deriving DecidableEq, Repr

/-- A part of a tree that has no diagram, because there is nothing in it. -/
structure EmptyPart where
  kind : EmptyPart.Kind
  span : Span
  deriving DecidableEq, Repr

/-- The complaint about an empty part. -/
def EmptyPart.message (part : EmptyPart) : String :=
  match part.kind with
  | .choice => "Choice has no alternatives"
  | .sequence => "Sequence has no items"

namespace Diagram

/-- Elements one after the other; a single element stands for itself. -/
def row : List Diagram → Diagram
  | [only] => only
  | elements => .sequence elements

/-- A diagram under a cardinality. -/
def repeated : Option Notation.Cardinality → Diagram → Diagram
  | none, d => d
  | some .optional, d => .optional d
  | some .zeroOrMore, d => .zeroOrMore d
  | some .oneOrMore, d => .oneOrMore d

/-- What is left of the branches of a choice, each of which is drawn as a list of elements. -/
inductive Alternatives where
  /-- All branches have the same row, and these are the elements of one of them. -/
  | single (elements : List Diagram)
  /-- Several rows, in ascending order. -/
  | many (members : List Diagram)
  deriving DecidableEq, Repr

namespace Alternatives

/-- The alternatives that branches with these elements are. Branches are told apart by their rows.
If all rows are the same, any branch will do, and the elements of the first one are kept as they
are. -/
def between (first : List Diagram) (others : List (List Diagram)) : Alternatives :=
  let rows := setOf ((first :: others).map row)
  if rows.length = 1 then .single first else .many rows

/-- The diagram of alternatives that stand in a group. -/
def grouped : Alternatives → Diagram
  | .single elements => row elements
  | .many members => .choice members

/-- The diagram of alternatives that are a whole definition. A single element is drawn as it is, but
a single box is drawn as a row of its own. -/
def whole : Alternatives → Diagram
  | .single [only] => if only.isLeaf then .sequence [only] else only
  | .single elements => .sequence elements
  | .many members => .choice members

end Alternatives

mutual

/-- The diagram of a primary. -/
def ofPrimary : Notation.Primary → Except EmptyPart Diagram
  | .name n => .ok (.nonTerminal n.text)
  | .string s => .ok (.terminal s.value)
  | .code c => .ok (.terminal c.print)
  | .charClass c => .ok (.terminal c.print)
  | .group c => do
      let alternatives ← ofChoice c
      return alternatives.grouped

/-- The diagram of an item. -/
def ofItem : Notation.Item → Except EmptyPart Diagram
  | ⟨primary, cardinality, _⟩ => do
      let d ← ofPrimary primary
      return repeated cardinality d

/-- The elements of a branch. A difference is drawn as its two sides with a dash between them. -/
def ofBranch : Notation.Branch → Except EmptyPart (List Diagram)
  | .sequence items span => do
      if items.isEmpty then throw ⟨.sequence, span⟩
      else ofItems items
  | .difference left right _ => do
      let l ← ofItem left
      let r ← ofItem right
      return [l, .terminal "-", r]

/-- The alternatives of a choice. -/
def ofChoice : Notation.Choice → Except EmptyPart Alternatives
  | ⟨[], span⟩ => throw ⟨.choice, span⟩
  | ⟨branch :: rest, _⟩ => do
      let first ← ofBranch branch
      let others ← ofBranches rest
      return .between first others

/-- The diagrams of several items. -/
def ofItems : List Notation.Item → Except EmptyPart (List Diagram)
  | [] => .ok []
  | item :: rest => do
      let d ← ofItem item
      let ds ← ofItems rest
      return d :: ds

/-- The elements of each of several branches. -/
def ofBranches : List Notation.Branch → Except EmptyPart (List (List Diagram))
  | [] => .ok []
  | branch :: rest => do
      let elements ← ofBranch branch
      let others ← ofBranches rest
      return elements :: others

end

/-- The diagram of a definition. A link is drawn as a reference to its target. -/
def ofDefinition : Notation.Definition → Except EmptyPart Diagram
  | .link l => .ok (.sequence [.nonTerminal l.target])
  | .choice c => do
      let alternatives ← ofChoice c
      return alternatives.whole

end Diagram

end Railroad
