import Railroad.Diagram.Order
set_option autoImplicit false

/-!
# Grammars

A grammar is a list of productions in the order in which they were written, each a name with a
diagram. Names may repeat and may refer to nothing. Beside the list a grammar keeps, for each name,
the positions of its productions, so that looking a name up does not search the list. The positions
follow from the list, and grammars with the same productions are equal.
-/

namespace Railroad

/-- A list of productions with an index from names to positions in the list. -/
structure Grammar where
  productions : List (String × Diagram)
  positions : List (String × List Nat)
  deriving Repr

namespace Grammar

/-- The grammar without productions. -/
def empty : Grammar := ⟨[], []⟩

instance : Inhabited Grammar := ⟨empty⟩

/-- An index with one more position for a name, which comes last if it is new. -/
def addPosition (name : String) (position : Nat) :
    List (String × List Nat) → List (String × List Nat)
  | [] => [(name, [position])]
  | (other, found) :: rest =>
      if other = name then (other, found ++ [position]) :: rest
      else (other, found) :: addPosition name position rest

/-- A grammar with one more production at its end. -/
def push (grammar : Grammar) (name : String) (diagram : Diagram) : Grammar :=
  ⟨grammar.productions ++ [(name, diagram)],
   addPosition name grammar.productions.length grammar.positions⟩

/-- The grammar with the given productions. -/
def ofList (productions : List (String × Diagram)) : Grammar :=
  productions.foldl (fun grammar production => grammar.push production.1 production.2) empty

/-- Number of productions. -/
def size (grammar : Grammar) : Nat := grammar.productions.length

/-- Whether there are no productions. -/
def isEmpty (grammar : Grammar) : Bool := grammar.productions.isEmpty

/-- The positions of the productions with a name. -/
def positionsOf (grammar : Grammar) (name : String) : List Nat :=
  (grammar.positions.lookup name).getD []

/-- The diagram at a position. -/
def diagramAt? (grammar : Grammar) (position : Nat) : Option Diagram :=
  grammar.productions[position]?.map Prod.snd

/-- The diagram of the first production with a name. -/
def get? (grammar : Grammar) (name : String) : Option Diagram :=
  (grammar.positionsOf name).head?.bind grammar.diagramAt?

/-- The diagrams of all productions with a name. -/
def getAll (grammar : Grammar) (name : String) : List Diagram :=
  (grammar.positionsOf name).filterMap grammar.diagramAt?

/-- Each name once, in the order of first appearance. -/
def names (grammar : Grammar) : List String := grammar.positions.map Prod.fst

instance : BEq Grammar := ⟨fun a b => a.productions == b.productions⟩

@[simp] theorem productions_push (grammar : Grammar) (name : String) (diagram : Diagram) :
    (grammar.push name diagram).productions = grammar.productions ++ [(name, diagram)] := rfl

theorem productions_ofList (productions : List (String × Diagram)) :
    (ofList productions).productions = productions := by
  suffices h : ∀ grammar : Grammar,
      (productions.foldl (fun grammar production => grammar.push production.1 production.2)
        grammar).productions = grammar.productions ++ productions from h empty
  induction productions with
  | nil => intro grammar; simp
  | cons production rest ih =>
      intro grammar
      rw [List.foldl_cons, ih, productions_push, List.append_assoc]
      rfl

end Grammar

end Railroad
