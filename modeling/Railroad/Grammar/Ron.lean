import Railroad.Diagram.Ron
import Railroad.Grammar.Basic
set_option autoImplicit false

/-!
# Grammars in RON

A grammar is stored as the list of its productions, each a pair of a name and a diagram. The index
of names is made anew when a grammar is read.
-/

namespace Railroad.Grammar

open Ron

/-- The stored form of a production. -/
def productionChars (production : String × Diagram) : List Char :=
  Form.tuple [Form.string production.1, Diagram.ronChars .compact production.2]

/-- The stored form of a grammar. -/
def ronChars (grammar : Grammar) : List Char :=
  Form.list .compact (grammar.productions.map productionChars)

/-- How deeply the stored form of a grammar is nested. -/
def ronNesting (grammar : Grammar) : Nat :=
  Nesting.list (grammar.productions.map fun production =>
    Nesting.list [0, Diagram.ronNesting production.2])

/-- The stored form of a grammar, unless it is nested too deeply. -/
def toRon (grammar : Grammar) : Except ReadError String :=
  if ronNesting grammar ≤ nestingLimit then .ok (String.ofList (ronChars grammar))
  else .error .exceededRecursionLimit

/-- Reads a production, which is nested in a list. -/
def productionReader : Reader (String × Diagram) :=
  Reader.pair (nestingLimit - 2) Reader.string
    (Diagram.reader .canonical (nestingLimit - 4))

/-- Reads a list of productions. -/
def reader : Reader Grammar := do
  let productions ← Reader.list nestingLimit productionReader
  return ofList productions

/-- The grammar that a text is the stored form of. -/
def ofRon (text : String) : Except ReadFailure Grammar := Reader.run reader text

end Railroad.Grammar
