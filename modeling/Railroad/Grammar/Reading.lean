import Railroad.Diagram.Drawing
import Railroad.Grammar.Basic
import Railroad.Journal
import Railroad.Notation.Parser
set_option autoImplicit false

/-!
# Reading grammars

From a grammar text to the grammar of its diagrams: the text is read into a tree, and every
production of the tree is drawn. Either step can fail. `Grammar.read` gives the result and
`Grammar.readJournal` the steps that are reported on the way to it.
-/

namespace Railroad

/-- Why a text has no grammar. -/
inductive GrammarError where
  /-- The text does not fit the notation. -/
  | malformed (error : Notation.SyntaxError)
  /-- A part of its tree has nothing in it. -/
  | empty (part : EmptyPart)
  deriving DecidableEq, Repr

namespace GrammarError

/-- The message of an error. -/
def message : GrammarError → String
  | .malformed error => error.message
  | .empty part => part.message

/-- The part of the text that an error is about. -/
def span : GrammarError → Span
  | .malformed error => error.span
  | .empty part => part.span

end GrammarError

namespace Grammar

/-- A production with its diagram. -/
def drawProduction (production : Notation.Production) : Except EmptyPart (String × Diagram) := do
  let diagram ← Diagram.ofDefinition production.definition
  return (production.name.text, diagram)

/-- The grammar of a tree. -/
def ofDocument (document : Notation.Document) : Except EmptyPart Grammar := do
  let productions ← document.productions.mapM drawProduction
  return ofList productions

/-- The grammar of a text. -/
def read (text : String) : Except GrammarError Grammar :=
  match Notation.parse text with
  | .error error => .error (.malformed error)
  | .ok document =>
      match ofDocument document with
      | .error part => .error (.empty part)
      | .ok grammar => .ok grammar

/-- The steps reported while a tree is drawn. -/
def drawingJournal (document : Notation.Document) : List Journal.Entry :=
  .transforming document.productions.length ::
    match ofDocument document with
    | .error _ => []
    | .ok grammar => [.transformed grammar.size]

/-- The steps reported while a text is read into a tree. -/
def parsingJournal (text : String) : List Journal.Entry :=
  let attempt := Notation.run Notation.maxNesting text.toList
  let advances := (Notation.Event.advances attempt.events).map Journal.Entry.furthestFailure
  let refusal := match attempt.outcome with
    | .tooDeep offset => [Journal.Entry.nestedTooDeeply offset]
    | _ => []
  let conclusion := match Notation.conclude text.toList attempt with
    | .ok document => Journal.Entry.parsed document.productions.length
    | .error error => .parseFailed error
  .parsing (Text.byteLength text.toList) :: advances ++ refusal ++ [conclusion]

/-- The steps reported while the grammar of a text is made. -/
def readJournal (text : String) : List Journal.Entry :=
  parsingJournal text ++
    match Notation.parse text with
    | .ok document => drawingJournal document
    | .error _ => []

end Grammar

end Railroad
