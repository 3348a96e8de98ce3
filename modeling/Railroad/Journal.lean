import Railroad.Notation.SyntaxError
set_option autoImplicit false

/-!
# Journal

The steps that reading, drawing and rendering a grammar report on their way, each with the level of
detail to which it belongs.
-/

namespace Railroad.Journal

/-- How detailed a report is. -/
inductive Level where
  | debug
  | trace
  deriving DecidableEq, Repr

/-- One reported step. -/
inductive Entry where
  /-- Reading of a text with so many bytes begins. -/
  | parsing (bytes : Nat)
  /-- Some rule failed further on than any before it. -/
  | furthestFailure (offset : Nat)
  /-- The group at an offset is nested too deeply. -/
  | nestedTooDeeply (offset : Nat)
  /-- A text with so many productions was read. -/
  | parsed (productions : Nat)
  /-- The text is no grammar text. -/
  | parseFailed (error : Notation.SyntaxError)
  /-- Drawing of so many productions begins. -/
  | transforming (productions : Nat)
  /-- So many productions were drawn. -/
  | transformed (productions : Nat)
  /-- A diagram is handed to a renderer. -/
  | rendering (name contentType : String)
  deriving DecidableEq, Repr

namespace Entry

/-- The level of detail of a step. -/
def level : Entry → Level
  | .furthestFailure _ => .trace
  | _ => .debug

/-- What is reported about a step. -/
def message : Entry → String
  | .parsing bytes => "parsing " ++ toString bytes ++ " bytes of grammar"
  | .furthestFailure offset => "furthest failure now at byte " ++ toString offset
  | .nestedTooDeeply offset => "groups nested too deeply at byte " ++ toString offset
  | .parsed productions => "parsed " ++ toString productions ++ " productions"
  | .parseFailed error =>
      "parse failed at byte " ++ toString error.position ++ ": " ++ error.message
  | .transforming productions => "transforming " ++ toString productions ++ " productions"
  | .transformed productions => "transformed " ++ toString productions ++ " productions"
  | .rendering name contentType => "rendering " ++ name ++ " as " ++ contentType

/-- A step as one line of a log. -/
def line (entry : Entry) : String :=
  (match entry.level with
    | .debug => "DEBUG "
    | .trace => "TRACE ") ++ entry.message

end Entry

end Railroad.Journal
