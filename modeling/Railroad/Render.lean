import Railroad.Duration
import Railroad.Grammar.Basic
import Railroad.Journal
set_option autoImplicit false

/-!
# Rendering

A renderer turns a diagram into an image or any other document. Here are the options it is given,
the ways in which it may fail, and the rendering of a whole grammar, which stops at the first
diagram that cannot be rendered. How a renderer does its work is left open: it may have effects in
any monad.
-/

namespace Railroad

/-- How a renderer goes about its work. -/
structure RenderOptions where
  /-- The longest time that one diagram may take. -/
  timeout : Duration := Duration.ofSeconds 10
  /-- Whether the result is a complete document, and not a fragment to be embedded in one. -/
  standalone : Bool := true
  deriving DecidableEq, Repr, Inhabited

/-- Why a diagram was not rendered. -/
inductive RenderError where
  /-- It was not finished within the time. -/
  | timeout (limit : Duration)
  /-- Any other reason. -/
  | failed (reason : String)
  deriving DecidableEq, Repr

/-- The message of an error. -/
def RenderError.message : RenderError → String
  | .timeout limit => "Rendering timed out after " ++ limit.text
  | .failed reason => "Rendering failed: " ++ reason

/-- A rendered diagram with the type of its content. -/
structure Rendered where
  contentType : String
  body : ByteArray

/-- Something that renders diagrams. -/
structure Renderer (m : Type → Type) where
  /-- The type of content that it produces. -/
  contentType : String
  /-- Renders one diagram. -/
  render : Diagram → RenderOptions → m (Except RenderError Rendered)

namespace Renderer

variable {m : Type → Type} [Monad m]

/-- Renders productions one after the other up to the first that fails, and reports every
attempt. -/
def renderEach (renderer : Renderer m) (options : RenderOptions) :
    List (String × Diagram) →
      m (Except RenderError (List (String × Rendered)) × List Journal.Entry)
  | [] => pure (.ok [], [])
  | (name, diagram) :: rest => do
      let entry := Journal.Entry.rendering name renderer.contentType
      match ← renderer.render diagram options with
      | .error error => pure (.error error, [entry])
      | .ok rendered =>
          let (result, entries) ← renderEach renderer options rest
          pure (result.map ((name, rendered) :: ·), entry :: entries)

/-- Renders all productions of a grammar under their names, or fails as a whole. -/
def renderGrammar (renderer : Renderer m) (options : RenderOptions) (grammar : Grammar) :
    m (Except RenderError (List (String × Rendered)) × List Journal.Entry) :=
  renderEach renderer options grammar.productions

end Renderer

end Railroad
