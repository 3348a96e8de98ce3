import Railroad.Ron.Reader
set_option autoImplicit false

/-!
# Reading a text in RON as a whole

A text is the written form of one value, with blanks and comments around it and with attributes in
front of it, which turn on extensions of the notation. An error is reported with its place in the
text.
-/

namespace Railroad.Ron.Reader

variable {α : Type}

/-! ## Attributes -/

/-- Takes those of several pieces of text that come next in turn, each with the blanks behind it,
and says whether all of them did. A piece that does not come next is left out, and a fault in the
blanks behind a piece counts only after the pieces that follow it. -/
def acceptEach : List (List Char) → Reader Bool
  | [], cs => .ok (true, cs)
  | piece :: pieces, cs =>
      match piece.isPrefixOf? cs with
      | none => (acceptEach pieces cs).map fun (_, tail) => (false, tail)
      | some tail =>
          match afterGaps .outside tail with
          | .ok tail => acceptEach pieces tail
          | .error fault =>
              if fault.inside then .error fault
              else match acceptEach pieces fault.rest with
                | .ok (_, tail) => .error ⟨fault.error, tail, false⟩
                | .error later => .error ⟨fault.error, later.rest, later.inside⟩

/-- The names of the extensions. None of them changes how diagrams, grammars, spans and options are
read, and a value that is passed over is read without them. -/
def extensionNames : List String := ["unwrap_newtypes", "implicit_some", "unwrap_variant_newtypes"]

/-- Names of extensions with commas between them and perhaps one at the end, with at most one name
for each character of `budget`. -/
def extensionsWithin : List Char → Reader Unit
  | [] => return ()
  | _ :: budget => do
      let name ← ident
      if extensionNames.contains name then
        let found ← comma
        if ((← peek?).map isIdentChar).getD false then
          if found then extensionsWithin budget else stop .expectedComma
        else return ()
      else stop (.noSuchExtension name)

/-- An attribute that turns on extensions. -/
def extensionAttribute : Reader Unit := do
  if ← acceptEach [['#'], ['!'], ['['], "enable".toList, ['(']] then
    gaps
    extensionsWithin ('(' :: (← rest))
    gaps
    if ← acceptEach [[')'], [']']] then return () else stop .expectedAttributeEnd
  else stop .expectedAttribute

/-- Attributes with blanks behind each, with at most one for each character of `budget`. -/
def attributesWithin : List Char → Reader Unit
  | [] => return ()
  | _ :: budget => do
      if (← peek?) == some '#' then
        extensionAttribute
        gaps
        attributesWithin budget
      else return ()

/-- The attributes in front of a value. -/
def attributes : Reader Unit := do attributesWithin (← rest)

/-! ## Whole texts -/

/-- The place at which reading of a text stopped. -/
def place (text : List Char) (stopped : Stop) : ReadFailure :=
  let taken := text.take (text.length - stopped.rest.length)
  let column := Text.byteLength (taken.reverse.takeWhile (· != '\n'))
  ⟨stopped.error, taken.count '\n' + 1, column + 1 + if stopped.inside then 1 else 0⟩

/-- A value with blanks around it and nothing else, behind the attributes of the text. -/
def whole (reader : Reader α) : Reader α := do
  gaps
  attributes
  let value ← reader
  gaps
  if (← rest).isEmpty then return value else stop .trailingCharacters

/-- The value that a text is the written form of. -/
def run (reader : Reader α) (text : String) : Except ReadFailure α :=
  match whole reader text.toList with
  | .ok (value, _) => .ok value
  | .error stopped => .error (place text.toList stopped)

end Railroad.Ron.Reader
