import Railroad.Diagram.Ron
import Railroad.Proofs.Ron.Reader
set_option autoImplicit false

/-!
# Variants of a stored diagram

A stored diagram is read in two steps: its name, and what the name announces (`reader_add_two`). For
each name there is one equation that says what is read in the second step.
-/

namespace Railroad.Diagram

open Ron

/-- Reads the members of a list that may be nested as deeply as `budget` allows for the list. -/
def elementReader (reading : Reading) : Nat → Reader Diagram
  | budget + 2 => reader reading budget
  | _ => Reader.stop .exceededRecursionLimit

/-- Reads what follows the name of a variant. -/
def namedReader (reading : Reading) (budget : Nat) (name : String) : Reader Diagram := do
  let elements := Reader.list budget (elementReader reading budget)
  if name == "Terminal" then return .terminal (← Reader.payload Reader.string)
  else if name == "NonTerminal" then return .nonTerminal (← Reader.payload Reader.string)
  else if name == "Sequence" then return .sequence (← Reader.payload elements)
  else if name == "Choice" then
    let members ← Reader.payload elements
    match reading.choice members with
    | .ok d => return d
    | .error error => Reader.stop error
  else if name == "Optional" then return .optional (← Reader.payload (reader reading budget))
  else if name == "ZeroOrMore" then
    return .zeroOrMore (← Reader.payload (reader reading budget))
  else if name == "OneOrMore" then
    return .oneOrMore (← Reader.payload (reader reading budget))
  else Reader.stop (.noSuchVariant reading.type variantNames name)

/-- Where only a name may be nested, reading stops in front of it. -/
theorem reader_one (reading : Reading) :
    reader reading 1 = (do Reader.gaps; Reader.stop .exceededRecursionLimit) := rfl

/-- A diagram is read by its name. -/
theorem reader_add_two (reading : Reading) (budget : Nat) :
    reader reading (budget + 2) = (do
      Reader.gaps
      let name ← Reader.ident
      namedReader reading budget name) := by
  rw [reader.eq_def]
  obtain _ | _ | budget := budget <;> rfl

variable (reading : Reading) (budget : Nat)

theorem namedReader_terminal : namedReader reading budget "Terminal" =
    (do return .terminal (← Reader.payload Reader.string)) := rfl

theorem namedReader_nonTerminal : namedReader reading budget "NonTerminal" =
    (do return .nonTerminal (← Reader.payload Reader.string)) := rfl

theorem namedReader_sequence : namedReader reading budget "Sequence" =
    (do return .sequence (← Reader.payload (Reader.list budget (elementReader reading budget)))) :=
      rfl

/-- The members of a choice are read first, and then the choice is made of them. -/
theorem namedReader_choice : namedReader reading budget "Choice" = (do
    let members ← Reader.payload (Reader.list budget (elementReader reading budget))
    match reading.choice members with
    | .ok d => return d
    | .error error => Reader.stop error) := rfl

theorem namedReader_optional : namedReader reading budget "Optional" =
    (do return .optional (← Reader.payload (reader reading budget))) := rfl

theorem namedReader_zeroOrMore : namedReader reading budget "ZeroOrMore" =
    (do return .zeroOrMore (← Reader.payload (reader reading budget))) := rfl

theorem namedReader_oneOrMore : namedReader reading budget "OneOrMore" =
    (do return .oneOrMore (← Reader.payload (reader reading budget))) := rfl

/-- A name that is none of the seven is refused. -/
theorem namedReader_of_notMem {name : String} (h : name ∉ variantNames) :
    namedReader reading budget name =
      Reader.stop (.noSuchVariant reading.type variantNames name) := by
  simp only [variantNames, List.mem_cons, List.not_mem_nil, or_false, not_or] at h
  simp [namedReader, h]

end Railroad.Diagram
