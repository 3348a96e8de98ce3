import Railroad.Ron.AnyValue
set_option autoImplicit false

/-!
# Reading records in RON

A record is written as its fields in parentheses, in any order, each with its name and a colon in
front of its value. The name of the record type may stand in front of the parentheses.
-/

namespace Railroad.Ron.Reader

variable {α β γ : Type}

/-- A record type with two fields: its name, how the value is made from those of the fields, and
whether there may be no fields besides them. A field besides them is passed over. -/
structure PairRecord (α β γ : Type) where
  type : String
  first : String × Reader α
  second : String × Reader β
  closed : Bool
  make : α → β → Except ReadError γ

/-- The name of a record type, which may stand in front of a record. -/
def recordName (type : String) : Reader Unit := do
  if ((← peek?).map isIdentChar).getD false then
    match ident (← rest) with
    | .ok (found, tail) =>
        set tail
        if found == type then return () else stop (.expectedDifferentStructName type found)
    | .error ⟨.suggestRawIdentifier found, _, _⟩ =>
        if found == type then stop (.suggestRawIdentifier found)
        else stop (.expectedNamedStructLike type)
    | .error _ => stop (.expectedNamedStructLike type)

/-- The value of a field, behind its colon. -/
def fieldValue (value : Reader α) : Reader α := do
  gaps
  require ':' .expectedMapColon
  gaps
  value

/-- One field of a record, added to those found before. The record and the field nest the value of
the field twice. -/
def field (layout : PairRecord α β γ) (found : Option α × Option β) :
    Reader (Option α × Option β) := do
  let name ← ident
  if name == layout.first.1 then
    if found.1.isSome then stop (.duplicateField layout.type name)
    else return (some (← fieldValue layout.first.2), found.2)
  else if name == layout.second.1 then
    if found.2.isSome then stop (.duplicateField layout.type name)
    else return (found.1, some (← fieldValue layout.second.2))
  else if layout.closed then
    stop (.noSuchField layout.type (layout.first.1, layout.second.1) name)
  else
    fieldValue (anyValue (nestingLimit - 2))
    return found

/-- A record of two fields in any order. -/
def record (layout : PairRecord α β γ) : Reader γ := do
  recordName layout.type
  gaps
  require '(' (.expectedNamedStructLike layout.type)
  match ← each ')' (field layout) (none, none) with
  | (none, _) => stop (.missingField layout.type layout.first.1)
  | (some _, none) => stop (.missingField layout.type layout.second.1)
  | (some a, some b) =>
      match layout.make a b with
      | .error error => stop error
      | .ok value =>
          require ')' .expectedStructLikeEnd
          return value

end Railroad.Ron.Reader
