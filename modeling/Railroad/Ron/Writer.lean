import Railroad.Text.Quoted
set_option autoImplicit false

/-!
# Writing RON

The written forms of values in RON: texts, numbers, truth values, variants, lists, tuples and
records. A compact form has no blanks at all. In an indented form every element of a list stands on
a line of its own, four blanks further in than the list.

Writing keeps account of how deeply values are nested in each other, because a reader accepts only
so much of it: a variant nests its payload once, a list or a tuple nests each of its elements twice.
-/

namespace Railroad.Ron

/-- How deeply values may be nested. -/
def nestingLimit : Nat := 128

/-- How a value is laid out: in one line, or inside so many lists whose elements stand on lines of
their own. -/
inductive Layout where
  | compact
  | indented (level : Nat)
  deriving DecidableEq, Repr

namespace Layout

/-- The layout of the elements of a list. -/
def inner : Layout → Layout
  | .compact => .compact
  | .indented level => .indented (level + 1)

end Layout

namespace Form

/-- A text between quotes. -/
def string (text : String) : List Char :=
  ['"'] ++ text.toList.flatMap (Text.escapeChar ['"', '\'']) ++ ['"']

/-- A number in decimal digits. -/
def number (n : Nat) : List Char := Nat.toDigits 10 n

/-- A truth value. -/
def boolean (b : Bool) : List Char := if b then "true".toList else "false".toList

/-- A variant with its payload. -/
def variant (name : String) (payload : List Char) : List Char :=
  name.toList ++ ['('] ++ payload ++ [')']

/-- Forms with commas between them. -/
def commaSeparated : List (List Char) → List Char
  | [] => []
  | [form] => form
  | form :: rest => form ++ [','] ++ commaSeparated rest

/-- The blanks at the beginning of a line. -/
def indent (level : Nat) : List Char := List.replicate (4 * level) ' '

/-- A list of elements that are written already. -/
def list : Layout → List (List Char) → List Char
  | .compact, elements => ['['] ++ commaSeparated elements ++ [']']
  | .indented _, [] => ['[', ']']
  | .indented level, elements =>
      ['[', '\n'] ++ elements.flatMap (fun form => indent (level + 1) ++ form ++ [',', '\n']) ++
        indent level ++ [']']

/-- A tuple of elements that are written already. -/
def tuple (elements : List (List Char)) : List Char :=
  ['('] ++ commaSeparated elements ++ [')']

/-- A record of named fields that are written already. -/
def record (fields : List (String × List Char)) : List Char :=
  ['('] ++ commaSeparated (fields.map fun field => field.1.toList ++ [':'] ++ field.2) ++ [')']

end Form

namespace Nesting

/-- The nesting of a variant with a payload of the given nesting. -/
def variant (payload : Nat) : Nat := 1 + payload

/-- The nesting of a list or tuple with elements of the given nestings. -/
def list : List Nat → Nat
  | [] => 1
  | elements => 2 + elements.foldl max 0

end Nesting

end Railroad.Ron
