import Railroad.Text.Ligature
set_option autoImplicit false

/-!
# Display width

The number of columns that a text takes on a screen with fixed columns. It is the sum over its
characters, but for those that are drawn as one.
-/

namespace Railroad.Text

/-- The columns of a text, and what it begins with. -/
def measure : List Char → Int × Lead
  | [] => (0, Lead.plain)
  | c :: cs =>
      let (columns, lead) := measure cs
      let (more, longer) := lead.push c
      (columns + more, longer)

/-- Columns taken by a text. -/
def width (text : List Char) : Nat := (measure text).1.toNat

end Railroad.Text
