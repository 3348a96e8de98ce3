set_option autoImplicit false

/-!
# Ranges of code points

A class of characters is written down as a list of closed ranges of code points in ascending order.
Membership stops at the first range that begins beyond the code point, so that the answer for a
small code point does not depend on the length of the table.
-/

namespace Railroad.Text

/-- Closed ranges of code points, each with its first and its last member, in ascending order. -/
abbrev CodeRanges := List (Nat × Nat)

/-- Whether a code point lies in one of the ranges. -/
def CodeRanges.hasCode (n : Nat) : CodeRanges → Bool
  | [] => false
  | (first, last) :: rest =>
      if n < first then false
      else if n ≤ last then true
      else CodeRanges.hasCode n rest

/-- Whether a character lies in one of the ranges. -/
def CodeRanges.contains (ranges : CodeRanges) (c : Char) : Bool :=
  CodeRanges.hasCode c.toNat ranges

end Railroad.Text
