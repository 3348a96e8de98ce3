import Railroad.Text.CodeRange
set_option autoImplicit false

/-!
# Blank and control characters

The two character classes that the notation itself refers to: the blanks, which no URL contains, and
the control characters, which no character class contains.
-/

namespace Railroad.Text

/-- The code points with the property `White_Space`. -/
def blankRanges : CodeRanges :=
  [(0x0009, 0x000D), (0x0020, 0x0020), (0x0085, 0x0085), (0x00A0, 0x00A0), (0x1680, 0x1680),
   (0x2000, 0x200A), (0x2028, 0x2029), (0x202F, 0x202F), (0x205F, 0x205F), (0x3000, 0x3000)]

/-- Whether a character is a blank. -/
def isBlank (c : Char) : Bool := blankRanges.contains c

/-- Whether a character is a control character: U+0000 to U+001F or U+007F to U+009F. -/
def isControl (c : Char) : Bool :=
  c.toNat ≤ 0x1F || (0x7F ≤ c.toNat && c.toNat ≤ 0x9F)

end Railroad.Text
