set_option autoImplicit false

/-!
# Identifiers in RON

An identifier is plain or raw. A plain one begins with a letter or an underscore and goes on with
letters, digits and underscores. A raw one stands behind `r#` and may also contain a full stop, a
plus sign or a hyphen, in any place. The letters and digits are those of ASCII.
-/

namespace Railroad.Ron

/-- Whether an identifier may begin with a character. -/
def isIdentStart (c : Char) : Bool := c.isAlpha || c == '_'

/-- Whether an identifier may contain a character. -/
def isIdentChar (c : Char) : Bool := c.isAlphanum || c == '_'

/-- Whether a raw identifier may contain a character. -/
def isRawChar (c : Char) : Bool := isIdentChar c || c == '.' || c == '+' || c == '-'

/-- Whether a name can be written as a plain identifier. -/
def isPlain : List Char → Bool
  | [] => false
  | c :: cs => isIdentStart c && cs.all isIdentChar

end Railroad.Ron
