import Railroad.Ascending
set_option autoImplicit false

/-!
# Expectations

What would have allowed a text to go on at the place where it stopped making sense. Expectations
have an order, in which fixed pieces of text come last, so that a set of them is always listed in
the same way.
-/

namespace Railroad.Notation

/-- Something that a rule of the notation looked for and did not find. -/
inductive Expected where
  | name
  | stringLiteral
  | charCode
  | classItem
  | url
  | newline
  | endOfText
  | literal (text : String)
  deriving DecidableEq, Repr

namespace Expected

/-- Place of the kind of an expectation in the order of expectations. -/
def rank : Expected → Nat
  | .name => 0
  | .stringLiteral => 1
  | .charCode => 2
  | .classItem => 3
  | .url => 4
  | .newline => 5
  | .endOfText => 6
  | .literal _ => 7

/-- Expectations compare by kind, and fixed pieces of text by their characters. -/
def compare : Expected → Expected → Ordering
  | .literal a, .literal b => Ord.compare a b
  | a, b => Ord.compare a.rank b.rank

instance : Ord Expected := ⟨Expected.compare⟩

/-- How a message names an expectation. -/
def message : Expected → String
  | .name => "name"
  | .stringLiteral => "string literal"
  | .charCode => "char code"
  | .classItem => "char class item"
  | .url => "URL"
  | .newline => "newline"
  | .endOfText => "end of input"
  | .literal text => "'" ++ text ++ "'"

end Expected

end Railroad.Notation
