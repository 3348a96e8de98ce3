import Railroad.Notation.Tree
set_option autoImplicit false

/-!
# Writing trees as grammar texts

Every part of a tree has a written form in the notation itself, with one blank where blanks are
needed and no comments. Spans play no role in it.
-/

namespace Railroad.Notation

/-- Written forms one after the other with a separator between them. -/
def joinChars (separator : List Char) : List (List Char) → List Char
  | [] => []
  | [form] => form
  | form :: rest => form ++ separator ++ joinChars separator rest

/-- The written form of a name. -/
def Name.chars (name : Name) : List Char := name.text.toList

/-- The written form of a string, in its own quotes. -/
def StringLiteral.chars (literal : StringLiteral) : List Char :=
  literal.quote :: literal.value.toList ++ [literal.quote]

/-- The written form of a character code. -/
def CharCode.chars (code : CharCode) : List Char := '#' :: 'x' :: code.hex.toList

/-- The written form of a member of a character class. -/
def ClassItem.chars : ClassItem → List Char
  | .char c => [c]
  | .range first last => [first, '-', last]
  | .code c => c.chars
  | .codeRange first last => first.chars ++ ['-'] ++ last.chars

/-- The written form of a character class. -/
def CharClass.chars (cls : CharClass) : List Char :=
  '[' :: (if cls.negated then ['^'] else []) ++ cls.items.flatMap ClassItem.chars ++ [']']

/-- The written form of a link. -/
def Link.chars (link : Link) : List Char := '[' :: link.target.toList ++ [']']

mutual

/-- The written form of a primary. -/
def Primary.chars : Primary → List Char
  | .name n => n.chars
  | .string s => s.chars
  | .code c => c.chars
  | .charClass c => c.chars
  | .group c => '(' :: c.chars ++ [')']

/-- The written form of an item. -/
def Item.chars : Item → List Char
  | ⟨primary, cardinality, _⟩ => primary.chars ++ (cardinality.map Cardinality.mark).toList

/-- The written form of a branch. -/
def Branch.chars : Branch → List Char
  | .sequence items _ => joinChars [' '] (Item.charsEach items)
  | .difference left right _ => left.chars ++ [' ', '-', ' '] ++ right.chars

/-- The written form of a choice. -/
def Choice.chars : Choice → List Char
  | ⟨branches, _⟩ => joinChars [' ', '|', ' '] (Branch.charsEach branches)

/-- The written forms of several items. -/
def Item.charsEach : List Item → List (List Char)
  | [] => []
  | item :: rest => item.chars :: Item.charsEach rest

/-- The written forms of several branches. -/
def Branch.charsEach : List Branch → List (List Char)
  | [] => []
  | branch :: rest => branch.chars :: Branch.charsEach rest

end

/-- The written form of a definition. -/
def Definition.chars : Definition → List Char
  | .choice c => c.chars
  | .link l => l.chars

/-- The written form of a production. -/
def Production.chars (production : Production) : List Char :=
  production.name.chars ++ [' ', ':', ':', '=', ' '] ++ production.definition.chars

/-- The written form of a grammar text, one production a line. -/
def Document.chars (document : Document) : List Char :=
  joinChars ['\n'] (document.productions.map Production.chars)

/-- A tree written as a grammar text. -/
def Document.print (document : Document) : String := String.ofList document.chars

/-- A definition written in the notation. -/
def Definition.print (definition : Definition) : String := String.ofList definition.chars

/-- A character code written in the notation. -/
def CharCode.print (code : CharCode) : String := String.ofList code.chars

/-- A character class written in the notation. -/
def CharClass.print (cls : CharClass) : String := String.ofList cls.chars

end Railroad.Notation
