import Railroad.Diagram.Basic
import Railroad.Text.Blank
import Railroad.Text.Hex
set_option autoImplicit false

/-!
# Diagrams as expressions

A diagram is written as the expression that builds it with the constructors of the railroad-diagrams
library: `Sequence(Terminal("a"), NonTerminal("B"))`. A choice names its first member as the
default. Texts are written as string literals in which quotes, backslashes and control characters
are escaped.
-/

namespace Railroad.Diagram

/-- How a character is written in a string literal of an expression. -/
def literalChar (c : Char) : List Char :=
  match c with
  | '"' => ['\\', '"']
  | '\\' => ['\\', '\\']
  | '\n' => ['\\', 'n']
  | '\r' => ['\\', 'r']
  | '\t' => ['\\', 't']
  | _ =>
      if Text.isControl c then
        let digits := Text.hexDigits c.toNat
        ['\\', 'u'] ++ List.replicate (4 - digits.length) '0' ++ digits
      else [c]

/-- A text as a string literal of an expression. -/
def literalChars (text : String) : List Char :=
  ['"'] ++ text.toList.flatMap literalChar ++ ['"']

/-- The call of a constructor with the given arguments. -/
def callChars (constructor : String) (arguments : List Char) : List Char :=
  constructor.toList ++ ['('] ++ arguments ++ [')']

mutual

/-- The expression that builds a diagram. -/
def exprChars : Diagram → List Char
  | .terminal text => callChars "Terminal" (literalChars text)
  | .nonTerminal name => callChars "NonTerminal" (literalChars name)
  | .sequence parts => callChars "Sequence" (argumentChars parts)
  | .choice members => callChars "Choice" (['0', ',', ' '] ++ argumentChars members)
  | .optional body => callChars "Optional" (exprChars body)
  | .zeroOrMore body => callChars "ZeroOrMore" (exprChars body)
  | .oneOrMore body => callChars "OneOrMore" (exprChars body)

/-- The expressions of several diagrams, with commas between them. -/
def argumentChars : List Diagram → List Char
  | [] => []
  | [d] => exprChars d
  | d :: rest => exprChars d ++ [',', ' '] ++ argumentChars rest

end

/-- The expression that builds a diagram. -/
def expr (d : Diagram) : String := String.ofList (exprChars d)

/-- The expression of a complete drawing, in which the diagram is wrapped once more. -/
def drawingExpr (d : Diagram) : String :=
  String.ofList (callChars "Diagram" (exprChars d))

end Railroad.Diagram
