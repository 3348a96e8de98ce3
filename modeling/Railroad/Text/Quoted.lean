import Railroad.Text.Hex
import Railroad.Text.Unprintable
set_option autoImplicit false

/-!
# Quoting

How a character is written between quotes in a message or in a stored text. Five characters have a
name of their own after a backslash, a quote of the format is written after a backslash, a character
that would not be seen is written by its code point in lower-case hexadecimal digits, and every
other character stands for itself.
-/

namespace Railroad.Text

/-- The letter that names a character after a backslash. -/
def escapeLetter? : Char → Option Char
  | '\x00' => some '0'
  | '\t' => some 't'
  | '\n' => some 'n'
  | '\r' => some 'r'
  | '\\' => some '\\'
  | _ => none

/-- A character written by its code point. -/
def codePointEscape (c : Char) : List Char :=
  ['\\', 'u', '{'] ++ hexDigits c.toNat ++ ['}']

/-- How a character is written between quotes, where `quotes` are the characters that would end the
quotation. -/
def escapeChar (quotes : List Char) (c : Char) : List Char :=
  match escapeLetter? c with
  | some letter => ['\\', letter]
  | none =>
      if c ∈ quotes then ['\\', c]
      else if isUnprintable c then codePointEscape c
      else [c]

/-- A character between single quotes. -/
def quotedChar (c : Char) : List Char :=
  ['\''] ++ escapeChar ['\''] c ++ ['\'']

end Railroad.Text
