import Railroad.Ron.Identifier
import Railroad.Text.Quoted
set_option autoImplicit false

/-!
# Errors of reading RON

Why a text is not the written form of a value of the wanted kind, with the message about each cause.
-/

namespace Railroad.Ron

/-- What is wrong with a backslash in a text. -/
inductive EscapeFault where
  | unknownLetter
  | notHexadecimal
  | noOpeningBrace
  | noDigits
  | noClosingBrace
  | noCharacter
  deriving DecidableEq, Repr

/-- The message about a faulty backslash. -/
def EscapeFault.message : EscapeFault → String
  | .unknownLetter => "Unknown escape character"
  | .notHexadecimal => "Non-hex digit found"
  | .noOpeningBrace => "Missing \x7b in Unicode escape"
  | .noDigits => "Expected 1-6 digits, got 0 digits in Unicode escape"
  | .noClosingBrace => "No \x7d at the end of Unicode escape"
  | .noCharacter => "Not a valid char"

/-- Why a text could not be read, or a value could not be written. -/
inductive ReadError where
  | eof
  | expectedArray
  | expectedAttribute
  | expectedAttributeEnd
  | expectedBoolean
  | expectedCharacter
  | expectedComma
  | expectedFloat
  | expectedIdentifier
  | expectedInteger
  | expectedMapColon
  | expectedMapEnd
  | expectedNamedStructLike (name : String)
  | expectedOption
  | expectedOptionEnd
  | expectedStructLike
  | expectedStructLikeEnd
  | expectedString
  | expectedStringEnd
  | expectedDifferentStructName (wanted found : String)
  | expectedPair (found : Nat)
  | duplicateField (type field : String)
  | missingField (type field : String)
  | noSuchExtension (found : String)
  | noSuchField (type : String) (fields : String × String) (found : String)
  | noSuchVariant (type : String) (variants : List String) (found : String)
  | integerOutOfBounds
  | underscoreInFloat
  | underscoreAtBeginning
  | invalidEscape (fault : EscapeFault)
  | suggestRawIdentifier (found : String)
  | trailingCharacters
  | unclosedBlockComment
  | unexpectedByte (byte : Char)
  | exceededRecursionLimit
  | tooFewAlternatives (found : Nat)
  | durationOverflow
  deriving DecidableEq, Repr

namespace ReadError

/-- A name in backticks. -/
def backticked (name : String) : String := "`" ++ name ++ "`"

/-- A name as messages quote it, which is the way it has to be written: one that only a raw
identifier can be stands behind `r#`. -/
def quoted (name : String) : String :=
  if isPlain name.toList then backticked name else backticked ("r#" ++ name)

/-- The number of elements that a tuple was found to have. -/
def elementCount : Nat → String
  | 0 => "zero elements"
  | 1 => "one element"
  | n => toString n ++ " elements"

/-- The message about an error. -/
def message : ReadError → String
  | .eof => "Unexpected end of RON"
  | .expectedArray => "Expected opening `[`"
  | .expectedAttribute => "Expected an `#![enable(...)]` attribute"
  | .expectedAttributeEnd => "Expected closing `)]` after the enable attribute"
  | .expectedBoolean => "Expected boolean"
  | .expectedCharacter => "Expected char"
  | .expectedComma => "Expected comma"
  | .expectedFloat => "Expected float"
  | .expectedIdentifier => "Expected identifier"
  | .expectedInteger => "Expected integer"
  | .expectedMapColon => "Expected colon"
  | .expectedMapEnd => "Expected closing `\x7d`"
  | .expectedNamedStructLike name => "Expected opening `(` for struct " ++ quoted name
  | .expectedOption => "Expected option"
  | .expectedOptionEnd => "Expected closing `)`"
  | .expectedStructLike => "Expected opening `(`"
  | .expectedStructLikeEnd => "Expected closing `)`"
  | .expectedString => "Expected string"
  | .expectedStringEnd => "Expected end of string"
  | .expectedDifferentStructName wanted found =>
      "Expected struct " ++ quoted wanted ++ " but found " ++ quoted found
  | .expectedPair found =>
      "Expected a tuple of size 2 but found " ++ elementCount found ++ " instead"
  | .duplicateField type field =>
      "Unexpected duplicate field " ++ quoted field ++ " in " ++ quoted type
  | .missingField type field =>
      "Unexpected missing field " ++ quoted field ++ " in " ++ quoted type
  | .noSuchExtension found => "No RON extension named " ++ quoted found
  | .noSuchField type fields found =>
      "Unexpected field named " ++ quoted found ++ "in " ++ quoted type ++ ", expected either " ++
        quoted fields.1 ++ " or " ++ quoted fields.2 ++ " instead"
  | .noSuchVariant type variants found =>
      "Unexpected variant named " ++ quoted found ++ "in enum " ++ quoted type ++
        ", expected one of " ++ String.intercalate ", " (variants.map quoted) ++ " instead"
  | .integerOutOfBounds => "Integer is out of bounds"
  | .underscoreInFloat => "Unexpected underscore in float"
  | .underscoreAtBeginning => "Unexpected leading underscore in an integer"
  | .invalidEscape fault => fault.message
  | .suggestRawIdentifier found =>
      "Found invalid std identifier " ++ backticked found ++ ", try the raw identifier " ++
        backticked ("r#" ++ found) ++ " instead"
  | .trailingCharacters => "Non-whitespace trailing characters"
  | .unclosedBlockComment => "Unclosed block comment"
  | .unexpectedByte byte => "Unexpected byte " ++ String.ofList (Text.quotedChar byte)
  | .exceededRecursionLimit =>
      "Exceeded recursion limit, try increasing the limit and using `serde_stacker` " ++
        "to protect against a stack overflow"
  | .tooFewAlternatives found =>
      "Choice must have at least two distinct members, not " ++ toString found
  | .durationOverflow => "overflow deserializing Duration"

end ReadError

/-- An error with the line and column at which reading stopped, both counted from 1. A column is one
byte wide. -/
structure ReadFailure where
  error : ReadError
  line : Nat
  column : Nat
  deriving DecidableEq, Repr

/-- The message about an error together with its place. -/
def ReadFailure.message (failure : ReadFailure) : String :=
  toString failure.line ++ ":" ++ toString failure.column ++ ": " ++ failure.error.message

end Railroad.Ron
