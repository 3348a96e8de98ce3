import Railroad.Ron.ReadError
import Railroad.Ron.Writer
import Railroad.Text.Utf8
set_option autoImplicit false

/-!
# Reading RON

A reader takes the written form of a value off the beginning of a text and leaves the rest, or stops
with an error at some place. Here are the readers for the parts of which all values are made up:
blanks and comments, identifiers, texts, numbers and truth values, and the brackets around variants,
lists and pairs.
-/

namespace Railroad.Ron

/-- An error and what is left of the text at the place where reading stopped. If `inside` is set,
the first byte of what is left has been taken as well, without the rest of its character. -/
structure Stop where
  error : ReadError
  rest : List Char
  inside : Bool := false
  deriving DecidableEq, Repr

/-- The stop behind the first byte of a text, which has to have one. -/
def Stop.behindByte (error : ReadError) : List Char → Stop
  | [] => ⟨.eof, [], false⟩
  | c :: tail => if c.utf8Size = 1 then ⟨error, tail, false⟩ else ⟨error, c :: tail, true⟩

/-- Takes the written form of a value off the beginning of a text. -/
abbrev Reader (α : Type) := StateT (List Char) (Except Stop) α

namespace Reader

variable {α β σ : Type}

/-- What is left of the text. -/
def rest : Reader (List Char) := get

/-- Stops at the current place. -/
def stop (error : ReadError) : Reader α := fun cs => .error ⟨error, cs, false⟩

/-- Stops behind the first byte of what is left. -/
def stopBehindByte (error : ReadError) : Reader α := fun cs => .error (.behindByte error cs)

/-- The next character, which is left in place. -/
def peek? : Reader (Option Char) := do return (← rest).head?

/-- Takes a piece of text if it comes next, and says whether it did. -/
def accept (text : List Char) : Reader Bool := fun cs =>
  match text.isPrefixOf? cs with
  | some tail => .ok (true, tail)
  | none => .ok (false, cs)

/-- Takes a character, or stops in front of what is there instead. -/
def require (c : Char) (error : ReadError) : Reader Unit := do
  if ← accept [c] then return () else stop error

/-- Takes as many characters in a row as satisfy a condition. -/
def takeWhile (condition : Char → Bool) : Reader (List Char) := fun cs =>
  .ok (cs.takeWhile condition, cs.dropWhile condition)

/-! ## Blanks and comments -/

/-- Whether a character is a blank between values. -/
def isGap (c : Char) : Bool := c == ' ' || c == '\t' || c == '\n' || c == '\r'

/-- The first byte of the encoding of a character, as a character of its own. -/
def firstByte (c : Char) : Char :=
  match String.utf8EncodeChar c with
  | [] => c
  | byte :: _ => Char.ofNat byte.toNat

/-- Where a place between two values lies: outside of comments, in a comment that ends with its
line, or in a block comment, inside of which `enclosing` more have begun and not ended. -/
inductive GapPlace where
  | outside
  | lineComment
  | blockComment (enclosing : Nat)

/-- What follows the blanks and comments at the beginning of a text. -/
def afterGaps : GapPlace → List Char → Except Stop (List Char)
  | .outside, [] => .ok []
  | .outside, ['/'] => .error ⟨.eof, [], false⟩
  | .outside, '/' :: '/' :: cs => afterGaps .lineComment cs
  | .outside, '/' :: '*' :: cs => afterGaps (.blockComment 0) cs
  | .outside, '/' :: c :: cs => .error (.behindByte (.unexpectedByte (firstByte c)) (c :: cs))
  | .outside, c :: cs => if isGap c then afterGaps .outside cs else .ok (c :: cs)
  | .lineComment, [] => .ok []
  | .lineComment, c :: cs =>
      if c = '\n' then afterGaps .outside cs else afterGaps .lineComment cs
  | .blockComment _, [] => .error ⟨.unclosedBlockComment, [], false⟩
  | .blockComment enclosing, '/' :: '*' :: cs => afterGaps (.blockComment (enclosing + 1)) cs
  | .blockComment 0, '*' :: '/' :: cs => afterGaps .outside cs
  | .blockComment (enclosing + 1), '*' :: '/' :: cs => afterGaps (.blockComment enclosing) cs
  | .blockComment enclosing, _ :: cs => afterGaps (.blockComment enclosing) cs

/-- Takes blanks and comments. -/
def gaps : Reader Unit := fun cs => (afterGaps .outside cs).map fun tail => ((), tail)

/-- Takes a comma if there is one, with blanks around it, and says whether there was. -/
def comma : Reader Bool := do
  gaps
  if ← accept [','] then
    gaps
    return true
  else return false

/-! ## Identifiers -/

/-- An identifier that is written as it is. One that goes on with characters of raw identifiers
should have been written as such. -/
def plainIdent : Reader String := do
  let cs ← rest
  let raw := cs.takeWhile isRawChar
  let plain := cs.takeWhile isIdentChar
  if plain.length < raw.length then stop (.suggestRawIdentifier (String.ofList raw))
  else return String.ofList (← takeWhile isIdentChar)

/-- An identifier, which is raw after `r#`. -/
def ident : Reader String := do
  match ← rest with
  | [] => stop .eof
  | ['r'] => stop .eof
  | 'r' :: '"' :: _ => stop .expectedIdentifier
  | 'r' :: '#' :: tail =>
      if (tail.head?.map isRawChar).getD false then
        let _ ← accept ['r', '#']
        return String.ofList (← takeWhile isRawChar)
      else stop .expectedIdentifier
  | c :: tail =>
      if isIdentStart c then plainIdent
      else if isRawChar c then
        stop (.suggestRawIdentifier (String.ofList ((c :: tail).takeWhile isRawChar)))
      else stop .expectedIdentifier

/-! ## Texts -/

/-- A hexadecimal digit. -/
def hexDigit : Reader Nat := do
  match ← peek? with
  | none => stop .eof
  | some c =>
      match Text.hexDigit? c with
      | some digit =>
          let _ ← accept [c]
          return digit
      | none => stopBehindByte (.invalidEscape .notHexadecimal)

/-- Takes a character, or stops behind the first byte of what is there instead. -/
def requireInEscape (c : Char) (fault : EscapeFault) : Reader Unit := do
  if ← accept [c] then return () else stopBehindByte (.invalidEscape fault)

/-- At most so many hexadecimal digits in front of a closing brace. -/
def digitsInBraces : Nat → Reader (List Nat)
  | 0 => return []
  | left + 1 => do
      if (← peek?) == some '}' then return []
      else
        let digit ← hexDigit
        let more ← digitsInBraces left
        return digit :: more

/-- The character whose code point stands in braces, in up to six hexadecimal digits. -/
def bracedCode : Reader Char := do
  requireInEscape '{' .noOpeningBrace
  let digits ← digitsInBraces 6
  if digits.isEmpty then stop (.invalidEscape .noDigits)
  else
    requireInEscape '}' .noClosingBrace
    match Text.charOfCode? (digits.foldl (fun n digit => 16 * n + digit) 0) with
    | some c => return c
    | none => stop (.invalidEscape .noCharacter)

/-- The character that a single letter after a backslash stands for. -/
def escapeValue? : Char → Option Char
  | '\'' => some '\''
  | '"' => some '"'
  | '\\' => some '\\'
  | 'n' => some '\n'
  | 'r' => some '\r'
  | 't' => some '\t'
  | '0' => some '\x00'
  | _ => none

/-- The character that is written after a backslash: by a single letter, by two hexadecimal digits
or by a code point in braces. -/
def escaped : Reader Char := do
  match ← rest with
  | [] => stop .eof
  | letter :: tail =>
      match escapeValue? letter with
      | some c =>
          set tail
          return c
      | none =>
          if letter == 'x' then
            set tail
            let high ← hexDigit
            let low ← hexDigit
            return Char.ofNat (16 * high + low)
          else if letter == 'u' then
            set tail
            bracedCode
          else stopBehindByte (.invalidEscape .unknownLetter)

/-- Whether a character ends a run of characters that stand for themselves. -/
def isQuoteOrBackslash (c : Char) : Bool := c == '"' || c == '\\'

/-- The rest of a text whose opening quote has been taken, with at most one backslash for each
character of `budget`. -/
def quotedWithin : List Char → Reader (List Char)
  | [] => stop .expectedStringEnd
  | _ :: budget => do
      let cs ← rest
      match cs.dropWhile (!isQuoteOrBackslash ·) with
      | [] => stop .expectedStringEnd
      | '"' :: tail =>
          set tail
          return cs.takeWhile (!isQuoteOrBackslash ·)
      | _ :: tail =>
          set tail
          let c ← escaped
          let more ← quotedWithin budget
          return cs.takeWhile (!isQuoteOrBackslash ·) ++ c :: more

/-- The rest of a text whose opening quote has been taken. -/
def quotedTail : Reader (List Char) := do quotedWithin (← rest)

/-- What stands in front of a quote with so many hashes behind it, and what follows them. -/
def splitRaw (hashes : Nat) : List Char → Option (List Char × List Char)
  | [] => none
  | c :: cs =>
      match ('"' :: List.replicate hashes '#').isPrefixOf? (c :: cs) with
      | some tail => some ([], tail)
      | none => (splitRaw hashes cs).map fun (inside, tail) => (c :: inside, tail)

/-- The rest of a raw text whose `r` has been taken: it ends at a quote with as many hashes behind
it as are in front of it. -/
def rawTail : Reader (List Char) := do
  let hashes ← takeWhile (· == '#')
  require '"' .expectedString
  match splitRaw hashes.length (← rest) with
  | some (inside, tail) =>
      set tail
      return inside
  | none => stop .expectedStringEnd

/-- A text, with backslashes or raw. -/
def string : Reader String := do
  if ← accept ['"'] then
    return String.ofList (← quotedTail)
  else if ← accept ['r'] then
    return String.ofList (← rawTail)
  else stop .expectedString

/-! ## Numbers and truth values -/

/-- Adds the digits of a number in the given base, where underscores do not count, to what has been
read of it. The number has to stay below `bound`. -/
def digitsValue (base bound : Nat) : Nat → List Char → Except ReadError Nat
  | n, [] => .ok n
  | n, c :: cs =>
      if c = '_' then digitsValue base bound n cs
      else if bound ≤ n * base then .error .integerOutOfBounds
      else match Text.hexDigit? c with
        | none => .error .expectedInteger
        | some digit =>
            if base ≤ digit then .error .expectedInteger
            else if bound ≤ n * base + digit then .error .integerOutOfBounds
            else digitsValue base bound (n * base + digit) cs

/-- The base that is announced in front of the digits of a number. -/
def base : Reader Nat := do
  if ← accept ['0', 'x'] then return 16
  else if ← accept ['0', 'o'] then return 8
  else if ← accept ['0', 'b'] then return 2
  else return 10

/-- A number below `bound`. -/
def number (bound : Nat) : Reader Nat := do
  let radix ← base
  match (← rest).takeWhile (fun c => Text.isHexDigit c || c == '_') with
  | [] => stop .expectedInteger
  | '_' :: _ => stop .underscoreAtBeginning
  | digits =>
      let _ ← accept digits
      match digitsValue radix bound 0 digits with
      | .ok n => return n
      | .error error => stop error

/-- A number of 32 bits. -/
def number32 : Reader Nat := number 4294967296

/-- A number of 64 bits. -/
def number64 : Reader Nat := number 18446744073709551616

/-- A truth value. -/
def boolean : Reader Bool := do
  if ← accept "true".toList then return true
  else if ← accept "false".toList then return false
  else stop .expectedBoolean

/-! ## Brackets -/

/-- What a variant holds, in parentheses. -/
def payload (inside : Reader α) : Reader α := do
  gaps
  require '(' .expectedStructLike
  gaps
  let a ← inside
  let _ ← comma
  require ')' .expectedStructLikeEnd
  return a

/-- Whether another element comes before the closing bracket, where all elements but the first have
to follow a comma. -/
def hasElement (closing : Char) (afterComma : Bool) : Reader Bool := do
  gaps
  match ← peek? with
  | none => stop .eof
  | some c =>
      if c == closing then return false
      else if afterComma then return true
      else stop .expectedComma

/-- Runs a step for each of the elements in front of a closing bracket, with at most one for each
character of `budget`. -/
def eachWithin (closing : Char) (step : σ → Reader σ) :
    List Char → σ → (afterComma : Bool) → Reader σ
  | budget, state, afterComma => do
      if ← hasElement closing afterComma then
        match budget with
        | [] => stop .expectedComma
        | _ :: budget =>
            let next ← step state
            let found ← comma
            eachWithin closing step budget next found
      else return state

/-- Runs a step for each of the elements in front of a closing bracket. -/
def each (closing : Char) (step : σ → Reader σ) (state : σ) : Reader σ := do
  eachWithin closing step (← rest) state true

/-- Goes on with what is nested inside a value, if `budget` still allows it. -/
def nested (budget : Nat) (inside : Reader α) : Reader α :=
  if budget = 0 then stop .exceededRecursionLimit else inside

/-- A list, whose elements may be nested as deeply as `budget` allows for the list. -/
def list (budget : Nat) (element : Reader α) : Reader (List α) := do
  require '[' .expectedArray
  nested budget do
    let reversed ← each ']' (fun done => do return (← element) :: done) []
    require ']' .expectedArray
    return reversed.reverse

/-- A pair, whose elements may be nested as deeply as `budget` allows for the pair. -/
def pair (budget : Nat) (first : Reader α) (second : Reader β) : Reader (α × β) := do
  require '(' .expectedStructLike
  nested budget do
    if ← hasElement ')' true then
      let a ← first
      let found ← comma
      if ← hasElement ')' found then
        let b ← second
        let _ ← comma
        require ')' .expectedStructLikeEnd
        return (a, b)
      else stop (.expectedPair 1)
    else stop (.expectedPair 0)

end Reader

end Railroad.Ron
