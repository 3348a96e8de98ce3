import Railroad.Ron.Reader
import Railroad.Ron.Writer
set_option autoImplicit false

/-!
# Reading past a value in RON

A value whose meaning does not matter can be passed over. It may be of any kind: a truth value, a
number, a character, a text, an option, a list, a map, or a unit, tuple or record with or without a
name.
-/

namespace Railroad.Ron.Reader

/-- Takes a word if it comes next and does not go on behind that, and says whether it did. -/
def acceptWord (word : String) : Reader Bool := fun cs =>
  match word.toList.isPrefixOf? cs with
  | some tail => .ok (if (tail.head?.map isIdentChar).getD false then (false, cs) else (true, tail))
  | none => .ok (false, cs)

/-- Takes one of several words. -/
def acceptWordOf : List String → Reader Bool
  | [] => return false
  | word :: words => do
      if ← acceptWord word then return true else acceptWordOf words

/-! ## Numbers and characters -/

/-- Whether a character is one of the signs of a number. -/
def isSign (c : Char) : Bool := c == '+' || c == '-'

/-- Whether the digits of an integer may contain a character. -/
def isIntegerChar (c : Char) : Bool := Text.isHexDigit c || c == '_'

/-- Whether a number with a fraction or an exponent may contain a character. An underscore is taken
for a part of the number, but then it is an error. -/
def isFloatChar (c : Char) : Bool :=
  c.isDigit || c == 'e' || c == 'E' || c == '.' || isSign c || c == '_'

/-- A number without its sign. -/
def withoutSign : List Char → List Char
  | [] => []
  | c :: cs => if isSign c then cs else c :: cs

/-- Whether a text is an exponent, or empty. -/
def isExponent : List Char → Bool
  | [] => true
  | c :: cs =>
      let digits := withoutSign cs
      (c == 'e' || c == 'E') && !digits.isEmpty && digits.all Char.isDigit

/-- Whether a text is a decimal number: perhaps a sign, digits with perhaps a point before, between
or behind them, and perhaps an exponent. -/
def isDecimal (text : List Char) : Bool :=
  let unsigned := withoutSign text
  let whole := unsigned.takeWhile Char.isDigit
  match unsigned.dropWhile Char.isDigit with
  | '.' :: tail =>
      !(whole.isEmpty && (tail.takeWhile Char.isDigit).isEmpty) &&
        isExponent (tail.dropWhile Char.isDigit)
  | tail => !whole.isEmpty && isExponent tail

/-- A number with a fraction or an exponent. -/
def float : Reader Unit := do
  let digits := (← rest).takeWhile isFloatChar
  if digits.contains '_' then
    let _ ← takeWhile fun c => isFloatChar c && c != '_'
    stop .underscoreInFloat
  else
    let _ ← accept digits
    if isDecimal digits then return () else stop .expectedFloat

/-- An integer of 64 bits, which a sign makes one below or above zero. -/
def integer : Reader Unit := do
  let _ ←
    if ← accept ['+'] then number 9223372036854775808
    else if ← accept ['-'] then number 9223372036854775809
    else number64

/-- A number of any kind. One that is no integer, or too large for one, is read as a decimal
number. -/
def anyNumber : Reader Unit := do
  let cs ← rest
  let unsigned := withoutSign cs
  if (unsigned.takeWhile isIntegerChar).length < (unsigned.takeWhile isFloatChar).length then float
  else match integer cs with
    | .ok (_, tail) => set tail
    | .error _ => float

/-- A character between single quotes, which may be written after a backslash. -/
def character : Reader Unit := do
  require '\'' .expectedCharacter
  match ← rest with
  | [] => stop .eof
  | '\\' :: tail =>
      set tail
      let _ ← escaped
      require '\'' .expectedCharacter
  | c :: '\'' :: tail => if c == '\'' then stop .expectedCharacter else set tail
  | _ => stop .expectedCharacter

/-! ## Values of any kind -/

/-- Whether what stands in parentheses is a tuple: it does not begin with a name and a colon. -/
def isTuple : Reader Bool := do
  gaps
  match ident (← rest) with
  | .error _ => return true
  | .ok (_, tail) =>
      set tail
      gaps
      match ← peek? with
      | none => stop .eof
      | some c => return c != ':'

/-- Entries in front of a closing bracket, each made up of two elements with a colon between
them. -/
def entries (closing : Char) (element : Reader Unit) : Reader Unit :=
  each closing (fun _ => do
    element
    gaps
    require ':' .expectedMapColon
    gaps
    element) ()

/-- The parentheses of a tuple or a record, if there are any. -/
def fieldsIfAny (budget : Nat) (element : Reader Unit) : Reader Unit := do
  match ← rest with
  | '(' :: inside =>
      match isTuple inside with
      | .error fault => stop fault.error
      | .ok (tuple, _) =>
          set inside
          nested budget
            (if tuple then each ')' (fun _ => element) () else entries ')' element)
          require ')' .expectedStructLikeEnd
  | _ => return ()

/-- What is in an option, in parentheses. -/
def optionPayload (budget : Nat) (inside : Reader Unit) : Reader Unit := do
  gaps
  require '(' .expectedOption
  gaps
  nested budget inside
  let _ ← comma
  require ')' .expectedOptionEnd

/-- A value of any kind, given the readers for what is in an option and for an element of a list, a
map, a tuple or a record. -/
def anyValueOf (budget : Nat) (inside element : Reader Unit) : Reader Unit := do
  if ← acceptWordOf ["true", "false"] then return ()
  else if ← acceptWord "Some" then optionPayload budget inside
  else if ← acceptWord "None" then return ()
  else if ← accept ['(', ')'] then return ()
  else if ← acceptWordOf ["inf", "-inf", "NaN"] then return ()
  else match ident (← rest) with
    | .ok (_, tail) =>
        set tail
        gaps
        fieldsIfAny budget element
    | .error _ =>
        match ← peek? with
        | none => stop .eof
        | some c =>
            if c == '(' then fieldsIfAny budget element
            else if c == '[' then
              let _ ← list budget element
            else if c == '{' then
              let _ ← accept ['{']
              nested budget (entries '}' element)
              require '}' .expectedMapEnd
            else if c.isDigit || isSign c then anyNumber
            else if c == '.' then float
            else if c == '"' || c == 'r' then
              let _ ← string
            else if c == '\'' then character
            else stop (.unexpectedByte (firstByte c))

/-- A value of any kind, which may be nested as deeply as `budget` allows. An option takes one from
the budget for what is in it. Brackets take one, and each element between them one more. -/
def anyValue : Nat → Reader Unit
  | 0, cs => anyValueOf 0 (stop .exceededRecursionLimit) (stop .exceededRecursionLimit) cs
  | 1, cs => anyValueOf 1 (anyValue 0) (stop .exceededRecursionLimit) cs
  | budget + 2, cs => anyValueOf (budget + 2) (anyValue (budget + 1)) (anyValue budget) cs

end Railroad.Ron.Reader
