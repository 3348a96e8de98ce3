import Railroad.Notation.Parser
set_option autoImplicit false

/-!
# Reading at byte offsets

The rules of the notation once more, now as they are followed through the bytes of a text. A rule is
applied at an offset, looks at the text from there on, and says at which offset it ends, having
added up numbers of bytes: one for a dash or a quote, the length of a fixed text, the place where a
mark was found. Nothing about these offsets is taken for granted. A text that is cut, a rule that is
applied or ends elsewhere than between two characters, a rule that ends where it began, a span that
ends before it starts, a loop that is run through more often than there are characters, and groups
that are entered beyond all limits are faults (`Fault`), and a fault ends everything. What happened
so far is kept on the way (`Notes`): where a group is refused, the rules around it go on, without
entering any further group.
-/

namespace Railroad.Notation.Checked

/-- The rules that a reading consists of. -/
inductive Part where
  | skip | literal | comment
  | name | stringLiteral | charCode | classChar | classItem | charClass | link
  | group | primary | item | branch | choice
  | definition | production | separator | document | endOfText
  deriving DecidableEq, Repr

/-- Layout may be missing, and the end of the text takes up no room. All other rules take
something. -/
def Part.mayBeEmpty : Part → Bool
  | .skip | .endOfText => true
  | _ => false

/-- What may go wrong in a reading, whatever the text is. -/
inductive Fault where
  /-- The text is looked at from an offset that lies beyond it or within a character. -/
  | misplaced (offset : Nat)
  /-- The text is cut at two offsets of which one lies beyond it or within a character, or in the
  wrong order. -/
  | misplacedBounds (start stop : Nat)
  /-- A span would end before it starts. -/
  | backward (bounds : BackwardBounds)
  /-- A rule ends in front of where it began, or there although it has to take something. -/
  | stalled (part : Part) (start stop : Nat)
  /-- A group is left that was not entered. -/
  | unbalanced
  /-- A loop or a nesting of rules does not come to an end. -/
  | endless

/-- What has happened in a reading so far: its events, how many groups are open, and the parenthesis
of the first group that was refused. -/
structure Notes where
  events : List Event
  depth : Nat
  refused : Option Nat

/-- The notes with one more event. -/
def Notes.record (notes : Notes) (event : Event) : Notes :=
  { notes with events := notes.events ++ [event] }

/-- A rule that is applied at an offset. It yields a value and the offset where it ends if it
matches. -/
def Reader (α : Type) := List Char → Notes → Nat → Except Fault (Option (α × Nat) × Notes)

/-! ## Looking at the text -/

/-- The text from an offset on. -/
def restAt (src : List Char) (i : Nat) : Except Fault (List Char) :=
  match Text.dropBytes? i src with
  | some rest => .ok rest
  | none => .error (.misplaced i)

/-- The text between two offsets. -/
def textBetween (src : List Char) (i j : Nat) : Except Fault (List Char) :=
  match Text.slice? i j src with
  | some text => .ok text
  | none => .error (.misplacedBounds i j)

/-- The span between two offsets. -/
def spanBetween (i j : Nat) : Except Fault Span :=
  match Span.ofBounds i j with
  | .ok span => .ok span
  | .error bounds => .error (.backward bounds)

/-- How many bytes lie in front of the first occurrence of a mark. -/
def offsetOf? (mark : List Char) : List Char → Option Nat
  | [] => none
  | c :: cs => if mark.isPrefixOf (c :: cs) then some 0
    else (offsetOf? mark cs).map (c.utf8Size + ·)

/-! ## Combinations of rules -/

section Combinators

variable {α β : Type}

namespace Reader

protected def pure (a : α) : Reader α := fun _ notes i => .ok (some (a, i), notes)

protected def bind (reader : Reader α) (next : α → Reader β) : Reader β := fun src notes i => do
  match ← reader src notes i with
  | (none, notes) => .ok (none, notes)
  | (some (a, j), notes) => next a src notes j

instance : Monad Reader where
  pure := Reader.pure
  bind := Reader.bind

/-- The first rule, or the second at the same offset if the first does not match. -/
protected def orElse (reader other : Reader α) : Reader α := fun src notes i => do
  match ← reader src notes i with
  | (none, notes) => other src notes i
  | (some result, notes) => .ok (some result, notes)

instance : OrElse (Reader α) := ⟨fun reader other => reader.orElse (other ())⟩

end Reader

/-- The offset at which the rule is applied. -/
def here : Reader Nat := fun _ notes i => .ok (some (i, i), notes)

/-- Does not match, and leaves no trace of it. -/
def mismatch : Reader α := fun _ notes _ => .ok (none, notes)

/-- Does not match, for want of something. -/
def fail (expected : Expected) : Reader α := fun _ notes i =>
  .ok (none, notes.record (.failed i expected))

/-- A rule for which `expected` is missed if it does not match. -/
def expecting (expected : Expected) (reader : Reader α) : Reader α := reader <|> fail expected

/-- Matches nothing, and only where the given rule would match. -/
def lookahead (reader : Reader α) : Reader Unit := fun src notes i => do
  match ← reader src notes i with
  | (none, notes) => .ok (none, notes)
  | (some _, notes) => .ok (some ((), i), notes)

/-- A value if the rule matches, and otherwise nothing. -/
def perhaps (reader : Reader α) : Reader (Option α) := (some <$> reader) <|> return none

/-- A rule as often in a row as it matches, which has to be less than `rounds` times. -/
def manyWithin (reader : Reader α) : Nat → Reader (List α)
  | 0 => fun _ _ _ => .error .endless
  | rounds + 1 =>
      (do
        let a ← reader
        (a :: ·) <$> manyWithin reader rounds) <|> return []

/-- A rule as often in a row as it matches, which has to be at most once for each character. -/
def many (reader : Reader α) : Reader (List α) := fun src notes i =>
  manyWithin reader (src.length + 1) src notes i

/-- A rule with a name. The offsets at which it is applied and at which it ends are checked. -/
def part (part : Part) (reader : Reader α) : Reader α := fun src notes i => do
  let _ ← restAt src i
  match ← reader src notes i with
  | (none, notes) => .ok (none, notes)
  | (some (a, j), notes) =>
      let _ ← restAt src j
      if i < j ∨ part.mayBeEmpty = true ∧ i = j then .ok (some (a, j), notes)
      else .error (.stalled part i j)

/-- The span from an offset to the current one. -/
def spanFrom (start : Nat) : Reader Span := fun _ notes i => do
  let span ← spanBetween start i
  .ok (some (span, i), notes)

/-- The end of the text. -/
def atEnd : Reader Unit := fun src notes i =>
  if i = Text.byteLength src then .ok (some ((), i), notes) else .ok (none, notes)

/-- A character for which there is a value. Behind it the text goes on after `width` bytes. -/
def charFor (value? : Char → Option α) (width : Char → Nat) : Reader α := fun src notes i => do
  match ← restAt src i with
  | [] => .ok (none, notes)
  | c :: _ =>
      match value? c with
      | none => .ok (none, notes)
      | some value => .ok (some (value, i + width c), notes)

/-- A character that satisfies a condition. -/
def charWhere (condition : Char → Bool) : Reader Char :=
  charFor (fun c => if condition c then some c else none) Char.utf8Size

/-- A character of a single byte that satisfies a condition. -/
def byteWhere (condition : Char → Bool) : Reader Char :=
  charFor (fun c => if condition c then some c else none) fun _ => 1

/-- A fixed piece of text, which is missed if it does not come next. -/
def literal (text : String) : Reader Unit := part .literal fun src notes i => do
  let rest ← restAt src i
  if text.toList.isPrefixOf rest then .ok (some ((), i + Text.byteLength text.toList), notes)
  else .ok (none, notes.record (.failed i (.literal text)))

/-- What a pattern finds at the start of the text that is left, without the first `front` bytes of
it. -/
def found (pattern : List Char → Option (List Char)) (front : Nat) : Reader (List Char) :=
  fun src notes i => do
    match pattern (← restAt src i) with
    | none => .ok (none, notes)
    | some cs =>
        let j := i + Text.byteLength cs
        let text ← textBetween src (i + front) j
        .ok (some (text, j), notes)

/-- The text in front of the next occurrence of a mark. Behind the mark the text goes on, and if
there is none it is missed at the end of the text. -/
def charsUpTo (mark : String) : Reader (List Char) := fun src notes i => do
  match offsetOf? mark.toList (← restAt src i) with
  | none => .ok (none, notes.record (.failed (Text.byteLength src) (.literal mark)))
  | some length =>
      let j := i + length
      let text ← textBetween src i j
      .ok (some (text, j + Text.byteLength mark.toList), notes)

/-- A rule for what stands in the group whose parenthesis lies at an offset. Where as many groups
are open as may be, the group is refused, and from there on every other one too. -/
def enter (start : Nat) (reader : Reader α) : Reader α := fun src notes i =>
  match notes.refused with
  | some _ => .ok (none, notes)
  | none =>
      if notes.depth = maxNesting then .ok (none, { notes with refused := some start })
      else do
        let inner := { notes.record (.opened start) with depth := notes.depth + 1 }
        let (result, outer) ← reader src inner i
        if outer.depth = 0 then .error .unbalanced
        else .ok (result, { outer.record .closed with depth := outer.depth - 1 })

end Combinators

/-! ## Lexemes -/

/-- A comment. -/
def comment : Reader Unit := part .comment do
  let start ← here
  literal "/*"
  let _ ← charsUpTo "*/"
  let _ ← spanFrom start

/-- One blank, tab or comment, or one end of a line if `breaks` allows it. -/
def gap (breaks : Bool) : Reader Unit :=
  (do
    lookahead (charWhere (· == '/'))
    comment) <|>
  (do let _ ← charWhere fun c => c == ' ' || c == '\t' || (breaks && isLineEnd c))

/-- Any number of gaps. -/
def skip (breaks : Bool) : Reader Unit := part .skip do
  let _ ← many (gap breaks)

/-- At least one gap within a line. -/
def space : Reader Unit := do
  gap false
  skip false

/-- The longest name at the start of a text. -/
def namePattern : List Char → Option (List Char)
  | [] => none
  | c :: cs => if c.isUpper then some (c :: cs.takeWhile Char.isAlphanum) else none

/-- A name. -/
def name : Reader Name := part .name do
  let start ← here
  let chars ← expecting .name (found namePattern 0)
  let span ← spanFrom start
  return ⟨String.ofList chars, span⟩

/-- A string. Its quotes are single bytes. -/
def stringLiteral : Reader StringLiteral := part .stringLiteral do
  let start ← here
  let quote ← expecting .stringLiteral (byteWhere fun c => c == '"' || c == '\'')
  let value ← charsUpTo (String.singleton quote)
  let span ← spanFrom start
  return ⟨String.ofList value, quote, span⟩

/-- The longest character code at the start of a text. -/
def codePattern : List Char → Option (List Char)
  | '#' :: 'x' :: cs =>
      match cs.takeWhile Text.isHexDigit with
      | [] => none
      | digits => some ('#' :: 'x' :: digits)
  | _ => none

/-- A character code. The digits follow behind two bytes. -/
def charCode : Reader CharCode := part .charCode do
  let start ← here
  let digits ← expecting .charCode (found codePattern 2)
  let span ← spanFrom start
  return ⟨String.ofList digits, span⟩

/-- A character that stands for itself in a character class. -/
def classChar : Reader Char := part .classChar do
  expecting .classItem (charWhere fun c => c != ']' && !Text.isControl c)

/-- The dash between the bounds of a range. -/
def dash : Reader Unit := do
  let _ ← byteWhere (· == '-')

/-- A member of a character class. -/
def classItem : Reader ClassItem := part .classItem <|
  (do
    let first ← charCode
    dash
    let last ← charCode
    return .codeRange first last) <|>
  (do
    let first ← classChar
    dash
    let last ← classChar
    return .range first last) <|>
  (.code <$> charCode) <|>
  (.char <$> classChar)

/-- A character class. -/
def charClass : Reader CharClass := part .charClass do
  let start ← here
  literal "["
  let caret ← perhaps (byteWhere (· == '^'))
  let items ← many classItem
  if items.isEmpty then mismatch
  else
    literal "]"
    let span ← spanFrom start
    return ⟨caret.isSome, items, span⟩

/-- The longest address at the start of a text. -/
def urlPattern (cs : List Char) : Option (List Char) :=
  match cs.takeWhile isSchemeChar, cs.dropWhile isSchemeChar with
  | [], _ => none
  | scheme, ':' :: '/' :: '/' :: rest =>
      match rest.takeWhile isAddressChar with
      | [] => none
      | body => some (scheme ++ [':', '/', '/'] ++ body)
  | _, _ => none

/-- The address of a document. -/
def url : Reader String := do
  let chars ← expecting .url (found urlPattern 0)
  return String.ofList chars

/-- A link. -/
def link : Reader Link := part .link do
  let start ← here
  literal "["
  let address ← url
  let fragment ← perhaps do
    let _ ← byteWhere (· == '#')
    name
  literal "]"
  let span ← spanFrom start
  return ⟨address, fragment, span⟩

/-! ## From groups to documents -/

/-- A choice in parentheses. -/
def group (choice : Reader Choice) : Reader Choice := do
  let start ← here
  literal "("
  enter start <| part .group do
    skip false
    let within ← choice
    skip false
    literal ")"
    return within

/-- A primary. -/
def primary (group : Reader Choice) : Reader Primary := part .primary <|
  (.name <$> name) <|>
  (.string <$> stringLiteral) <|>
  (.code <$> charCode) <|>
  (.charClass <$> charClass) <|>
  (.group <$> group)

/-- A primary and possibly a mark, which is a single byte. -/
def itemOf (primary : Reader Primary) : Reader Item := part .item do
  let start ← here
  let body ← primary
  let mark ← perhaps (charFor Cardinality.ofMark? fun _ => 1)
  let span ← spanFrom start
  return ⟨body, mark, span⟩

/-- What follows the left side of a difference. -/
def differenceFrom (item : Reader Item) (start : Nat) (left : Item) : Reader Branch := do
  skip false
  literal "-"
  skip false
  let right ← item
  let span ← spanFrom start
  return .difference left right span

/-- What follows the first item of a sequence. -/
def sequenceFrom (item : Reader Item) (start : Nat) (first : Item) : Reader Branch := do
  let more ← many do
    space
    item
  let span ← spanFrom start
  return .sequence (first :: more) span

/-- A difference, or else a sequence. -/
def branch (item : Reader Item) : Reader Branch := part .branch do
  let start ← here
  let first ← item
  differenceFrom item start first <|> sequenceFrom item start first

/-- Branches with bars between them. -/
def choice (item : Reader Item) : Reader Choice := part .choice do
  let start ← here
  let first ← branch item
  let more ← many do
    skip false
    literal "|"
    skip false
    branch item
  let span ← spanFrom start
  return ⟨first :: more, span⟩

/-- An item, where choices may stand in it to the given number of levels. -/
def item : Nat → Reader Item
  | 0 => fun _ _ _ => .error .endless
  | levels + 1 => itemOf (primary (group (choice (item levels))))

/-- Matches nothing, where nothing more follows in a line but gaps. -/
def lineIsOver : Reader Unit := lookahead do
  skip false
  atEnd <|> (do let _ ← charWhere isLineEnd)

/-- A link that ends its line, or else a choice. -/
def definition (item : Reader Item) : Reader Definition := part .definition <|
  (do
    let target ← link
    lineIsOver
    return .link target) <|>
  (.choice <$> choice item)

/-- A name and what it is defined to be. -/
def production (item : Reader Item) : Reader Production := part .production do
  skip false
  let start ← here
  let defined ← name
  skip false
  literal "::="
  skip false
  let meaning ← definition item
  let span ← spanFrom start
  return ⟨defined, meaning, span⟩

/-- What stands between two productions. -/
def separator : Reader Unit := part .separator do
  skip false
  let _ ← expecting .newline (charWhere isLineEnd)
  skip true

/-- One or more productions. -/
def document (item : Reader Item) : Reader Document := part .document do
  skip true
  let first ← production item
  let more ← many do
    separator
    production item
  skip true
  part .endOfText (expecting .endOfText atEnd)
  return ⟨first :: more⟩

/-! ## Whole texts -/

/-- What is said of a text when it is not read. -/
def errorOf (src : List Char) (notes : Notes) : Except Fault SyntaxError := do
  match notes.refused with
  | some offset =>
      let span ← spanBetween offset (offset + 1)
      return ⟨.nestedTooDeeply, span, []⟩
  | none =>
      let offset := Event.furthest notes.events
      let cause := match ← restAt src offset with
        | found :: _ => SyntaxError.Cause.unexpected found
        | [] => .prematureEnd
      let span ← spanBetween offset offset
      return ⟨cause, span, Event.expectedAt offset notes.events⟩

/-- The tree of a grammar text or why it is none, unless there is a fault. Choices stand in each
other to one level more than groups are allowed to. -/
def parse (src : List Char) : Except Fault (Except SyntaxError Document) := do
  match ← document (item (maxNesting + 1)) src ⟨[], 0, none⟩ 0 with
  | (some (tree, _), _) => return .ok tree
  | (none, notes) =>
      let error ← errorOf src notes
      return .error error

end Railroad.Notation.Checked
