import Railroad.Text.CharWidth
import Railroad.Text.Emoji
set_option autoImplicit false

/-!
# Characters that are drawn as one

In some scripts two letters share one form, and emoji are composed of several characters. How many
columns a character adds to the text behind it depends then on what that text begins with, which
`Opening` tells as far as it matters. The rules:

* an Arabic Lam and an Alef, with marks between them, take one column,
* two letters take one column if a joiner makes one of them in Buginese, Hebrew, Old Turkic or
  Tifinagh, and so do the two parts of a Lisu tone,
* the Khmer sign U+17D2 puts a letter below the one in front of it, where it takes no column,
* an emoji takes two columns, with a modifier or joined to others as well, and a character with a
  selector behind it takes the columns of the style that the selector asks for.
-/

namespace Railroad.Text

/-- The joiner U+200D. -/
def joiner : Char := '\u200d'

/-- The style that a selector asks for. -/
inductive Style where
  | emoji
  | text
  deriving DecidableEq, Repr

/-- The style that a character asks for, if it is a selector. -/
def selectedStyle? (c : Char) : Option Style :=
  if c = '\ufe0f' then some .emoji else if c = '\ufe0e' then some .text else none

/-- What a text begins with, as far as the width of a character in front of it depends on that. A
letter with a joiner in front of it is `joined`. -/
inductive Opening where
  | plain
  | alef
  | lamed (joined : Bool)
  | ya (joined : Bool)
  | vowelYa
  | consonant (joined : Bool)
  | linkedConsonant
  | toneEnd
  | orkhonI (joined : Bool)
  | subscript
  | emoji
  | modifier
  | regional
  | regionals
  | joinedEmoji
  | joinedKeycap
  | joinedRegional
  | joinedRegionals (even : Bool)
  | tagEnd
  | tagLetters (count : Nat)
  | tagDigits (count : Nat)
  deriving DecidableEq, Repr

/-- The Arabic letters of the group Lam. -/
def isLam (c : Char) : Bool :=
  CodeRanges.contains [(0x0644, 0x0644), (0x06B5, 0x06B8), (0x076A, 0x076A), (0x08A6, 0x08A6),
    (0x08C7, 0x08C7)] c

/-- The Arabic letters of the group Alef. -/
def isAlef (c : Char) : Bool :=
  CodeRanges.contains [(0x0622, 0x0623), (0x0625, 0x0625), (0x0627, 0x0627), (0x0671, 0x0673),
    (0x0675, 0x0675), (0x0773, 0x0774), (0x0870, 0x0882)] c

/-- The characters without a width that part Arabic letters. -/
def partingRanges : CodeRanges :=
  [(0x0605, 0x0605), (0x0890, 0x0891), (0x08E2, 0x08E2), (0x09BE, 0x09BE), (0x09D7, 0x09D7),
   (0x0B3E, 0x0B3E), (0x0B57, 0x0B57), (0x0BBE, 0x0BBE), (0x0BD7, 0x0BD7), (0x0CC0, 0x0CC0),
   (0x0CC2, 0x0CC2), (0x0CC7, 0x0CC8), (0x0CCA, 0x0CCB), (0x0CD5, 0x0CD6), (0x0D3E, 0x0D3E),
   (0x0D4E, 0x0D4E), (0x0D57, 0x0D57), (0x0DCF, 0x0DCF), (0x0DDF, 0x0DDF), (0x1160, 0x11FF),
   (0x180E, 0x180E), (0x1B35, 0x1B35), (0x1B3B, 0x1B3B), (0x1B3D, 0x1B3D), (0x1B43, 0x1B43),
   (0x200C, 0x200D), (0x2065, 0x2069), (0x302E, 0x302F), (0x3164, 0x3164), (0xA8FA, 0xA8FA),
   (0xD7B0, 0xD7C6), (0xD7CB, 0xD7FB), (0xFF9E, 0xFFA0), (0xFFF0, 0xFFF8), (0x111C2, 0x111C3),
   (0x1133E, 0x1133E), (0x11357, 0x11357), (0x114B0, 0x114B0), (0x114BD, 0x114BD),
   (0x115AF, 0x115AF), (0x11930, 0x11930), (0x1193F, 0x1193F), (0x11941, 0x11941),
   (0x11A3A, 0x11A3A), (0x11A84, 0x11A89), (0x11D46, 0x11D46), (0x11F02, 0x11F02),
   (0x1D165, 0x1D165), (0x1D16E, 0x1D172), (0xE0000, 0xE0000), (0xE0002, 0xE001F),
   (0xE0080, 0xE00FF), (0xE01F0, 0xE0FFF)]

/-- Whether a character without a width leaves the Arabic letters around it together. -/
def isTransparent (c : Char) : Bool := isZeroWidth c && !partingRanges.contains c

/-- Whether a mark is ignored between the parts of a ligature. -/
def isIgnoredMark (c : Char) : Bool :=
  CodeRanges.contains [(0x034F, 0x034F), (0x17B4, 0x17B5), (0x180B, 0x180D), (0x180F, 0x180F),
    (0xFE00, 0xFE0F), (0xE0100, 0xE01EF)] c

/-- Whether a character is a consonant of Tifinagh. -/
def isTifinagh (c : Char) : Bool := CodeRanges.contains [(0x2D31, 0x2D65), (0x2D6F, 0x2D6F)] c

/-- The letters of Khmer that can stand below another one. -/
def isSubscriptLetter (c : Char) : Bool :=
  CodeRanges.contains [(0x1780, 0x1782), (0x1784, 0x1787), (0x1789, 0x178C), (0x178E, 0x1793),
    (0x1795, 0x1798), (0x179B, 0x179D), (0x17A0, 0x17A0), (0x17A2, 0x17A2), (0x17A7, 0x17A7),
    (0x17AB, 0x17AC), (0x17AF, 0x17AF)] c

namespace Opening

/-- What a text begins with whose first character is not drawn together with anything in front of
it. -/
def ofChar (c : Char) : Opening :=
  if isAlef c then alef
  else if c = '\u05dc' then lamed false
  else if c = '\u1a10' then ya false
  else if isTifinagh c then consonant false
  else if c = '\ua4fc' || c = '\ua4fd' then toneEnd
  else if c.toNat = 0x10C03 then orkhonI false
  else if isSubscriptLetter c then subscript
  else if isModifier c then modifier
  else if isRegional c then regional
  else if isEmoji c then emoji
  else plain

/-- Whether a text begins with the second part of a ligature of letters. -/
def isLetter : Opening → Bool
  | alef | lamed _ | ya _ | vowelYa | consonant _ | linkedConsonant | toneEnd | orkhonI _
  | subscript => true
  | _ => false

/-- Whether a text begins with a joiner in front of what can be a part of an emoji with a
selector. -/
def isJoinedStyle : Opening → Bool
  | joinedEmoji | joinedKeycap => true
  | _ => false

/-- A letter with a joiner in front of it. -/
def join : Opening → Opening
  | lamed _ => lamed true
  | ya _ => ya true
  | consonant _ => consonant true
  | orkhonI _ => orkhonI true
  | opening => opening

/-- What a character adds to the columns of a text that begins with letters, and what the text
begins with then, if the character is drawn together with them. -/
def letters? (c : Char) : Opening → Option (Int × Opening)
  | alef =>
      if isLam c then some (0, plain) else if isTransparent c then some (0, alef) else none
  | opening =>
      if !opening.isLetter then none
      else if c = joiner then some (0, opening.join)
      else if isIgnoredMark c then some (0, opening)
      else match opening with
        | lamed true => if c = '\u05d0' then some (0, plain) else none
        | ya true => if c = '\u1a17' then some (0, vowelYa) else none
        | vowelYa => if c = '\u1a15' then some (0, plain) else none
        | consonant joined =>
            if c = '\u2d7f' then some (1, linkedConsonant)
            else if joined && isTifinagh c then some (0, plain)
            else none
        | linkedConsonant => if isTifinagh c then some (-1, plain) else none
        | toneEnd => if '\ua4f8' ≤ c ∧ c ≤ '\ua4fb' then some (0, plain) else none
        | orkhonI true => if c.toNat = 0x10C32 then some (0, plain) else none
        | subscript => if c = '\u17d2' then some (-1, plain) else none
        | _ => none

/-- What a character adds to the columns of a text that begins with tags and a joiner, which end the
emoji of a flag. -/
def tags? (c : Char) : Opening → Option (Int × Opening)
  | tagEnd =>
      if isTagLetter c then some (0, tagLetters 1)
      else if isTagDigit c then some (0, tagDigits 1)
      else none
  | tagLetters count =>
      if isTagLetter c && count < 6 then some (0, tagLetters (count + 1))
      else if isTagDigit c && count < 5 then some (0, tagDigits 1)
      else if c = '🏴' && 3 ≤ count then some (0, emoji)
      else none
  | tagDigits count =>
      if isTagDigit c && count < 3 then some (0, tagDigits (count + 1))
      else if c = '🏴' && count = 3 then some (0, emoji)
      else none
  | _ => none

/-- What a character adds to the columns of a text that begins with parts of an emoji, and what the
text begins with then, if the character is a part of that emoji. -/
def emoji? (c : Char) : Opening → Option (Int × Opening)
  | modifier =>
      if isModifierBase c then some (0, emoji)
      else if c = joiner then some (0, joinedEmoji)
      else none
  | emoji => if c = joiner then some (0, joinedEmoji) else none
  | regional => if isRegional c then some (1, regionals) else none
  | regionals =>
      if isRegional c then some (1, regionals)
      else if c = joiner then some (0, joinedEmoji)
      else none
  | joinedEmoji =>
      if c = '\u20e3' then some (0, joinedKeycap)
      else if isRegional c then some (1, joinedRegional)
      else if isModifier c then some (0, modifier)
      else if c.toNat = 0xE007F then some (0, tagEnd)
      else if isEmoji c then some (0, emoji)
      else none
  | joinedRegional => if isRegional c then some (-1, joinedRegionals true) else none
  | joinedRegionals even =>
      if isRegional c then some (if even then 3 else -1, joinedRegionals !even)
      else if c = joiner then some (0, joinedEmoji)
      else none
  | opening => tags? c opening

end Opening

/-- What a text begins with: a selector, perhaps, and what stands behind it. -/
structure Lead where
  selector : Option Style
  opening : Opening
  deriving DecidableEq, Repr

namespace Lead

/-- A text that begins with nothing in particular. -/
def plain : Lead := ⟨none, .plain⟩

/-- A text without the selector at its beginning. What stood behind that is forgotten, but for
letters. -/
def unselected (lead : Lead) : Lead :=
  match lead.selector with
  | none => lead
  | some _ => if lead.opening.isLetter then ⟨none, lead.opening⟩ else plain

/-- A text with a selector in front of it. -/
def select (style : Style) (lead : Lead) : Lead :=
  if lead.opening.isLetter || (style = .emoji && lead.opening.isJoinedStyle) then
    ⟨some style, lead.opening⟩
  else ⟨some style, .plain⟩

/-- What a character adds to the columns of a text without a selector at its beginning, and what the
text begins with then. Nothing up to U+00A0 is drawn together with other characters. -/
def withChar (c : Char) (lead : Lead) : Int × Lead :=
  if c ≤ '\u00a0' then (charWidth c, plain)
  else match selectedStyle? c with
    | some style => (0, lead.select style)
    | none =>
        match (lead.opening.letters? c).or (lead.opening.emoji? c) with
        | some (columns, opening) => (columns, ⟨none, opening⟩)
        | none => (charWidth c, ⟨none, Opening.ofChar c⟩)

/-- What a character adds to the columns of a text, and what the text begins with then. -/
def push (c : Char) (lead : Lead) : Int × Lead :=
  if lead.selector = some .emoji && hasEmojiStyle c then
    (if lead.opening.isJoinedStyle then 0 else 2, ⟨none, .emoji⟩)
  else if lead.selector = some .text && hasTextStyle c then (1, plain)
  else withChar c lead.unselected

end Lead

end Railroad.Text
