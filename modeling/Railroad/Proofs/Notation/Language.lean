import Mathlib.Computability.Language
import Mathlib.Order.CompletePartialOrder
import Railroad.Notation.Lexeme
set_option autoImplicit false

/-!
# The language of the notation

The texts of the notation as a formal language, rule by rule and without reference to how a text is
read: sets of texts (`Language Char`) are combined by concatenation, union and repetition. Groups
nest, so that the language of items is given for each depth to which they may do so
(`Written.itemWithin`). What belongs to the smallest parts is said character by character.
-/

namespace Railroad.Notation.Written

open Computability

/-- Texts of a single character that satisfies a condition. -/
def one (condition : Char → Bool) : Language Char := {cs | ∃ c, condition c = true ∧ cs = [c]}

/-- A fixed text. -/
def word (text : String) : Language Char := {text.toList}

/-- Texts of a language one or more times in a row. -/
def plus (texts : Language Char) : Language Char := texts * texts∗

/-! ## Layout -/

/-- A comment runs from `/*` to the first `*/` behind it: no other `*/` ends before its end. -/
def comment : Language Char :=
  {cs | ∃ body, cs = ['/', '*'] ++ body ++ ['*', '/'] ∧
    ∀ before after, body ++ ['*', '/'] = before ++ ['*', '/'] ++ after → after = []}

/-- A blank, a tab or a comment, or the end of a line if `breaks` allows it. -/
def gap (breaks : Bool) : Language Char :=
  comment + one fun c => c == ' ' || c == '\t' || (breaks && isLineEnd c)

/-- Any number of gaps. -/
def layout (breaks : Bool) : Language Char := (gap breaks)∗

/-! ## Lexemes -/

/-- An upper-case letter and any number of letters and digits. -/
def name : Language Char := one Char.isUpper * (one Char.isAlphanum)∗

/-- Quotes of either kind around a text in which that quote does not occur. -/
def string : Language Char :=
  {cs | ∃ quote value, (quote = '"' ∨ quote = '\'') ∧ quote ∉ value ∧
    cs = quote :: value ++ [quote]}

/-- `#x` and at least one hexadecimal digit. -/
def code : Language Char := word "#x" * plus (one Text.isHexDigit)

/-- Whether a character may stand in a character class. -/
def isClassChar (c : Char) : Bool := c != ']' && !Text.isControl c

/-- Brackets around at least one character, or around a circumflex and at least one character;
without that circumflex the first character is none. -/
def charClass : Language Char :=
  word "[" *
    (word "^" * plus (one isClassChar) +
      one (fun c => isClassChar c && c != '^') * (one isClassChar)∗) *
    word "]"

/-- An address: a scheme, `://` and a body, neither of which is empty. -/
def address : Language Char := plus (one isSchemeChar) * word "://" * plus (one isAddressChar)

/-- Brackets around an address, which a name may follow after `#`. -/
def link : Language Char := word "[" * address * (1 + word "#" * name) * word "]"

/-! ## Items and what is made of them -/

/-- Whether a character is a cardinality mark. -/
def isMark (c : Char) : Bool := c == '?' || c == '*' || c == '+'

/-- A primary, given the groups. -/
def primary (group : Language Char) : Language Char := name + string + code + charClass + group

/-- A primary and possibly a mark. -/
def itemOf (primary : Language Char) : Language Char := primary * (1 + one isMark)

/-- A fixed text with layout around it. -/
def around (text : String) : Language Char := layout false * word text * layout false

/-- The end of a line with layout around it, in which more lines may end. -/
def lineBreak : Language Char := layout false * one isLineEnd * layout true

/-- Two items with a dash between them. -/
def difference (item : Language Char) : Language Char := item * around "-" * item

/-- One or more items with at least one gap between each and the next. -/
def sequence (item : Language Char) : Language Char := item * (plus (gap false) * item)∗

/-- A difference or a sequence. -/
def branch (item : Language Char) : Language Char := difference item + sequence item

/-- One or more branches with bars between them. -/
def choice (item : Language Char) : Language Char :=
  branch item * (around "|" * branch item)∗

/-- A choice in parentheses. -/
def group (choice : Language Char) : Language Char :=
  word "(" * layout false * choice * layout false * word ")"

/-- Items in which groups are nested at most `depth` deep. -/
def itemWithin : Nat → Language Char
  | 0 => itemOf (primary 0)
  | depth + 1 => itemOf (primary (group (choice (itemWithin depth))))

/-- A link or a choice. -/
def definition (item : Language Char) : Language Char := link + choice item

/-- A name and its definition. -/
def production (item : Language Char) : Language Char :=
  name * around "::=" * definition item

/-- One or more productions, each of which begins on a line of its own. -/
def document (item : Language Char) : Language Char :=
  layout true * (production item * (lineBreak * production item)∗) * layout true

/-! ## Membership -/

variable {condition : Char → Bool} {cs : List Char}

theorem mem_one : cs ∈ one condition ↔ ∃ c, condition c = true ∧ cs = [c] := Iff.rfl

@[simp] theorem singleton_mem_one {c : Char} : [c] ∈ one condition ↔ condition c = true := by
  simp [mem_one]

@[simp] theorem mem_word {text : String} : cs ∈ word text ↔ cs = text.toList := Iff.rfl

/-- Characters in a row, each of which satisfies a condition. -/
theorem mem_kstar_one : cs ∈ (one condition)∗ ↔ ∀ c ∈ cs, condition c = true := by
  constructor
  · rintro ⟨pieces, rfl, hpieces⟩ c hc
    obtain ⟨piece, hpiece, hc⟩ := List.mem_flatten.1 hc
    obtain ⟨b, hb, rfl⟩ := hpieces piece hpiece
    rwa [List.mem_singleton.1 hc]
  · intro h
    refine ⟨cs.map fun c => [c], ?_, ?_⟩
    -- each character is a piece of its own
    · induction cs with
      | nil => rfl
      | cons c cs ih =>
          rw [List.map_cons, List.flatten_cons,
            ← ih fun a ha => h a (List.mem_cons_of_mem c ha)]
          rfl
    · intro piece hpiece
      obtain ⟨c, hc, rfl⟩ := List.mem_map.1 hpiece
      exact ⟨c, h c hc, rfl⟩

/-- The same with at least one character. -/
theorem mem_plus_one :
    cs ∈ plus (one condition) ↔ cs ≠ [] ∧ ∀ c ∈ cs, condition c = true := by
  rw [plus, Language.mem_mul]
  constructor
  · rintro ⟨_, ⟨c, hc, rfl⟩, more, hmore, rfl⟩
    rw [mem_kstar_one] at hmore
    exact ⟨by simp, by simpa [hc] using hmore⟩
  · rintro ⟨hne, hall⟩
    obtain ⟨c, more, rfl⟩ := List.exists_cons_of_ne_nil hne
    exact ⟨[c], ⟨c, hall c (by simp), rfl⟩, more,
      mem_kstar_one.2 fun a ha => hall a (by simp [ha]), rfl⟩

theorem singleton_mem_plus_one {c : Char} (h : condition c = true) : [c] ∈ plus (one condition) :=
  mem_plus_one.2 ⟨by simp, by simpa using h⟩

/-- A text is a repetition of itself. -/
theorem mem_kstar_of_mem {texts : Language Char} (h : cs ∈ texts) : cs ∈ texts∗ := by
  have hle : texts ≤ texts∗ := le_kstar
  exact hle h

/-- One more text in front of a repetition. -/
theorem append_mem_kstar {texts : Language Char} {xs ys : List Char} (h : xs ∈ texts)
    (k : ys ∈ texts∗) : xs ++ ys ∈ texts∗ :=
  mul_kstar_le_kstar (a := texts) (Language.append_mem_mul h k)

end Railroad.Notation.Written
