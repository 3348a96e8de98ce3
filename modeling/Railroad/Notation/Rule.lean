import Railroad.Notation.Event
import Railroad.Text.Utf8
set_option autoImplicit false

/-!
# Rules

A rule tries to match a beginning of the text that is left. It yields a value and what is left after
it, or it does not match and has consumed nothing, or it gives up altogether because groups are
nested too deeply. Rules are combined one after the other (`Rule.bind`), as ordered alternatives of
which the first that matches is taken (`Rule.orElse`), and by repetition as long as they match
(`Rule.many`). The events of a run are those of all its attempts in order.
-/

namespace Railroad.Notation

/-- A place in a text: what is left of the text, and how many bytes precede it. -/
structure Cursor where
  rest : List Char
  offset : Nat
  deriving DecidableEq, Repr

/-- The place after the first `taken` characters, which leave `rest`. -/
def Cursor.after (cursor : Cursor) (taken rest : List Char) : Cursor :=
  ⟨rest, cursor.offset + Text.byteLength taken⟩

/-- How an attempt at a rule ends. -/
inductive Outcome (α : Type) where
  /-- The rule matched what lies before `next`. -/
  | matched (value : α) (next : Cursor)
  /-- The rule did not match. -/
  | mismatch
  /-- The group at an offset would be nested too deeply, and the text is refused as a whole. -/
  | tooDeep (offset : Nat)

/-- An attempt at a rule: how it ended and what happened on the way. -/
structure Run (α : Type) where
  outcome : Outcome α
  events : List Event

/-- A rule of the notation. -/
def Rule (α : Type) := Cursor → Run α

namespace Rule

variable {α β : Type}

/-- Matches nothing and yields a value. -/
protected def pure (a : α) : Rule α := fun c => ⟨.matched a c, []⟩

/-- One rule and then another, which may depend on the value of the first. -/
protected def bind (rule : Rule α) (next : α → Rule β) : Rule β := fun c =>
  match rule c with
  | ⟨.matched a d, events⟩ =>
      let run := next a d
      ⟨run.outcome, events ++ run.events⟩
  | ⟨.mismatch, events⟩ => ⟨.mismatch, events⟩
  | ⟨.tooDeep offset, events⟩ => ⟨.tooDeep offset, events⟩

/-- A rule with its value changed. -/
protected def map (f : α → β) (rule : Rule α) : Rule β := fun c =>
  match rule c with
  | ⟨.matched a d, events⟩ => ⟨.matched (f a) d, events⟩
  | ⟨.mismatch, events⟩ => ⟨.mismatch, events⟩
  | ⟨.tooDeep offset, events⟩ => ⟨.tooDeep offset, events⟩

instance : Monad Rule where
  pure := Rule.pure
  bind := Rule.bind
  map := Rule.map

protected theorem pure_bind (a : α) (next : α → Rule β) : (Rule.pure a).bind next = next a := by
  funext c
  simp [Rule.bind, Rule.pure]

protected theorem bind_pure (rule : Rule α) : rule.bind Rule.pure = rule := by
  funext c
  rcases h : rule c with ⟨outcome, events⟩
  cases outcome <;> simp [Rule.bind, Rule.pure, h]

/-- It makes no difference how rules one after another are put together. -/
protected theorem bind_assoc {γ : Type} (rule : Rule α) (next : α → Rule β) (last : β → Rule γ) :
    (rule.bind next).bind last = rule.bind fun a => (next a).bind last := by
  funext c
  rcases h : rule c with ⟨outcome, events⟩
  cases outcome with
  | mismatch => simp [Rule.bind, h]
  | tooDeep offset => simp [Rule.bind, h]
  | matched a d =>
      rcases k : next a d with ⟨outcome, more⟩
      cases outcome <;> simp [Rule.bind, h, k, List.append_assoc]

/-- The first rule, or the second at the same place if the first does not match. -/
protected def orElse (rule other : Rule α) : Rule α := fun c =>
  match rule c with
  | ⟨.mismatch, events⟩ =>
      let run := other c
      ⟨run.outcome, events ++ run.events⟩
  | run => run

instance : OrElse (Rule α) := ⟨fun rule other => rule.orElse (other ())⟩

/-- The offset of the current place. -/
def here : Rule Nat := fun c => ⟨.matched c.offset c, []⟩

/-- Does not match, and leaves no trace of it. -/
def mismatch : Rule α := fun _ => ⟨.mismatch, []⟩

/-- Does not match, for want of something at the current place. -/
def fail (expected : Expected) : Rule α := fun c =>
  ⟨.mismatch, [.failed c.offset expected]⟩

/-- Refuses the whole text, because of the group at an offset. -/
def refuse (offset : Nat) : Rule α := fun _ => ⟨.tooDeep offset, []⟩

/-- A rule for what stands inside the group whose parenthesis lies at an offset. A text that is
refused there is not read on, so the group is not left. -/
def inside (offset : Nat) (rule : Rule α) : Rule α := fun c =>
  match rule c with
  | ⟨.matched a d, events⟩ => ⟨.matched a d, .opened offset :: events ++ [.closed]⟩
  | ⟨.mismatch, events⟩ => ⟨.mismatch, .opened offset :: events ++ [.closed]⟩
  | ⟨.tooDeep refused, events⟩ => ⟨.tooDeep refused, .opened offset :: events⟩

/-- A rule whose failures are its own business: if it does not match, `expected` is missed
instead. -/
def expecting (expected : Expected) (rule : Rule α) : Rule α := fun c =>
  match rule c with
  | ⟨.mismatch, _⟩ => fail expected c
  | run => run

/-- Matches nothing, and only where the given rule would match. -/
def lookahead (rule : Rule α) : Rule Unit := fun c =>
  match rule c with
  | ⟨.matched _ _, events⟩ => ⟨.matched () c, events⟩
  | ⟨.mismatch, events⟩ => ⟨.mismatch, events⟩
  | ⟨.tooDeep offset, events⟩ => ⟨.tooDeep offset, events⟩

/-- A value if the rule matches, and otherwise nothing at the same place. -/
def perhaps (rule : Rule α) : Rule (Option α) :=
  (some <$> rule) <|> return none

/-- A rule as often in a row as it matches, but at most once for each character of `budget`. -/
def manyWithin (rule : Rule α) : List Char → Rule (List α)
  | [] => (do let _ ← rule; mismatch) <|> return []
  | _ :: budget =>
      (do
        let a ← rule
        (a :: ·) <$> manyWithin rule budget) <|> return []

/-- A rule as often in a row as it matches. A rule that matches no empty text cannot match more
often than there are characters left. -/
def many (rule : Rule α) : Rule (List α) := fun c => manyWithin rule c.rest c

/-- The end of the text. -/
def atEnd : Rule Unit := fun c =>
  if c.rest.isEmpty then ⟨.matched () c, []⟩ else ⟨.mismatch, []⟩

/-- A character for which there is a value. -/
def charFor (value? : Char → Option α) : Rule α := fun c =>
  match c.rest with
  | [] => ⟨.mismatch, []⟩
  | a :: rest =>
      match value? a with
      | some value => ⟨.matched value (c.after [a] rest), []⟩
      | none => ⟨.mismatch, []⟩

/-- A character that satisfies a condition. -/
def charWhere (condition : Char → Bool) : Rule Char :=
  charFor fun a => if condition a then some a else none

/-- As many characters in a row as satisfy a condition. -/
def charsWhile (condition : Char → Bool) : Rule (List Char) := fun c =>
  let taken := c.rest.takeWhile condition
  ⟨.matched taken (c.after taken (c.rest.dropWhile condition)), []⟩

/-- Like `charsWhile`, with at least one character. -/
def someCharsWhile (condition : Char → Bool) : Rule (List Char) := do
  let first ← charWhere condition
  let more ← charsWhile condition
  return first :: more

/-- A text cut in front of the first occurrence of a mark, or at its end if there is none. -/
def splitBefore (mark : List Char) : List Char → List Char × List Char
  | [] => ([], [])
  | c :: cs =>
      if mark.isPrefixOf (c :: cs) then ([], c :: cs)
      else
        let (taken, rest) := splitBefore mark cs
        (c :: taken, rest)

/-- All characters in front of the first occurrence of a mark, or the rest of the text if there is
none. -/
def charsBefore (mark : List Char) : Rule (List Char) := fun c =>
  let (taken, rest) := splitBefore mark c.rest
  ⟨.matched taken (c.after taken rest), []⟩

/-- A fixed piece of text, which is missed if it does not come next. -/
def literal (text : String) : Rule Unit := fun c =>
  match text.toList.isPrefixOf? c.rest with
  | some rest => ⟨.matched () (c.after text.toList rest), []⟩
  | none => fail (.literal text) c

end Rule

end Railroad.Notation
