import Railroad.Notation.Parser
import Railroad.Proofs.Notation.CharClass
set_option autoImplicit false

/-!
# What trees are read from

A text that begins at some offset spells a tree when it is put together from the spellings of the
parts of the tree and from layout as the notation allows it, and every part records the span of its
own spelling. The relation is not about how a text is read. It is as ambiguous as the notation, with
two exceptions: the members of a character class (`ClassItem.SpelledEach`), and a class that could
be a link where a whole definition is expected, which spells no choice (`Definition.Spelled`).

Items are related to their spellings depth by depth (`Item.SpelledWithin`), as the notation itself
nests them.
-/

namespace Railroad.Notation

/-- Which values a text that begins at an offset spells. -/
abbrev Spelling (α : Type) := Nat → List Char → α → Prop

/-- A text consists of spellings of one or more values with a separator between each and the
next. -/
inductive Separated {α : Type} (between : Language Char) (spelled : Spelling α) :
    Nat → List Char → List α → Prop where
  | one {offset : Nat} {cs : List Char} {a : α} :
      spelled offset cs a → Separated between spelled offset cs [a]
  | more {offset : Nat} {cs gap rest : List Char} {a : α} {as : List α} :
      spelled offset cs a → gap ∈ between →
      Separated between spelled (offset + Text.byteLength (cs ++ gap)) rest as →
      Separated between spelled offset (cs ++ gap ++ rest) (a :: as)

/-- A text spells a primary, given the spellings of groups. -/
def Primary.Spelled (group : Spelling Choice) (offset : Nat) (cs : List Char) : Primary → Prop
  | .name n => n.Spelled offset cs
  | .string s => s.Spelled offset cs
  | .code k => k.Spelled offset cs
  | .charClass k => k.Spelled offset cs
  | .group c => group offset cs c

/-- The written form of a cardinality. -/
def markChars (cardinality : Option Cardinality) : List Char :=
  (cardinality.map Cardinality.mark).toList

/-- A text spells an item, given the spellings of primaries. -/
def Item.SpelledAs (primary : Spelling Primary) (offset : Nat) (cs : List Char) (i : Item) : Prop :=
  ∃ body, primary offset body i.primary ∧ cs = body ++ markChars i.cardinality ∧
    i.span = .over offset cs

/-- A text spells a branch, given the spellings of items. -/
def Branch.Spelled (item : Spelling Item) (offset : Nat) (cs : List Char) : Branch → Prop
  | .sequence items span =>
      Separated (Written.plus (Written.gap false)) item offset cs items ∧ span = .over offset cs
  | .difference left right span =>
      Separated (Written.around "-") item offset cs [left, right] ∧ span = .over offset cs

/-- A text spells a choice, given the spellings of items. -/
def Choice.Spelled (item : Spelling Item) (offset : Nat) (cs : List Char) (c : Choice) : Prop :=
  Separated (Written.around "|") (Branch.Spelled item) offset cs c.branches ∧
    c.span = .over offset cs

/-- A text spells a choice in parentheses, given the spellings of choices. -/
def Choice.SpelledInGroup (choice : Spelling Choice) (offset : Nat) (cs : List Char)
    (c : Choice) : Prop :=
  ∃ before inner after, before ∈ Written.layout false ∧ after ∈ Written.layout false ∧
    cs = ['('] ++ before ++ inner ++ after ++ [')'] ∧
    choice (offset + Text.byteLength (['('] ++ before)) inner c

/-- A text spells an item in which groups are nested at most `depth` deep. -/
def Item.SpelledWithin : Nat → Spelling Item
  | 0 => Item.SpelledAs (Primary.Spelled fun _ _ _ => False)
  | depth + 1 =>
      Item.SpelledAs (Primary.Spelled
        (Choice.SpelledInGroup (Choice.Spelled (Item.SpelledWithin depth))))

/-- The class of an item that is nothing but a character class without a mark. -/
def Item.loneClass? : Item → Option CharClass
  | ⟨.charClass k, none, _⟩ => some k
  | _ => none

/-- The class of a branch that consists of nothing but such an item. -/
def Branch.loneClass? : Branch → Option CharClass
  | .sequence [i] _ => i.loneClass?
  | _ => none

/-- The class of a choice that consists of nothing but such a branch. -/
def Choice.loneClass? : Choice → Option CharClass
  | ⟨[b], _⟩ => b.loneClass?
  | _ => none

/-- A text spells a definition, given the spellings of items. A class that is written like a link is
one. -/
def Definition.Spelled (item : Spelling Item) (offset : Nat) (cs : List Char) : Definition → Prop
  | .link l => l.Spelled offset cs
  | .choice c => c.Spelled item offset cs ∧ ∀ k ∈ c.loneClass?, k.chars ∉ Written.link

/-- A text spells a production, given the spellings of items. -/
def Production.Spelled (item : Spelling Item) (offset : Nat) (cs : List Char)
    (p : Production) : Prop :=
  ∃ defined between meaning, p.name.Spelled offset defined ∧ between ∈ Written.around "::=" ∧
    p.definition.Spelled item (offset + Text.byteLength (defined ++ between)) meaning ∧
    cs = defined ++ between ++ meaning ∧ p.span = .over offset cs

/-- A whole text spells a tree, given the spellings of items. -/
def Document.Spelled (item : Spelling Item) (cs : List Char) (d : Document) : Prop :=
  ∃ before body after, before ∈ Written.layout true ∧ after ∈ Written.layout true ∧
    cs = before ++ body ++ after ∧
    Separated Written.lineBreak (Production.Spelled item) (Text.byteLength before) body
      d.productions

/-- A group begins with its parenthesis. -/
theorem Choice.SpelledInGroup.head {choice : Spelling Choice} {offset : Nat} {cs : List Char}
    {c : Choice} (h : c.SpelledInGroup choice offset cs) : ∃ rest, cs = '(' :: rest := by
  obtain ⟨before, inner, after, -, -, rfl, -⟩ := h
  exact ⟨_, rfl⟩

/-- At every depth, a text that spells an item is a spelling of its primary and the mark, and groups
begin with a parenthesis. -/
theorem Item.SpelledWithin.exists_body {depth offset : Nat} {cs : List Char} {i : Item}
    (h : Item.SpelledWithin depth offset cs i) : ∃ group : Spelling Choice, ∃ body,
      (∀ o cs c, group o cs c → ∃ rest, cs = '(' :: rest) ∧ i.primary.Spelled group offset body ∧
        cs = body ++ markChars i.cardinality := by
  cases depth with
  | zero =>
      obtain ⟨body, hbody, hcs, -⟩ := h
      exact ⟨_, body, fun _ _ _ h => h.elim, hbody, hcs⟩
  | succ depth =>
      obtain ⟨body, hbody, hcs, -⟩ := h
      exact ⟨_, body, fun _ _ _ => Choice.SpelledInGroup.head, hbody, hcs⟩

/-- An item that is nothing but a class is spelled as the class is printed. -/
theorem Item.SpelledWithin.eq_chars_of_loneClass? {depth offset : Nat} {cs : List Char} {i : Item}
    {k : CharClass} (h : Item.SpelledWithin depth offset cs i) (hk : i.loneClass? = some k) :
    cs = k.chars := by
  obtain ⟨group, body, -, hbody, rfl⟩ := h.exists_body
  unfold Item.loneClass? at hk
  split at hk
  · obtain rfl := Option.some.inj hk
    simpa [markChars] using (CharClass.Spelled.chars hbody).symm
  · cases hk

theorem Branch.Spelled.eq_chars_of_loneClass? {depth offset : Nat} {cs : List Char} {b : Branch}
    {k : CharClass} (h : b.Spelled (Item.SpelledWithin depth) offset cs)
    (hk : b.loneClass? = some k) : cs = k.chars := by
  unfold Branch.loneClass? at hk
  split at hk
  · obtain ⟨hitems, -⟩ := h
    cases hitems with
    | one hitem => exact hitem.eq_chars_of_loneClass? hk
    | more _ _ hrest => cases hrest
  · cases hk

/-- The text of a choice that is a lone class is the text of that class. -/
theorem Choice.Spelled.eq_chars_of_loneClass? {depth offset : Nat} {cs : List Char} {v : Choice}
    {k : CharClass} (h : v.Spelled (Item.SpelledWithin depth) offset cs)
    (hk : v.loneClass? = some k) : cs = k.chars := by
  unfold Choice.loneClass? at hk
  split at hk
  · obtain ⟨hbranches, -⟩ := h
    cases hbranches with
    | one hbranch => exact hbranch.eq_chars_of_loneClass? hk
    | more _ _ hrest => cases hrest
  · cases hk

/-! ## First characters -/

/-- Whether an item may begin with a character. -/
def startsItem (a : Char) : Bool :=
  a.isUpper || a == '"' || a == '\'' || a == '#' || a == '[' || a == '('

/-- Whether a character would continue an item. -/
def continuesItem (a : Char) : Bool := a.isAlphanum || Written.isMark a

/-- Every spelling begins with a character that may begin an item. -/
def Spelling.Opens {α : Type} (spelled : Spelling α) : Prop :=
  ∀ ⦃offset : Nat⦄ ⦃cs : List Char⦄ ⦃a : α⦄, spelled offset cs a →
    ∃ b rest, cs = b :: rest ∧ startsItem b = true

variable {item : Spelling Item} {group : Spelling Choice}

/-- A link begins with its bracket. -/
theorem Link.Spelled.head {offset : Nat} {cs : List Char} {l : Link} (h : l.Spelled offset cs) :
    ∃ rest, cs = '[' :: rest := ⟨_, h.2.2.1⟩

/-- What an item consists of begins with a character that tells its kind. -/
theorem Primary.Spelled.opens (hgroup : Spelling.Opens group) :
    Spelling.Opens (Primary.Spelled group) := by
  intro offset cs p h
  cases p with
  | name n =>
      obtain ⟨⟨_, ⟨a, ha, rfl⟩, more, -, rfl⟩, -⟩ := h
      exact ⟨a, more, rfl, by simp [startsItem, ha]⟩
  | string s =>
      obtain ⟨value, hq, -, rfl, -⟩ := h
      refine ⟨s.quote, _, rfl, ?_⟩
      rcases hq with hq | hq <;> simp [startsItem, hq]
  | code k =>
      obtain ⟨digits, -, -, rfl, -⟩ := h
      exact ⟨'#', _, rfl, by decide⟩
  | charClass k =>
      obtain ⟨body, -, -, -, rfl, -⟩ := h
      exact ⟨'[', _, rfl, by decide⟩
  | group c => exact hgroup h

theorem Choice.SpelledInGroup.opens (choice : Spelling Choice) :
    Spelling.Opens (Choice.SpelledInGroup choice) := by
  intro offset cs c h
  obtain ⟨rest, rfl⟩ := h.head
  exact ⟨'(', rest, rfl, by decide⟩

theorem Item.SpelledAs.opens {primary : Spelling Primary} (hprimary : Spelling.Opens primary) :
    Spelling.Opens (Item.SpelledAs primary) := by
  rintro offset cs i ⟨body, hbody, rfl, -⟩
  obtain ⟨b, rest, rfl, hb⟩ := hprimary hbody
  exact ⟨b, rest ++ markChars i.cardinality, rfl, hb⟩

/-- Items of each depth begin with a character that an item can begin with. -/
theorem Item.SpelledWithin.opens : ∀ depth, Spelling.Opens (Item.SpelledWithin depth)
  | 0 => Item.SpelledAs.opens (Primary.Spelled.opens fun _ _ _ h => h.elim)
  | _ + 1 => Item.SpelledAs.opens (Primary.Spelled.opens (Choice.SpelledInGroup.opens _))

/-- Separated values begin with the first one. -/
theorem Separated.opens {α : Type} {between : Language Char} {spelled : Spelling α}
    (hspelled : Spelling.Opens spelled) : Spelling.Opens (Separated between spelled) := by
  intro offset cs as h
  cases h with
  | one h => exact hspelled h
  | more h _ _ =>
      obtain ⟨b, rest, rfl, hb⟩ := hspelled h
      exact ⟨b, _, rfl, hb⟩

theorem Branch.Spelled.opens (hitem : Spelling.Opens item) :
    Spelling.Opens (Branch.Spelled item) := by
  intro offset cs b h
  cases b with
  | sequence items span => exact Separated.opens hitem h.1
  | difference left right span => exact Separated.opens hitem h.1

theorem Choice.Spelled.opens (hitem : Spelling.Opens item) :
    Spelling.Opens (Choice.Spelled item) :=
  fun _ _ _ h => Separated.opens (Branch.Spelled.opens hitem) h.1

theorem Definition.Spelled.opens (hitem : Spelling.Opens item) :
    Spelling.Opens (Definition.Spelled item) := by
  intro offset cs d h
  cases d with
  | choice c => exact Choice.Spelled.opens hitem h.1
  | link l =>
      obtain ⟨rest, rfl⟩ := Link.Spelled.head h
      exact ⟨'[', rest, rfl, by decide⟩

/-- A production begins with the capital letter of its name. -/
theorem Production.Spelled.opens : Spelling.Opens (Production.Spelled item) := by
  rintro offset cs p ⟨defined, between, meaning, hname, -, -, rfl, -⟩
  obtain ⟨⟨_, ⟨a, ha, rfl⟩, more, -, rfl⟩, -⟩ := hname
  exact ⟨a, _, rfl, by simp [startsItem, ha]⟩

end Railroad.Notation
