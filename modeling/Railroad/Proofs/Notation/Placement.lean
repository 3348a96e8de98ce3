import Railroad.Proofs.Notation.Document
import Railroad.Proofs.Text.Slice
set_option autoImplicit false

/-!
# Spans say where things stand

A tree is *placed* in a text if its spans say where in the text its parts stand: what the text reads
at the span of a lexeme is the written form of the lexeme, a part that is made of other parts
reaches from the first to the last of them, and between neighbours the text reads nothing but the
layout and the punctuation that belong there. Spans are taken as bytes of the text, and a cut inside
a character reads nothing (`Text.slice?_eq_some_iff`). Whatever is read from a text is placed in it
(`placed_of_parse`). The proof goes through the spellings: a text that spells a tree at an offset,
and that stands there in a larger text, places the tree in the larger text.
-/

namespace Railroad

namespace Notation

/-! ## Placed trees -/

section Placed

variable (src : List Char)

/-- The text reads `cs` at a span. -/
def ReadsAt (span : Span) (cs : List Char) : Prop :=
  Text.slice? span.start span.stop src = some cs

/-- What the text reads from one offset to another belongs to a language. -/
def Between (start stop : Nat) (texts : Language Char) : Prop :=
  ∃ cs ∈ texts, Text.slice? start stop src = some cs

/-- A span lies in the text and cuts no character. -/
def Within (span : Span) : Prop := ∃ cs, ReadsAt src span cs

/-- One part follows another, and the text between them belongs to a language. -/
def Follows (texts : Language Char) (left right : Span) : Prop :=
  Between src left.stop right.start texts

/-- Parts follow each other, and the whole of them reaches from the first to the last. -/
def InRow (texts : Language Char) (whole : Span) (parts : List Span) : Prop :=
  parts.IsChain (Follows src texts) ∧
    parts.head?.map Span.start = some whole.start ∧ parts.getLast?.map Span.stop = some whole.stop

/-- A name stands at its span. -/
def Name.Placed (n : Name) : Prop := ReadsAt src n.span n.chars

/-- A string stands at its span. -/
def StringLiteral.Placed (s : StringLiteral) : Prop := ReadsAt src s.span s.chars

/-- A character code stands at its span. -/
def CharCode.Placed (k : CharCode) : Prop := ReadsAt src k.span k.chars

/-- The codes of a member that begins at an offset stand at their spans. -/
def ClassItem.PlacedFrom (start : Nat) : ClassItem → Prop
  | .char _ => True
  | .range _ _ => True
  | .code k => k.Placed src ∧ k.span.start = start
  | .codeRange first last =>
      first.Placed src ∧ first.span.start = start ∧ last.Placed src ∧
        Follows src (Written.word "-") first.span last.span

/-- The members of a class stand one right behind the other, from an offset on. -/
def ClassItem.PlacedEachFrom (start : Nat) : List ClassItem → Prop
  | [] => True
  | i :: rest =>
      i.PlacedFrom src start ∧ PlacedEachFrom (start + Text.byteLength i.chars) rest

/-- A character class stands at its span, and its members behind the bracket and the circumflex. -/
def CharClass.Placed (k : CharClass) : Prop :=
  ReadsAt src k.span k.chars ∧
    ClassItem.PlacedEachFrom src (k.span.start + Text.byteLength (['['] ++ k.caret)) k.items

/-- A link stands at its span, and the name in it in front of the closing bracket. -/
def Link.Placed (l : Link) : Prop :=
  ReadsAt src l.span l.chars ∧
    ∀ n ∈ l.fragment, n.Placed src ∧
      ReadsAt src ⟨n.span.stop, l.span.stop⟩ [']']

/-- A primary fills a span. A group also fills what stands around its choice: the parentheses, and
layout between them and the choice. -/
def Primary.Fills (whole : Span) : Primary → Prop
  | .group c =>
      Between src whole.start c.span.start (Written.word "(" * Written.layout false) ∧
        Between src c.span.stop whole.stop (Written.layout false * Written.word ")")
  | p => whole = p.span

mutual

/-- The parts of a primary are placed. -/
def Primary.Placed : Primary → Prop
  | .name n => n.Placed src
  | .string s => s.Placed src
  | .code k => k.Placed src
  | .charClass k => k.Placed src
  | .group c => c.Placed

/-- An item stands at its span, which is what its primary fills and the byte of the mark. -/
def Item.Placed : Item → Prop
  | ⟨primary, cardinality, span⟩ =>
      primary.Placed ∧ Within src span ∧ ∃ whole, primary.Fills src whole ∧
        whole.start = span.start ∧ ReadsAt src ⟨whole.stop, span.stop⟩ (markChars cardinality) ∧
        span.stop = whole.stop + (markChars cardinality).length

/-- The items of a sequence have gaps between them, and those of a difference a dash. -/
def Branch.Placed : Branch → Prop
  | .sequence items span =>
      Item.PlacedEach items ∧ Within src span ∧
        InRow src (Written.plus (Written.gap false)) span (items.map Item.span)
  | .difference left right span =>
      left.Placed ∧ right.Placed ∧ Within src span ∧
        InRow src (Written.around "-") span [left.span, right.span]

/-- The branches of a choice have bars between them. -/
def Choice.Placed : Choice → Prop
  | ⟨branches, span⟩ =>
      Branch.PlacedEach branches ∧ Within src span ∧
        InRow src (Written.around "|") span (branches.map Branch.span)

/-- Several items are placed. -/
def Item.PlacedEach : List Item → Prop
  | [] => True
  | i :: rest => i.Placed ∧ Item.PlacedEach rest

/-- Several branches are placed. -/
def Branch.PlacedEach : List Branch → Prop
  | [] => True
  | b :: rest => b.Placed ∧ Branch.PlacedEach rest

end

/-- A definition is placed. -/
def Definition.Placed : Definition → Prop
  | .choice c => c.Placed src
  | .link l => l.Placed src

/-- A production reaches from its name to the end of its definition. -/
def Production.Placed (p : Production) : Prop :=
  p.name.Placed src ∧ p.definition.Placed src ∧ Within src p.span ∧
    InRow src (Written.around "::=") p.span [p.name.span, p.definition.span]

/-- The productions of a tree have line breaks between them, and there is only layout around
them. -/
def Document.Placed (d : Document) : Prop :=
  (∀ p ∈ d.productions, p.Placed src) ∧ ∃ whole : Span,
    InRow src Written.lineBreak whole (d.productions.map Production.span) ∧
      Between src 0 whole.start (Written.layout true) ∧
      Between src whole.stop (Text.byteLength src) (Written.layout true)

end Placed

theorem Item.placedEach_iff {src : List Char} {items : List Item} :
    Item.PlacedEach src items ↔ ∀ i ∈ items, i.Placed src := by
  induction items with
  | nil => simp [Item.PlacedEach]
  | cons i rest ih => rw [Item.PlacedEach, ih, List.forall_mem_cons]

theorem Branch.placedEach_iff {src : List Char} {branches : List Branch} :
    Branch.PlacedEach src branches ↔ ∀ b ∈ branches, b.Placed src := by
  induction branches with
  | nil => simp [Branch.PlacedEach]
  | cons b rest ih => rw [Branch.PlacedEach, ih, List.forall_mem_cons]

/-! ## Texts in a text -/

/-- A text stands at an offset in another text. -/
def StandsAt (src : List Char) (offset : Nat) (cs : List Char) : Prop :=
  ∃ before after, src = before ++ cs ++ after ∧ offset = Text.byteLength before

namespace StandsAt

variable {src : List Char} {offset : Nat} {xs ys zs : List Char}

/-- The first part of a text stands where the text does. -/
theorem left (h : StandsAt src offset (xs ++ ys)) : StandsAt src offset xs := by
  obtain ⟨before, after, rfl, rfl⟩ := h
  exact ⟨before, ys ++ after, by simp only [List.append_assoc], rfl⟩

/-- The second part stands behind the first. -/
theorem right (h : StandsAt src offset (xs ++ ys)) :
    StandsAt src (offset + Text.byteLength xs) ys := by
  obtain ⟨before, after, rfl, rfl⟩ := h
  exact ⟨before ++ xs, after, by simp only [List.append_assoc], (Text.byteLength_append ..).symm⟩

/-- A text is read at its span. -/
theorem readsAt (h : StandsAt src offset xs) : ReadsAt src (.over offset xs) xs := by
  obtain ⟨before, after, hsrc, rfl⟩ := h
  exact Text.slice?_eq_some_iff.2 ⟨before, after, hsrc, rfl, (Text.byteLength_append ..).symm⟩

/-- Between the ends of what stands in front of a text and of the text itself, the text is read. -/
theorem between (h : StandsAt src offset (xs ++ ys)) {texts : Language Char} (hy : ys ∈ texts) :
    Between src (offset + Text.byteLength xs) (offset + Text.byteLength (xs ++ ys)) texts := by
  refine ⟨ys, hy, ?_⟩
  rw [Text.byteLength_append, ← Nat.add_assoc]
  exact h.right.readsAt

/-- What stands in a text lies within it. -/
theorem within (h : StandsAt src offset xs) : Within src (.over offset xs) := ⟨xs, h.readsAt⟩

/-- A text in the middle follows what stands in front of it, where another text follows it. -/
theorem follows (h : StandsAt src offset (xs ++ ys)) {texts : Language Char} (hy : ys ∈ texts) :
    Follows src texts (.over offset xs) (.over (offset + Text.byteLength (xs ++ ys)) zs) :=
  h.between hy

end StandsAt

variable {src : List Char}

/-- Wherever a spelling of a value stands in the text, the value is placed and has the span of the
spelling. -/
def Spelling.Places {α : Type} (src : List Char) (spelled : Spelling α) (placed : α → Prop)
    (span : α → Span) : Prop :=
  ∀ ⦃offset : Nat⦄ ⦃cs : List Char⦄ ⦃a : α⦄, spelled offset cs a → StandsAt src offset cs →
    placed a ∧ span a = .over offset cs

/-! ## Lexemes -/

/-- A name that is spelled in a text lies where its span says. -/
theorem Name.places :
    Spelling.Places src (fun o cs n => Name.Spelled o cs n) (Name.Placed src) Name.span := by
  intro offset cs n h hsrc
  have hchars := h.chars
  obtain ⟨-, rfl⟩ := h
  refine ⟨?_, rfl⟩
  rw [Name.Placed, hchars]
  exact hsrc.readsAt

/-- A string literal begins and ends with its quotes. -/
theorem StringLiteral.places : Spelling.Places src (fun o cs s => StringLiteral.Spelled o cs s)
    (StringLiteral.Placed src) StringLiteral.span := by
  intro offset cs s h hsrc
  have hspan : s.span = .over offset cs := by
    obtain ⟨value, -, -, -, hs⟩ := h
    rw [hs]
  refine ⟨?_, hspan⟩
  rw [StringLiteral.Placed, h.chars, hspan]
  exact hsrc.readsAt

/-- A code begins with its mark and ends with its digits. -/
theorem CharCode.places : Spelling.Places src (fun o cs k => CharCode.Spelled o cs k)
    (CharCode.Placed src) CharCode.span := by
  intro offset cs k h hsrc
  have hspan : k.span = .over offset cs := by
    obtain ⟨digits, -, -, -, rfl⟩ := h
    rfl
  refine ⟨?_, hspan⟩
  rw [CharCode.Placed, h.chars, hspan]
  exact hsrc.readsAt

/-- The codes in a member of a class are placed where the member is read. -/
theorem ClassItem.placedFrom_of_matches {c d : Cursor} {i : ClassItem}
    (h : classItem.Matches c i d) (hsrc : StandsAt src c.offset i.chars) :
    i.PlacedFrom src c.offset := by
  -- a code has a span of its own, which begins where the code is read
  have hcode : ∀ {c d : Cursor} {k : CharCode}, charCode.Matches c k d →
      StandsAt src c.offset k.chars → k.Placed src ∧ k.span = .over c.offset k.chars := by
    intro c d k hk hsrc
    obtain ⟨cs, -, hs, -⟩ := matches_charCode.1 hk
    rw [hs.chars] at hsrc ⊢
    exact CharCode.places hs hsrc
  simp only [classItem, Rule.matches_orElse, Rule.matches_bind, Rule.matches_pure,
    Rule.matches_map, matches_dash] at h
  rcases h with ⟨first, e, hfirst, _, g, hg, last, _, hlast, rfl, rfl⟩ |
    ⟨-, ⟨a, e, -, _, g, -, b, _, -, rfl, rfl⟩ | ⟨-, ⟨k, hk, rfl⟩ | ⟨-, a, -, rfl⟩⟩⟩
  · -- the dash stands right behind the first code, and the last code right behind the dash
    obtain ⟨cs, he, hs, -⟩ := matches_charCode.1 hfirst
    rw [← hs.chars] at he
    have hoffset : g.offset = c.offset + Text.byteLength (first.chars ++ ['-']) := (he.trans hg).2
    rw [ClassItem.chars] at hsrc
    obtain ⟨hplaced, hspan⟩ := hcode hfirst hsrc.left.left
    obtain ⟨hplaced', hspan'⟩ := hcode hlast (hoffset ▸ hsrc.right)
    refine ⟨hplaced, by rw [hspan]; rfl, hplaced', ?_⟩
    rw [hspan, hspan', hoffset]
    exact hsrc.left.follows rfl
  · trivial
  · obtain ⟨hplaced, hspan⟩ := hcode hk hsrc
    exact ⟨hplaced, by rw [hspan]; rfl⟩
  · trivial

/-- Items of a class stand one right behind the other. -/
theorem ClassItem.placedEachFrom_of_repeats {c d : Cursor} {items : List ClassItem}
    (h : Rule.Repeats classItem c items d)
    (hsrc : StandsAt src c.offset (items.flatMap ClassItem.chars)) :
    ClassItem.PlacedEachFrom src c.offset items := by
  induction h with
  | done c => trivial
  | step hm _ ih =>
      rw [List.flatMap_cons] at hsrc
      have hoffset := (passes_of_matches_classItem hm).1.2
      refine ⟨placedFrom_of_matches hm hsrc.left, ?_⟩
      rw [← hoffset]
      exact ih (hoffset ▸ hsrc.right)

/-- The items of a class stand between its brackets, behind the mark of a negated one. -/
theorem CharClass.places : Spelling.Places src (fun o cs k => CharClass.Spelled o cs k)
    (CharClass.Placed src) CharClass.span := by
  intro offset cs k h hsrc
  have hchars := h.chars
  obtain ⟨body, -, -, -, rfl, hitems, hspan⟩ := h
  refine ⟨⟨?_, ?_⟩, hspan⟩
  · rw [hchars, hspan]
    exact hsrc.readsAt
  · -- the members were read from what stands between the brackets
    have hbody := hsrc.left.right
    rw [← hitems.chars] at hbody
    rw [hspan]
    exact ClassItem.placedEachFrom_of_repeats
      ((Rule.matches_many consumes_classItem).1 hitems).1 hbody

/-- The fragment of a link stands behind its hash sign and ends in front of the bracket. -/
theorem Link.places :
    Spelling.Places src (fun o cs l => Link.Spelled o cs l) (Link.Placed src) Link.span := by
  rintro offset cs l ⟨-, hfragment, rfl, hspan⟩ hsrc
  refine ⟨⟨?_, ?_⟩, hspan⟩
  · rw [hspan]
    exact hsrc.readsAt
  · intro n hn
    -- in front of the closing bracket stand the address, the mark and the name
    have hchars : l.chars = ['['] ++ l.url.toList ++ ['#'] ++ n.chars ++ [']'] := by
      rw [Link.chars_eq, Option.mem_def.1 hn]
      simp [fragmentChars]
    rw [hchars] at hsrc hspan
    have hoffset : offset + 1 + Text.byteLength l.url.toList + 1 =
        offset + Text.byteLength (['['] ++ l.url.toList ++ ['#']) := by
      simp only [Text.byteLength_append]
      show _ = offset + (1 + Text.byteLength l.url.toList + 1)
      omega
    have hname := hfragment n hn
    rw [hoffset] at hname
    obtain ⟨hplaced, hover⟩ := Name.places hname hsrc.left.right
    refine ⟨hplaced, ?_⟩
    have hclose := hsrc.right.readsAt
    rw [hover, hspan]
    simpa only [Span.over, Text.byteLength_append, Nat.add_assoc] using hclose

/-! ## Rows -/

/-- Separated values follow each other in the text. -/
theorem Separated.places {α : Type} {between : Language Char} {spelled : Spelling α}
    {placed : α → Prop} {span : α → Span} (hspelled : Spelling.Places src spelled placed span)
    {offset : Nat} {cs : List Char} {as : List α} (h : Separated between spelled offset cs as)
    (hsrc : StandsAt src offset cs) :
    (∀ a ∈ as, placed a) ∧ InRow src between (.over offset cs) (as.map span) := by
  induction h with
  | @one offset cs a ha =>
      obtain ⟨hplaced, hspan⟩ := hspelled ha hsrc
      have hrow : InRow src between (.over offset cs) [span a] := by
        rw [hspan]
        exact ⟨.singleton _, rfl, rfl⟩
      exact ⟨by simpa using hplaced, hrow⟩
  | @more offset cs gap rest a as ha hgap hrest ih =>
      obtain ⟨hplaced, hspan⟩ := hspelled ha hsrc.left.left
      obtain ⟨hrests, hchain, hstart, hstop⟩ := ih hsrc.right
      obtain ⟨b, bs, rfl⟩ : ∃ b bs, as = b :: bs := by cases hrest <;> exact ⟨_, _, rfl⟩
      -- the first value is followed by the second one, with the separator between them
      have hnext : (span b).start = offset + Text.byteLength (cs ++ gap) := by
        simpa [Span.over] using hstart
      have hfollows : Follows src between (span a) (span b) := by
        rw [Follows, hspan, hnext]
        exact hsrc.left.between hgap
      refine ⟨List.forall_mem_cons.2 ⟨hplaced, hrests⟩, .cons_cons hfollows hchain, ?_, ?_⟩
      · rw [List.map_cons, List.head?_cons, Option.map_some, hspan]
        rfl
      · rw [List.map_cons, List.map_cons, List.getLast?_cons_cons, ← List.map_cons, hstop]
        simp only [Span.over, Text.byteLength_append, Nat.add_assoc]

/-! ## From primaries to documents -/

section Items

variable {group : Spelling Choice} {item : Spelling Item}

/-- Where a spelling of a primary stands, the primary is placed and fills the span of the
spelling. -/
def Spelling.Fills (src : List Char) (spelled : Spelling Primary) : Prop :=
  ∀ ⦃offset : Nat⦄ ⦃cs : List Char⦄ ⦃p : Primary⦄, spelled offset cs p → StandsAt src offset cs →
    p.Placed src ∧ p.Fills src (.over offset cs)

/-- What an item consists of fills the item up to its mark. -/
theorem Primary.Spelled.fills
    (hgroup : Spelling.Fills src fun offset cs p => ∃ c, p = .group c ∧ group offset cs c) :
    Spelling.Fills src (Primary.Spelled group) := by
  intro offset cs p h hsrc
  cases p with
  | name n =>
      obtain ⟨hplaced, hspan⟩ := Name.places h hsrc
      exact ⟨hplaced, hspan.symm⟩
  | string s =>
      obtain ⟨hplaced, hspan⟩ := StringLiteral.places h hsrc
      exact ⟨hplaced, hspan.symm⟩
  | code k =>
      obtain ⟨hplaced, hspan⟩ := CharCode.places h hsrc
      exact ⟨hplaced, hspan.symm⟩
  | charClass k =>
      obtain ⟨hplaced, hspan⟩ := CharClass.places h hsrc
      exact ⟨hplaced, hspan.symm⟩
  | group c => exact hgroup ⟨c, rfl, h⟩ hsrc

/-- A choice in parentheses fills its group but for them and the layout inside. -/
theorem Choice.SpelledInGroup.fills {choice : Spelling Choice}
    (hchoice : Spelling.Places src choice (Choice.Placed src) Choice.span) :
    Spelling.Fills src fun offset cs p =>
      ∃ c, p = .group c ∧ Choice.SpelledInGroup choice offset cs c := by
  rintro offset cs _ ⟨c, rfl, before, inner, after, hbefore, hafter, rfl, hinner⟩ hsrc
  have hopen : ['('] ++ before ∈ Written.word "(" * Written.layout false :=
    Language.append_mem_mul (a := ['(']) rfl hbefore
  have hclose : after ++ [')'] ∈ Written.layout false * Written.word ")" :=
    Language.append_mem_mul hafter rfl
  obtain ⟨hplaced, hspan⟩ := hchoice hinner hsrc.left.left.right
  refine ⟨hplaced, ?_, ?_⟩
  · rw [hspan]
    exact ⟨_, hopen, hsrc.left.left.left.readsAt⟩
  · -- the layout behind the choice and the parenthesis are the rest of the group
    rw [List.append_assoc] at hsrc
    have hrest := hsrc.between hclose
    rw [hspan]
    simpa only [Span.over, Text.byteLength_append, Nat.add_assoc] using hrest

/-- An item begins with what it repeats and ends with its mark, if it has one. -/
theorem Item.SpelledAs.places {primary : Spelling Primary} (hprimary : Spelling.Fills src primary) :
    Spelling.Places src (Item.SpelledAs primary) (Item.Placed src) Item.span := by
  rintro offset cs ⟨p, v, span⟩ ⟨body, hbody, rfl, hspan⟩ hsrc
  obtain rfl : span = .over offset (body ++ markChars v) := hspan
  obtain ⟨hplaced, hfills⟩ := hprimary hbody hsrc.left
  have hmark : ReadsAt src ⟨(Span.over offset body).stop, _⟩ (markChars v) := hsrc.right.readsAt
  -- the mark is a single byte
  have hlength : Text.byteLength (markChars v) = (markChars v).length := by
    rcases v with _ | _ | _ | _ <;> rfl
  refine ⟨⟨hplaced, hsrc.within, _, hfills, rfl, ?_, ?_⟩, rfl⟩
  · simpa only [Span.over, Text.byteLength_append, Nat.add_assoc] using hmark
  · simp only [Span.over, Text.byteLength_append, hlength, Nat.add_assoc]

/-- The items of a branch lie in it one behind the other, with layout or a dash between them. -/
theorem Branch.Spelled.places (hitem : Spelling.Places src item (Item.Placed src) Item.span) :
    Spelling.Places src (Branch.Spelled item) (Branch.Placed src) Branch.span := by
  intro offset cs b h hsrc
  cases b with
  | sequence items span =>
      obtain ⟨hitems, rfl⟩ := h
      obtain ⟨hplaced, hrow⟩ := Separated.places hitem hitems hsrc
      exact ⟨⟨Item.placedEach_iff.2 hplaced, hsrc.within, hrow⟩, rfl⟩
  | difference left right span =>
      obtain ⟨hitems, rfl⟩ := h
      obtain ⟨hplaced, hrow⟩ := Separated.places hitem hitems hsrc
      exact ⟨⟨hplaced left (by simp), hplaced right (by simp), hsrc.within, hrow⟩, rfl⟩

/-- The branches of a choice lie in it one behind the other, with bars between them. -/
theorem Choice.Spelled.places (hitem : Spelling.Places src item (Item.Placed src) Item.span) :
    Spelling.Places src (Choice.Spelled item) (Choice.Placed src) Choice.span := by
  rintro offset cs ⟨branches, span⟩ ⟨hbranches, hspan⟩ hsrc
  obtain rfl : span = .over offset cs := hspan
  obtain ⟨hplaced, hrow⟩ := Separated.places (Branch.Spelled.places hitem) hbranches hsrc
  exact ⟨⟨Branch.placedEach_iff.2 hplaced, hsrc.within, hrow⟩, rfl⟩

/-- Items of each depth lie where their spans say, by induction on the depth. -/
theorem Item.SpelledWithin.places : ∀ depth,
    Spelling.Places src (Item.SpelledWithin depth) (Item.Placed src) Item.span
  | 0 => Item.SpelledAs.places (Primary.Spelled.fills fun _ _ _ ⟨_, _, h⟩ => h.elim)
  | depth + 1 => Item.SpelledAs.places (Primary.Spelled.fills (Choice.SpelledInGroup.fills
      (Choice.Spelled.places (Item.SpelledWithin.places depth))))

end Items

section Documents

variable {depth : Nat}

/-- A definition is a link or a choice, and lies where that does. -/
theorem Definition.Spelled.places :
    Spelling.Places src (Definition.Spelled (Item.SpelledWithin depth)) (Definition.Placed src)
      Definition.span := by
  intro offset cs v h hsrc
  cases v with
  | choice c => exact Choice.Spelled.places (Item.SpelledWithin.places depth) h.1 hsrc
  | link l => exact Link.places h hsrc

/-- A production begins with its name and ends with its definition. -/
theorem Production.Spelled.places :
    Spelling.Places src (Production.Spelled (Item.SpelledWithin depth)) (Production.Placed src)
      Production.span := by
  rintro offset cs ⟨n, v, span⟩ ⟨defined, between, meaning, hname, hbetween, hmeaning, rfl, hspan⟩
    hsrc
  obtain rfl : span = .over offset (defined ++ between ++ meaning) := hspan
  obtain ⟨hplaced, hover⟩ := Name.places hname hsrc.left.left
  obtain ⟨hplaced', hover'⟩ := Definition.Spelled.places hmeaning hsrc.right
  refine ⟨⟨hplaced, hplaced', hsrc.within, ?_, ?_, ?_⟩, rfl⟩
  · -- only the sign stands between the name and its definition
    refine .cons_cons ?_ (.singleton _)
    rw [hover, hover']
    exact hsrc.left.follows hbetween
  · rw [List.head?_cons, Option.map_some, hover]
    rfl
  · show some v.span.stop = _
    rw [hover']
    simp only [Span.over, Text.byteLength_append, Nat.add_assoc]

/-- A text is filled by its productions, but for layout and line breaks. -/
theorem Document.Spelled.placed {cs : List Char} {v : Document}
    (h : v.Spelled (Item.SpelledWithin depth) cs) : v.Placed cs := by
  obtain ⟨before, body, after, hbefore, hafter, rfl, hbody⟩ := h
  have hsrc : StandsAt (before ++ body ++ after) 0 (before ++ body ++ after) :=
    ⟨[], [], by simp, rfl⟩
  have hstands : StandsAt (before ++ body ++ after) (Text.byteLength before) body := by
    simpa using hsrc.left.right
  obtain ⟨hplaced, hrow⟩ := Separated.places Production.Spelled.places hbody hstands
  refine ⟨hplaced, _, hrow, ⟨before, hbefore, ?_⟩, ?_⟩
  · simpa [ReadsAt, Span.over] using hsrc.left.left.readsAt
  · have hrest := hsrc.between hafter
    simpa [Span.over] using hrest

/-- Every part of a tree that is read from a text stands in the text where its span says, with
nothing but layout and punctuation between neighbouring parts. -/
theorem placed_of_parse {text : String} {v : Document} (h : parse text = .ok v) :
    v.Placed text.toList :=
  (parse_eq_ok_iff.1 h).placed

/-- The second branch of the first production follows a character of two bytes, which spans
count. -/
theorem placed_of_parse_accented :
    ∃ v, parse "A::=('é' - B)?/**/|[a#x41]\r\nC::=[s://t#D]" = .ok v ∧
    v.print = "A ::= ('é' - B)? | [a#x41]\nC ::= [s://t#D]" ∧
    v.Placed "A::=('é' - B)?/**/|[a#x41]\r\nC::=[s://t#D]".toList := by
  have hprint : (parse "A::=('é' - B)?/**/|[a#x41]\r\nC::=[s://t#D]").toOption.map Document.print =
      some "A ::= ('é' - B)? | [a#x41]\nC ::= [s://t#D]" := by decide +kernel
  cases h : parse "A::=('é' - B)?/**/|[a#x41]\r\nC::=[s://t#D]" with
  | error e => simp [h, Except.toOption] at hprint
  | ok v => exact ⟨v, rfl, by simpa [h, Except.toOption] using hprint, placed_of_parse h⟩

end Documents

end Notation

end Railroad
