import Railroad.Proofs.Notation.Document
set_option autoImplicit false

/-!
# The accepted texts

Every text of the language of the notation spells some tree, at whatever offset it stands, and every
spelling is a text of the language (`Spelling.Covers`, one lemma for each part of the notation). The
definition takes care of the one ambiguity: where a text is both a link and a choice, it spells the
link. Hence a text is read without error exactly if it belongs to the language
(`parse_accepts_iff`).
-/

namespace Railroad.Notation

open Computability

/-- At every offset, the texts that spell something are those of a language. -/
def Spelling.Covers {α : Type} (spelled : Spelling α) (texts : Language Char) : Prop :=
  ∀ offset cs, (∃ a, spelled offset cs a) ↔ cs ∈ texts

/-! ## Lexemes -/

/-- Each name of the notation is spelled by just one tree, so that both describe the same texts. -/
theorem Name.covers : Spelling.Covers (fun offset cs n => Name.Spelled offset cs n) Written.name :=
  fun _ _ => ⟨fun ⟨_, h⟩ => h.1, fun h => ⟨_, h, rfl⟩⟩

/-- A string literal ends at the first quote of its kind. -/
theorem StringLiteral.covers :
    Spelling.Covers (fun offset cs s => StringLiteral.Spelled offset cs s) Written.string := by
  intro offset cs
  constructor
  · rintro ⟨s, value, hquote, hvalue, hcs, -⟩
    exact ⟨s.quote, value, hquote, hvalue, hcs⟩
  · rintro ⟨quote, value, hquote, hvalue, hcs⟩
    exact ⟨⟨String.ofList value, quote, .over offset cs⟩, value, hquote, hvalue, hcs, rfl⟩

theorem CharCode.covers :
    Spelling.Covers (fun offset cs k => CharCode.Spelled offset cs k) Written.code := by
  intro offset cs
  constructor
  · rintro ⟨k, digits, hne, hall, rfl, -⟩
    exact Language.append_mem_mul (a := ['#', 'x']) rfl (Written.mem_plus_one.2 ⟨hne, hall⟩)
  · rintro ⟨_, rfl, digits, hdigits, rfl⟩
    obtain ⟨hne, hall⟩ := Written.mem_plus_one.1 hdigits
    exact ⟨_, digits, hne, hall, rfl, rfl⟩

theorem Link.covers : Spelling.Covers (fun offset cs l => Link.Spelled offset cs l) Written.link :=
  fun offset _ => ⟨fun ⟨_, h⟩ => h.mem, fun h => Link.exists_spelled h offset⟩

/-- A class is a text of class characters in brackets, and negated if a circumflex comes first. -/
theorem mem_charClass_iff {cs : List Char} : cs ∈ Written.charClass ↔
    ∃ negated : Bool, ∃ body, body ≠ [] ∧ (∀ a ∈ body, Written.isClassChar a = true) ∧
      (negated = false → body.head? ≠ some '^') ∧
      cs = ['['] ++ (if negated then ['^'] else []) ++ body ++ [']'] := by
  constructor
  · rintro ⟨_, ⟨_, rfl, _, ⟨_, rfl, body, hbody, rfl⟩ | ⟨_, ⟨a, ha, rfl⟩, more, hmore, rfl⟩, rfl⟩,
      _, rfl, rfl⟩
    · obtain ⟨hne, hall⟩ := Written.mem_plus_one.1 hbody
      exact ⟨true, body, hne, hall, by simp, rfl⟩
    · simp only [Bool.and_eq_true, bne_iff_ne] at ha
      refine ⟨false, a :: more, by simp, ?_, by simpa using ha.2, rfl⟩
      intro b hb
      rcases List.mem_cons.1 hb with rfl | hb
      · exact ha.1
      · exact Written.mem_kstar_one.1 hmore b hb
  · rintro ⟨negated, body, hne, hall, hcaret, rfl⟩
    refine Language.append_mem_mul ?_ rfl
    cases negated with
    | true =>
        -- behind the circumflex any class character may come first
        exact Language.append_mem_mul (a := ['[']) rfl
          (.inl (Language.append_mem_mul (a := ['^']) rfl (Written.mem_plus_one.2 ⟨hne, hall⟩)))
    | false =>
        obtain ⟨a, more, rfl⟩ := List.exists_cons_of_ne_nil hne
        refine Language.append_mem_mul (a := ['[']) rfl (.inr ?_)
        refine Language.append_mem_mul (a := [a]) ⟨a, ?_, rfl⟩
          (Written.mem_kstar_one.2 fun b hb => hall b (List.mem_cons_of_mem a hb))
        simpa [hall a (by simp)] using hcaret rfl

/-- A text in brackets is a class, however its characters are taken as items. -/
theorem CharClass.covers :
    Spelling.Covers (fun offset cs k => CharClass.Spelled offset cs k) Written.charClass := by
  intro offset cs
  rw [mem_charClass_iff]
  constructor
  · rintro ⟨k, body, hne, hall, hcaret, hcs, -, -⟩
    exact ⟨k.negated, body, hne, hall, hcaret, hcs⟩
  · rintro ⟨negated, body, hne, hall, hcaret, hcs⟩
    obtain ⟨items, hitems⟩ := ClassItem.SpelledEach.exists
      (offset + Text.byteLength (['['] ++ if negated then ['^'] else [])) hall
    exact ⟨⟨negated, items, .over offset cs⟩, body, hne, hall, hcaret, hcs, hitems, rfl⟩

/-! ## Items -/

section Items

variable {group : Spelling Choice} {item : Spelling Item} {groups items : Language Char}

/-- What an item consists of comes in five kinds on either side. -/
theorem Primary.Spelled.covers (hgroup : Spelling.Covers group groups) :
    Spelling.Covers (Primary.Spelled group) (Written.primary groups) := by
  intro offset cs
  constructor
  · rintro ⟨p, h⟩
    cases p with
    | name n => exact .inl (.inl (.inl (.inl ((Name.covers offset cs).1 ⟨n, h⟩))))
    | string s => exact .inl (.inl (.inl (.inr ((StringLiteral.covers offset cs).1 ⟨s, h⟩))))
    | code k => exact .inl (.inl (.inr ((CharCode.covers offset cs).1 ⟨k, h⟩)))
    | charClass k => exact .inl (.inr ((CharClass.covers offset cs).1 ⟨k, h⟩))
    | group c => exact .inr ((hgroup offset cs).1 ⟨c, h⟩)
  · rintro ((((h | h) | h) | h) | h)
    · obtain ⟨n, h⟩ := (Name.covers offset cs).2 h
      exact ⟨.name n, h⟩
    · obtain ⟨s, h⟩ := (StringLiteral.covers offset cs).2 h
      exact ⟨.string s, h⟩
    · obtain ⟨k, h⟩ := (CharCode.covers offset cs).2 h
      exact ⟨.code k, h⟩
    · obtain ⟨k, h⟩ := (CharClass.covers offset cs).2 h
      exact ⟨.charClass k, h⟩
    · obtain ⟨c, h⟩ := (hgroup offset cs).2 h
      exact ⟨.group c, h⟩

/-- The marks are those of the cardinalities, or none. -/
theorem mem_mark_iff {cs : List Char} :
    cs ∈ 1 + Written.one Written.isMark ↔ ∃ v, cs = markChars v := by
  constructor
  · rintro (rfl | ⟨a, ha, rfl⟩)
    · exact ⟨none, rfl⟩
    · simp only [Written.isMark, Bool.or_eq_true, beq_iff_eq] at ha
      rcases ha with (rfl | rfl) | rfl
      · exact ⟨some .optional, rfl⟩
      · exact ⟨some .zeroOrMore, rfl⟩
      · exact ⟨some .oneOrMore, rfl⟩
  · rintro ⟨v, rfl⟩
    cases v with
    | none => exact .inl rfl
    | some m => exact .inr ⟨m.mark, by cases m <;> rfl, rfl⟩

/-- The mark of an item can be told from its last character. -/
theorem Item.SpelledAs.covers {primary : Spelling Primary} {primaries : Language Char}
    (hprimary : Spelling.Covers primary primaries) :
    Spelling.Covers (Item.SpelledAs primary) (Written.itemOf primaries) := by
  intro offset cs
  constructor
  · rintro ⟨i, body, hbody, rfl, -⟩
    exact Language.append_mem_mul ((hprimary offset body).1 ⟨_, hbody⟩) (mem_mark_iff.2 ⟨_, rfl⟩)
  · rintro ⟨body, hbody, mark, hmark, rfl⟩
    obtain ⟨p, hp⟩ := (hprimary offset body).2 hbody
    obtain ⟨v, rfl⟩ := mem_mark_iff.1 hmark
    exact ⟨⟨p, v, .over offset _⟩, body, hp, rfl, rfl⟩

/-- Separated trees are a first text and any number of texts with something between them, by
induction on them. -/
theorem Separated.covers {α : Type} {between : Language Char} {spelled : Spelling α}
    {texts : Language Char} (hspelled : Spelling.Covers spelled texts) :
    Spelling.Covers (Separated between spelled) (texts * (between * texts)∗) := by
  -- the induction is on the pieces behind the first text, each of which ends with a text again
  have key : ∀ pieces : List (List Char), (∀ piece ∈ pieces, piece ∈ between * texts) →
      ∀ offset first, first ∈ texts →
        ∃ as, Separated between spelled offset (first ++ pieces.flatten) as := by
    intro pieces
    induction pieces with
    | nil =>
        intro _ offset first hfirst
        obtain ⟨a, ha⟩ := (hspelled offset first).2 hfirst
        rw [List.flatten_nil, List.append_nil]
        exact ⟨[a], .one ha⟩
    | cons piece pieces ih =>
        intro hpieces offset first hfirst
        obtain ⟨a, ha⟩ := (hspelled offset first).2 hfirst
        obtain ⟨gap, hgap, next, hnext, rfl⟩ := hpieces piece (by simp)
        obtain ⟨as, has⟩ := ih (fun y hy => hpieces y (by simp [hy]))
          (offset + Text.byteLength (first ++ gap)) next hnext
        refine ⟨a :: as, ?_⟩
        have hall := Separated.more ha hgap has
        simpa [List.append_assoc] using hall
  intro offset cs
  constructor
  · rintro ⟨as, h⟩
    induction h with
    | one ha =>
        have hfirst := (hspelled _ _).1 ⟨_, ha⟩
        simpa using Language.append_mem_mul hfirst (Language.nil_mem_kstar (between * texts))
    | more ha hgap _ ih =>
        obtain ⟨next, hnext, more, hmore, rfl⟩ := ih
        have hfirst := (hspelled _ _).1 ⟨_, ha⟩
        have hrest := Written.append_mem_kstar (Language.append_mem_mul hgap hnext) hmore
        simpa [List.append_assoc] using Language.append_mem_mul hfirst hrest
  · rintro ⟨first, hfirst, _, ⟨pieces, rfl, hpieces⟩, rfl⟩
    exact key pieces hpieces offset first hfirst

/-- A branch is a difference or a sequence on either side. -/
theorem Branch.Spelled.covers (hitem : Spelling.Covers item items) :
    Spelling.Covers (Branch.Spelled item) (Written.branch items) := by
  intro offset cs
  constructor
  · rintro ⟨b, h⟩
    cases b with
    | sequence parts span => exact .inr ((Separated.covers hitem offset cs).1 ⟨parts, h.1⟩)
    | difference left right span =>
        obtain ⟨hparts, -⟩ := h
        cases hparts with
        | more hleft hgap hright =>
            cases hright with
            | more _ _ hrest => cases hrest
            | one hright =>
                exact .inl (Language.append_mem_mul (Language.append_mem_mul
                  ((hitem _ _).1 ⟨_, hleft⟩) hgap) ((hitem _ _).1 ⟨_, hright⟩))
  -- both items of a difference are spelled at the offsets where they stand
  · rintro (⟨_, ⟨left, hleft, gap, hgap, rfl⟩, right, hright, rfl⟩ | h)
    · obtain ⟨l, hl⟩ := (hitem offset left).2 hleft
      obtain ⟨r, hr⟩ := (hitem (offset + Text.byteLength (left ++ gap)) right).2 hright
      exact ⟨.difference l r (.over offset _), .more hl hgap (.one hr), rfl⟩
    · obtain ⟨parts, hparts⟩ := (Separated.covers hitem offset cs).2 h
      exact ⟨.sequence parts (.over offset cs), hparts, rfl⟩

theorem Choice.Spelled.covers (hitem : Spelling.Covers item items) :
    Spelling.Covers (Choice.Spelled item) (Written.choice items) := by
  intro offset cs
  rw [Written.choice, ← Separated.covers (Branch.Spelled.covers hitem) offset cs]
  constructor
  · rintro ⟨c, h⟩
    exact ⟨c.branches, h.1⟩
  · rintro ⟨branches, h⟩
    exact ⟨⟨branches, .over offset cs⟩, h, rfl⟩

/-- Groups are choices in parentheses on either side. -/
theorem Choice.SpelledInGroup.covers {choice : Spelling Choice} {choices : Language Char}
    (hchoice : Spelling.Covers choice choices) :
    Spelling.Covers (Choice.SpelledInGroup choice) (Written.group choices) := by
  intro offset cs
  constructor
  · rintro ⟨c, before, inner, after, hbefore, hafter, rfl, h⟩
    have hinner := (hchoice _ _).1 ⟨c, h⟩
    exact Language.append_mem_mul (Language.append_mem_mul (Language.append_mem_mul
      (Language.append_mem_mul rfl hbefore) hinner) hafter) rfl
  · rintro ⟨_, ⟨_, ⟨_, ⟨_, rfl, before, hbefore, rfl⟩, inner, hinner, rfl⟩, after, hafter, rfl⟩, _,
      rfl, rfl⟩
    obtain ⟨c, hc⟩ := (hchoice (offset + Text.byteLength (['('] ++ before)) inner).2 hinner
    exact ⟨c, before, inner, after, hbefore, hafter, rfl, hc⟩

/-- Items of each depth are the same on either side, by induction on the depth. -/
theorem Item.SpelledWithin.covers :
    ∀ depth, Spelling.Covers (Item.SpelledWithin depth) (Written.itemWithin depth)
  | 0 => Item.SpelledAs.covers (Primary.Spelled.covers fun _ _ =>
      ⟨fun ⟨_, h⟩ => h.elim, fun h => absurd h (Language.notMem_zero _)⟩)
  | depth + 1 => Item.SpelledAs.covers (Primary.Spelled.covers (Choice.SpelledInGroup.covers
      (Choice.Spelled.covers (Item.SpelledWithin.covers depth))))

end Items

/-! ## Texts -/

section Texts

variable {depth : Nat}

/-- What is both a link and a choice counts as a link, so that the same texts are definitions. -/
theorem Definition.Spelled.covers : Spelling.Covers (Definition.Spelled (Item.SpelledWithin depth))
    (Written.definition (Written.itemWithin depth)) := by
  have hchoice := Choice.Spelled.covers (Item.SpelledWithin.covers depth)
  intro offset cs
  constructor
  · rintro ⟨v, h⟩
    cases v with
    | link l => exact .inl ((Link.covers offset cs).1 ⟨l, h⟩)
    | choice c => exact .inr ((hchoice offset cs).1 ⟨c, h.1⟩)
  · intro h
    -- where the text is both, it is a link
    by_cases hlink : cs ∈ Written.link
    · obtain ⟨l, hl⟩ := (Link.covers offset cs).2 hlink
      exact ⟨.link l, hl⟩
    · obtain ⟨c, hc⟩ := (hchoice offset cs).2 (h.resolve_left hlink)
      refine ⟨.choice c, hc, fun k hk => ?_⟩
      rwa [← hc.eq_chars_of_loneClass? hk]

/-- Productions consist of a name, the sign and a definition on either side. -/
theorem Production.Spelled.covers : Spelling.Covers (Production.Spelled (Item.SpelledWithin depth))
    (Written.production (Written.itemWithin depth)) := by
  intro offset cs
  constructor
  · rintro ⟨p, defined, between, meaning, hname, hbetween, hmeaning, rfl, -⟩
    exact Language.append_mem_mul
      (Language.append_mem_mul ((Name.covers _ _).1 ⟨_, hname⟩) hbetween)
      ((Definition.Spelled.covers _ _).1 ⟨_, hmeaning⟩)
  · rintro ⟨_, ⟨defined, hdefined, between, hbetween, rfl⟩, meaning, hmeaning, rfl⟩
    obtain ⟨n, hn⟩ := (Name.covers offset defined).2 hdefined
    obtain ⟨v, hv⟩ := (Definition.Spelled.covers
      (offset + Text.byteLength (defined ++ between)) meaning).2 hmeaning
    exact ⟨⟨n, v, .over offset _⟩, defined, between, meaning, hn, hbetween, hv, rfl, rfl⟩

/-- The texts that spell a tree are those of the language of the notation. -/
theorem Document.exists_spelled_iff {cs : List Char} :
    (∃ v : Document, v.Spelled (Item.SpelledWithin depth) cs) ↔
      cs ∈ Written.document (Written.itemWithin depth) := by
  have hbody : Spelling.Covers
      (Separated Written.lineBreak (Production.Spelled (Item.SpelledWithin depth)))
      (Written.production (Written.itemWithin depth) *
        (Written.lineBreak * Written.production (Written.itemWithin depth))∗) :=
    Separated.covers Production.Spelled.covers
  constructor
  · rintro ⟨v, before, body, after, hbefore, hafter, rfl, h⟩
    exact Language.append_mem_mul (Language.append_mem_mul hbefore ((hbody _ _).1 ⟨_, h⟩)) hafter
  · rintro ⟨_, ⟨before, hbefore, body, hmem, rfl⟩, after, hafter, rfl⟩
    obtain ⟨productions, h⟩ := (hbody (Text.byteLength before) body).2 hmem
    exact ⟨⟨productions⟩, before, body, after, hbefore, hafter, rfl, h⟩

/-- A text is read without error exactly if it belongs to the language of the notation, with groups
nested at most 64 deep. -/
theorem parse_accepts_iff (text : String) :
    (∃ v, parse text = .ok v) ↔ text.toList ∈ Written.document (Written.itemWithin 64) := by
  have hlimit : maxNesting = 64 := rfl
  simp only [parse_eq_ok_iff, Document.exists_spelled_iff, hlimit]

end Texts

end Railroad.Notation
