import Railroad.Proofs.Notation.Document
set_option autoImplicit false

/-!
# Spellings in another place

What a text spells, it also spells further on in a longer text, and the spans move along
(`Spelling.Moves`, one lemma for each part of a tree). The members of a character class are the only
part whose spelling refers to a rule, and the members move because that rule does not look at
offsets. A class that is no link stays one, because its text is the same.
-/

namespace Railroad

/-- The span over some characters is moved with them. -/
theorem Span.shift_over (o k : Nat) (cs : List Char) :
    (Span.over o cs).shift k = .over (o + k) cs := by
  simp only [Span.shift, Span.over, Nat.add_right_comm]

namespace Notation

/-- What a text spells at an offset it also spells at every greater one, with all spans moved as
far. -/
def Spelling.Moves {α : Type} (spelled : Spelling α) (map : (Span → Span) → α → α) : Prop :=
  ∀ ⦃offset : Nat⦄ ⦃cs : List Char⦄ ⦃a : α⦄, spelled offset cs a →
    ∀ k, spelled (offset + k) cs (map (Span.shift k) a)

/-! ## Lexemes -/

theorem Name.moves : Spelling.Moves (fun o cs n => Name.Spelled o cs n) Name.mapSpans := by
  rintro offset cs _ ⟨hcs, rfl⟩ k
  refine ⟨hcs, ?_⟩
  rw [Name.mapSpans, Span.shift_over]

theorem StringLiteral.moves :
    Spelling.Moves (fun o cs s => StringLiteral.Spelled o cs s) StringLiteral.mapSpans := by
  rintro offset cs s ⟨value, hquote, hvalue, hcs, hs⟩ k
  refine ⟨value, hquote, hvalue, hcs, ?_⟩
  rw [hs, StringLiteral.mapSpans, Span.shift_over]

theorem CharCode.moves : Spelling.Moves (fun o cs k => CharCode.Spelled o cs k) CharCode.mapSpans :=
  fun _ _ _ h k => h.shift k

/-- Items of a class can be moved, because codes can and characters have no spans. -/
theorem ClassItem.SpelledEach.moves :
    Spelling.Moves ClassItem.SpelledEach fun f items => items.map (ClassItem.mapSpans f) := by
  intro offset body items h k
  exact h.matches_many rfl ⟨(List.append_nil body).symm, rfl⟩ (by simp)

/-- A class can be moved with its items. -/
theorem CharClass.moves :
    Spelling.Moves (fun o cs k => CharClass.Spelled o cs k) CharClass.mapSpans := by
  rintro offset cs cls ⟨body, hne, hall, hcaret, hcs, hitems, hspan⟩ k
  refine ⟨body, hne, hall, hcaret, hcs, ?_, ?_⟩
  · rw [Nat.add_right_comm]
    exact ClassItem.SpelledEach.moves hitems k
  · rw [← Span.shift_over, ← hspan]
    rfl

/-- A link can be moved with its fragment. -/
theorem Link.moves : Spelling.Moves (fun o cs l => Link.Spelled o cs l) Link.mapSpans := by
  rintro offset cs ⟨url, fragment, span⟩ ⟨haddress, hfragment, hcs, hspan⟩ k
  refine ⟨haddress, ?_, ?_, ?_⟩
  · intro n hn
    obtain ⟨m, hm, rfl⟩ := Option.map_eq_some_iff.1 hn
    have hmoved := Name.moves (hfragment m hm) k
    -- the offset of the fragment is that of the link and what stands between them
    simp only [Nat.add_right_comm _ _ k] at hmoved
    exact hmoved
  · rw [hcs, Link.chars, Link.chars, Link.target_mapSpans]
  · rw [← Span.shift_over, ← hspan]
    rfl

/-! ## Items -/

section Items

variable {item : Spelling Item}

/-- What an item consists of can be moved if the group in it can. -/
theorem Primary.Spelled.moves {group : Spelling Choice}
    (hgroup : Spelling.Moves group Choice.mapSpans) :
    Spelling.Moves (Primary.Spelled group) Primary.mapSpans := by
  intro offset cs p h k
  cases p with
  | name n => exact Name.moves h k
  | string s => exact StringLiteral.moves h k
  | code c => exact CharCode.moves h k
  | charClass c => exact CharClass.moves h k
  | group c => exact hgroup h k

theorem Item.SpelledAs.moves {primary : Spelling Primary}
    (hprimary : Spelling.Moves primary Primary.mapSpans) :
    Spelling.Moves (Item.SpelledAs primary) Item.mapSpans := by
  rintro offset cs ⟨p, v, span⟩ ⟨body, hbody, hcs, hspan⟩ k
  refine ⟨body, hprimary hbody k, hcs, ?_⟩
  rw [← Span.shift_over, ← hspan]
  rfl

/-- Separated values move one by one. -/
theorem Separated.moves {α : Type} {between : Language Char} {spelled : Spelling α}
    {map : (Span → Span) → α → α} (hspelled : Spelling.Moves spelled map) :
    Spelling.Moves (Separated between spelled) fun f as => as.map (map f) := by
  intro offset cs as h k
  induction h with
  | one ha => exact .one (hspelled ha k)
  | @more offset cs gap rest a as ha hgap _ ih =>
      rw [Nat.add_right_comm] at ih
      exact .more (hspelled ha k) hgap ih

/-- Branches can be moved with their items. -/
theorem Branch.Spelled.moves (hitem : Spelling.Moves item Item.mapSpans) :
    Spelling.Moves (Branch.Spelled item) Branch.mapSpans := by
  intro offset cs b h k
  cases b with
  | sequence items span =>
      obtain ⟨hitems, rfl⟩ := h
      rw [Branch.mapSpans, Item.mapSpansEach_eq_map, Span.shift_over]
      exact ⟨Separated.moves hitem hitems k, rfl⟩
  | difference left right span =>
      obtain ⟨hitems, rfl⟩ := h
      rw [Branch.mapSpans, Span.shift_over]
      exact ⟨Separated.moves hitem hitems k, rfl⟩

/-- Choices can be moved with their branches. -/
theorem Choice.Spelled.moves (hitem : Spelling.Moves item Item.mapSpans) :
    Spelling.Moves (Choice.Spelled item) Choice.mapSpans := by
  rintro offset cs ⟨branches, span⟩ ⟨hbranches, rfl⟩ k
  rw [Choice.mapSpans, Branch.mapSpansEach_eq_map, Span.shift_over]
  exact ⟨Separated.moves (Branch.Spelled.moves hitem) hbranches k, rfl⟩

/-- Groups can be moved with the choices in them. -/
theorem Choice.SpelledInGroup.moves {choice : Spelling Choice}
    (hchoice : Spelling.Moves choice Choice.mapSpans) :
    Spelling.Moves (Choice.SpelledInGroup choice) Choice.mapSpans := by
  rintro offset cs c ⟨before, inner, after, hbefore, hafter, hcs, hinner⟩ k
  refine ⟨before, inner, after, hbefore, hafter, hcs, ?_⟩
  rw [Nat.add_right_comm]
  exact hchoice hinner k

/-- Items of each depth can be moved, by induction on the depth. -/
theorem Item.SpelledWithin.moves : ∀ depth,
    Spelling.Moves (Item.SpelledWithin depth) Item.mapSpans
  | 0 => Item.SpelledAs.moves (Primary.Spelled.moves fun _ _ _ h => h.elim)
  | depth + 1 => Item.SpelledAs.moves (Primary.Spelled.moves (Choice.SpelledInGroup.moves
      (Choice.Spelled.moves (Item.SpelledWithin.moves depth))))

end Items

/-! ## Definitions and productions -/

/-- Whether an item is nothing but a class does not depend on the spans. -/
theorem Item.loneClass?_mapSpans (f : Span → Span) (i : Item) :
    (i.mapSpans f).loneClass? = i.loneClass?.map (CharClass.mapSpans f) := by
  rcases i with ⟨p, v, span⟩
  cases p <;> cases v <;> rfl

/-- Nor does it for a branch. -/
theorem Branch.loneClass?_mapSpans (f : Span → Span) (b : Branch) :
    (b.mapSpans f).loneClass? = b.loneClass?.map (CharClass.mapSpans f) := by
  rcases b with ⟨_ | ⟨i, _ | ⟨i', is⟩⟩, span⟩ | ⟨left, right, span⟩
  · rfl
  · exact i.loneClass?_mapSpans f
  · rfl
  · rfl

/-- Other spans do not change whether a choice is a lone class. -/
theorem Choice.loneClass?_mapSpans (f : Span → Span) (c : Choice) :
    (c.mapSpans f).loneClass? = c.loneClass?.map (CharClass.mapSpans f) := by
  rcases c with ⟨_ | ⟨b, _ | ⟨b', bs⟩⟩, span⟩
  · rfl
  · exact b.loneClass?_mapSpans f
  · rfl

/-- Choices that are the same but for their spans are no links alike. -/
theorem Choice.lone_notMem_link {f g : Span → Span} {c c' : Choice}
    (h : c'.mapSpans g = c.mapSpans f) (hlone : ∀ k ∈ c.loneClass?, k.chars ∉ Written.link) :
    ∀ k ∈ c'.loneClass?, k.chars ∉ Written.link := by
  intro k' hk'
  have hmap : c.loneClass?.map (CharClass.mapSpans f) = some (k'.mapSpans g) := by
    rw [← Choice.loneClass?_mapSpans, ← h, Choice.loneClass?_mapSpans, Option.mem_def.1 hk',
      Option.map_some]
  -- the lone classes have the same text
  obtain ⟨k, hk, hsame⟩ := Option.map_eq_some_iff.1 hmap
  rw [← CharClass.chars_mapSpans g k', ← hsame, CharClass.chars_mapSpans]
  exact hlone k hk

section Documents

variable {item : Spelling Item}

/-- Definitions can be moved: what would also be a link still is or is not. -/
theorem Definition.Spelled.moves (hitem : Spelling.Moves item Item.mapSpans) :
    Spelling.Moves (Definition.Spelled item) Definition.mapSpans := by
  intro offset cs v h k
  cases v with
  | link l => exact Link.moves h k
  | choice c =>
      obtain ⟨hc, hlone⟩ := h
      refine ⟨Choice.Spelled.moves hitem hc k, Choice.lone_notMem_link (g := Span.forget)
        (f := Span.forget ∘ Span.shift k) ?_ hlone⟩
      rw [Choice.mapSpans_mapSpans]

/-- Productions can be moved with their names and definitions. -/
theorem Production.Spelled.moves (hitem : Spelling.Moves item Item.mapSpans) :
    Spelling.Moves (Production.Spelled item) Production.mapSpans := by
  rintro offset cs p ⟨defined, between, meaning, hname, hbetween, hmeaning, hcs, hspan⟩ k
  refine ⟨defined, between, meaning, Name.moves hname k, hbetween, ?_, hcs, ?_⟩
  · rw [Nat.add_right_comm]
    exact Definition.Spelled.moves hitem hmeaning k
  · rw [← Span.shift_over, ← hspan]
    rfl

end Documents

end Notation

end Railroad
