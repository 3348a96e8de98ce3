import Railroad.Proofs.Notation.Relocation
set_option autoImplicit false

/-!
# A printed tree is read again

The printed form of a tree spells, at every offset, a tree that differs from it in nothing but spans
(`Spelling.Reprints`, one lemma for each part of a tree). It need not be the text from which the
tree was read: comments are gone, and the layout is always the same. What decides between a link and
a class, namely the text of the class, does not depend on spans. Hence reading what is printed gives
back the tree (`parse_print`).
-/

namespace Railroad.Notation

/-- The printed form of whatever is spelled spells, at every offset, something that is the same once
`forget` is applied. -/
def Spelling.Reprints {α : Type} (spelled : Spelling α) (chars : α → List Char) (forget : α → α) :
    Prop :=
  ∀ ⦃offset : Nat⦄ ⦃cs : List Char⦄ ⦃a : α⦄, spelled offset cs a →
    ∀ o, ∃ a', spelled o (chars a) a' ∧ forget a' = forget a

/-! ## Lexemes -/

/-- A name is printed as it is spelled. -/
theorem Name.reprints : Spelling.Reprints (fun offset cs n => Name.Spelled offset cs n) Name.chars
    (Name.mapSpans Span.forget) := by
  intro offset cs n h o
  rw [h.chars]
  obtain ⟨hcs, rfl⟩ := h
  exact ⟨_, ⟨hcs, rfl⟩, rfl⟩

theorem StringLiteral.reprints :
    Spelling.Reprints (fun offset cs s => StringLiteral.Spelled offset cs s) StringLiteral.chars
      (StringLiteral.mapSpans Span.forget) := by
  intro offset cs s h o
  rw [h.chars]
  obtain ⟨value, hquote, hvalue, hcs, hs⟩ := h
  refine ⟨⟨String.ofList value, s.quote, .over o cs⟩, ⟨value, hquote, hvalue, hcs, rfl⟩, ?_⟩
  rw [hs]
  rfl

theorem CharCode.reprints :
    Spelling.Reprints (fun offset cs k => CharCode.Spelled offset cs k) CharCode.chars
      (CharCode.mapSpans Span.forget) := by
  intro offset cs k h o
  rw [h.chars]
  obtain ⟨digits, hne, hall, hcs, rfl⟩ := h
  exact ⟨⟨String.ofList digits, .over o cs⟩, ⟨digits, hne, hall, hcs, rfl⟩, rfl⟩

/-- A link is printed with its address and its fragment, which stands where the address ends. -/
theorem Link.reprints : Spelling.Reprints (fun offset cs l => Link.Spelled offset cs l) Link.chars
    (Link.mapSpans Span.forget) := by
  intro offset cs l h o
  obtain ⟨url, fragment, span⟩ := l
  obtain ⟨haddress, hfragment, -, -⟩ := h
  cases fragment with
  | none => exact ⟨⟨url, none, .over o _⟩, ⟨haddress, by simp, rfl, rfl⟩, rfl⟩
  | some n =>
      -- the fragment stands behind the bracket, the address and the hash sign
      obtain ⟨n', hn', hforget⟩ :=
        Name.reprints (hfragment n rfl) (o + 1 + Text.byteLength url.toList + 1)
      have hchars := hn'.chars
      refine ⟨⟨url, some n', .over o _⟩, ⟨haddress, ?_, ?_, rfl⟩, ?_⟩
      · intro m hm
        obtain rfl := Option.some.inj hm
        rwa [hchars]
      · simp only [Link.chars_eq, fragmentChars, hchars]
      · simp only [Link.mapSpans, Option.map_some, hforget]
        rfl

/-- Moving the members of a class moves only spans. -/
theorem ClassItem.SpelledEach.reprints {offset o : Nat} {body : List Char} {items : List ClassItem}
    (h : SpelledEach offset body items) (hall : ∀ a ∈ body, Written.isClassChar a = true) :
    ∃ items', SpelledEach o body items' ∧
      items'.map (ClassItem.mapSpans Span.forget) = items.map (ClassItem.mapSpans Span.forget) := by
  -- the members at either offset are those at the start of a text, moved
  obtain ⟨atStart, hstart⟩ := SpelledEach.exists 0 hall
  have hmoved : ∀ k, SpelledEach k body (atStart.map (ClassItem.mapSpans (Span.shift k))) := by
    intro k
    exact hstart.matches_many (Nat.zero_add k).symm ⟨(List.append_nil body).symm, rfl⟩ (by simp)
  refine ⟨_, hmoved o, ?_⟩
  rw [h.unique (hmoved offset), List.map_map, List.map_map]
  apply List.map_congr_left
  intro i _
  simp only [Function.comp_apply, ClassItem.mapSpans_mapSpans]
  rfl

/-- A class is printed as its characters in brackets. -/
theorem CharClass.reprints :
    Spelling.Reprints (fun offset cs k => CharClass.Spelled offset cs k) CharClass.chars
      (CharClass.mapSpans Span.forget) := by
  intro offset cs k h o
  rw [h.chars]
  obtain ⟨body, hne, hall, hcaret, hcs, hitems, -⟩ := h
  obtain ⟨items, hitems', hforget⟩ :=
    hitems.reprints hall (o := o + Text.byteLength (['['] ++ k.caret))
  refine ⟨⟨k.negated, items, .over o cs⟩, ⟨body, hne, hall, hcaret, hcs, hitems', rfl⟩, ?_⟩
  simp only [CharClass.mapSpans, hforget]
  rfl

/-! ## Items -/

section Items

variable {group : Spelling Choice} {item : Spelling Item}

/-- What an item consists of is printed in the way of its kind. -/
theorem Primary.Spelled.reprints
    (hgroup : Spelling.Reprints group (fun c => '(' :: c.chars ++ [')'])
      (Choice.mapSpans Span.forget)) :
    Spelling.Reprints (Primary.Spelled group) Primary.chars (Primary.mapSpans Span.forget) := by
  intro offset cs p h o
  cases p with
  | name n =>
      obtain ⟨n', hn, hforget⟩ := Name.reprints h o
      exact ⟨.name n', hn, by rw [Primary.mapSpans, hforget, Primary.mapSpans]⟩
  | string s =>
      obtain ⟨s', hs, hforget⟩ := StringLiteral.reprints h o
      exact ⟨.string s', hs, by rw [Primary.mapSpans, hforget, Primary.mapSpans]⟩
  | code k =>
      obtain ⟨k', hk, hforget⟩ := CharCode.reprints h o
      exact ⟨.code k', hk, by rw [Primary.mapSpans, hforget, Primary.mapSpans]⟩
  | charClass k =>
      obtain ⟨k', hk, hforget⟩ := CharClass.reprints h o
      exact ⟨.charClass k', hk, by rw [Primary.mapSpans, hforget, Primary.mapSpans]⟩
  | group c =>
      obtain ⟨c', hc, hforget⟩ := hgroup h o
      exact ⟨.group c', hc, by rw [Primary.mapSpans, hforget, Primary.mapSpans]⟩

theorem Item.SpelledAs.reprints {primary : Spelling Primary}
    (hprimary : Spelling.Reprints primary Primary.chars (Primary.mapSpans Span.forget)) :
    Spelling.Reprints (Item.SpelledAs primary) Item.chars (Item.mapSpans Span.forget) := by
  rintro offset cs ⟨p, v, span⟩ ⟨body, hbody, -, -⟩ o
  obtain ⟨p', hp, hforget⟩ := hprimary hbody o
  refine ⟨⟨p', v, .over o _⟩, ⟨p.chars, hp, rfl, rfl⟩, ?_⟩
  rw [Item.mapSpans, Item.mapSpans, hforget]
  rfl

/-- Separated values are printed with any separator between them that the notation allows. -/
theorem Separated.reprints {α : Type} {between : Language Char} {spelled : Spelling α}
    {chars : α → List Char} {forget : α → α} {separator : List Char}
    (hseparator : separator ∈ between) (hspelled : Spelling.Reprints spelled chars forget) :
    ∀ {offset : Nat} {cs : List Char} {as : List α}, Separated between spelled offset cs as →
      ∀ o, ∃ as', Separated between spelled o (joinChars separator (as.map chars)) as' ∧
        as'.map forget = as.map forget := by
  intro offset cs as h
  induction h with
  | one ha =>
      intro o
      obtain ⟨a', ha', hforget⟩ := hspelled ha o
      exact ⟨[a'], .one ha', by simp [hforget]⟩
  | @more offset cs gap rest a as ha _ hrest ih =>
      intro o
      obtain ⟨a', ha', hforget⟩ := hspelled ha o
      obtain ⟨as', has', hforgets⟩ := ih (o + Text.byteLength (chars a ++ separator))
      refine ⟨a' :: as', ?_, by rw [List.map_cons, hforget, hforgets, List.map_cons]⟩
      -- more values follow, so that a separator is printed
      have hjoin : joinChars separator ((a :: as).map chars) =
          chars a ++ separator ++ joinChars separator (as.map chars) := by
        cases hrest <;> rfl
      rw [hjoin]
      exact .more ha' hseparator has'

theorem Item.charsEach_eq_map (items : List Item) :
    Item.charsEach items = items.map Item.chars := by
  induction items with
  | nil => rfl
  | cons item rest ih => rw [Item.charsEach, ih, List.map_cons]

theorem Branch.charsEach_eq_map (branches : List Branch) :
    Branch.charsEach branches = branches.map Branch.chars := by
  induction branches with
  | nil => rfl
  | cons branch rest ih => rw [Branch.charsEach, ih, List.map_cons]

theorem blank_mem_layout {breaks : Bool} : [' '] ∈ Written.layout breaks := by
  have hblank : [' '] ∈ Written.gap breaks := .inr ⟨' ', by simp, rfl⟩
  rw [← List.append_nil [' ']]
  exact Written.append_mem_kstar hblank (Language.nil_mem_kstar _)

/-- A blank on each side is layout around a word. -/
theorem blanks_mem_around (text : String) : [' '] ++ text.toList ++ [' '] ∈ Written.around text :=
  Language.append_mem_mul (Language.append_mem_mul blank_mem_layout rfl) blank_mem_layout

/-- A branch is printed with single blanks between its items, or with a dash and blanks around
it. -/
theorem Branch.Spelled.reprints
    (hitem : Spelling.Reprints item Item.chars (Item.mapSpans Span.forget)) :
    Spelling.Reprints (Branch.Spelled item) Branch.chars (Branch.mapSpans Span.forget) := by
  intro offset cs b h o
  cases b with
  | sequence items span =>
      have hblank : [' '] ∈ Written.plus (Written.gap false) :=
        ⟨[' '], .inr ⟨' ', by decide, rfl⟩, [], Language.nil_mem_kstar _, rfl⟩
      obtain ⟨items', hitems, hforget⟩ := Separated.reprints hblank hitem h.1 o
      rw [Branch.chars, Item.charsEach_eq_map]
      refine ⟨.sequence items' (.over o _), ⟨hitems, rfl⟩, ?_⟩
      rw [Branch.mapSpans, Branch.mapSpans, Item.mapSpansEach_eq_map, Item.mapSpansEach_eq_map,
        hforget]
      rfl
  | difference left right span =>
      obtain ⟨parts, hparts, hforget⟩ :=
        Separated.reprints (blanks_mem_around "-") hitem h.1 o
      -- two items are printed as two items
      obtain ⟨left', right', rfl⟩ : ∃ left' right', parts = [left', right'] :=
        List.length_eq_two.1 (by simpa using congrArg List.length hforget)
      simp only [List.map_cons, List.map_nil, List.cons.injEq, and_true] at hforget
      refine ⟨.difference left' right' (.over o _), ⟨hparts, rfl⟩, ?_⟩
      rw [Branch.mapSpans, Branch.mapSpans, hforget.1, hforget.2]
      rfl

/-- A choice is printed with bars and blanks around them. -/
theorem Choice.Spelled.reprints
    (hitem : Spelling.Reprints item Item.chars (Item.mapSpans Span.forget)) :
    Spelling.Reprints (Choice.Spelled item) Choice.chars (Choice.mapSpans Span.forget) := by
  rintro offset cs ⟨branches, span⟩ ⟨hbranches, -⟩ o
  obtain ⟨branches', hbranches', hforget⟩ :=
    Separated.reprints (blanks_mem_around "|") (Branch.Spelled.reprints hitem) hbranches o
  rw [Choice.chars, Branch.charsEach_eq_map]
  refine ⟨⟨branches', .over o _⟩, ⟨hbranches', rfl⟩, ?_⟩
  rw [Choice.mapSpans, Choice.mapSpans, Branch.mapSpansEach_eq_map, Branch.mapSpansEach_eq_map,
    hforget]
  rfl

/-- A group is printed without layout inside its parentheses. -/
theorem Choice.SpelledInGroup.reprints {choice : Spelling Choice}
    (hchoice : Spelling.Reprints choice Choice.chars (Choice.mapSpans Span.forget)) :
    Spelling.Reprints (Choice.SpelledInGroup choice) (fun c => '(' :: c.chars ++ [')'])
      (Choice.mapSpans Span.forget) := by
  rintro offset cs c ⟨before, inner, after, -, -, -, h⟩ o
  obtain ⟨c', hc', hforget⟩ := hchoice h (o + Text.byteLength (['('] ++ []))
  exact ⟨c', ⟨[], c.chars, [], Language.nil_mem_kstar _, Language.nil_mem_kstar _, by simp, hc'⟩,
    hforget⟩

/-- Items of each depth are read back, by induction on the depth. -/
theorem Item.SpelledWithin.reprints : ∀ depth,
    Spelling.Reprints (Item.SpelledWithin depth) Item.chars (Item.mapSpans Span.forget)
  | 0 => Item.SpelledAs.reprints (Primary.Spelled.reprints fun _ _ _ h => h.elim)
  | depth + 1 => Item.SpelledAs.reprints (Primary.Spelled.reprints (Choice.SpelledInGroup.reprints
      (Choice.Spelled.reprints (Item.SpelledWithin.reprints depth))))

end Items

/-! ## Definitions, productions and documents -/

section Documents

variable {depth : Nat}

/-- A printed choice is a link no more than the choice that it prints. -/
theorem Definition.Spelled.reprints :
    Spelling.Reprints (Definition.Spelled (Item.SpelledWithin depth)) Definition.chars
      (Definition.mapSpans Span.forget) := by
  intro offset cs v h o
  cases v with
  | link l =>
      obtain ⟨l', hl, hforget⟩ := Link.reprints h o
      exact ⟨.link l', hl, by rw [Definition.mapSpans, hforget, Definition.mapSpans]⟩
  | choice c =>
      obtain ⟨hc, hlone⟩ := h
      obtain ⟨c', hc', hforget⟩ := Choice.Spelled.reprints (Item.SpelledWithin.reprints depth) hc o
      refine ⟨.choice c', ⟨hc', ?_⟩, by rw [Definition.mapSpans, hforget, Definition.mapSpans]⟩
      exact Choice.lone_notMem_link hforget hlone

/-- A production is printed with its sign and blanks around it. -/
theorem Production.Spelled.reprints :
    Spelling.Reprints (Production.Spelled (Item.SpelledWithin depth)) Production.chars
      (Production.mapSpans Span.forget) := by
  rintro offset cs ⟨n, v, span⟩ ⟨defined, between, meaning, hname, -, hmeaning, -, -⟩ o
  obtain ⟨n', hn, hforget⟩ := Name.reprints hname o
  obtain ⟨v', hv, hforget'⟩ := Definition.Spelled.reprints hmeaning
    (o + Text.byteLength (n.chars ++ [' ', ':', ':', '=', ' ']))
  refine ⟨⟨n', v', .over o _⟩, ⟨n.chars, [' ', ':', ':', '=', ' '], v.chars, hn,
    blanks_mem_around "::=", hv, rfl, rfl⟩, ?_⟩
  rw [Production.mapSpans, Production.mapSpans, hforget, hforget']
  rfl

/-- The printed form of a tree that is spelled spells a tree that is the same but for its spans. -/
theorem Document.Spelled.reprints {cs : List Char} {v : Document}
    (h : v.Spelled (Item.SpelledWithin depth) cs) :
    ∃ r : Document, r.Spelled (Item.SpelledWithin depth) v.chars ∧
      r.withoutSpans = v.withoutSpans := by
  obtain ⟨before, body, after, -, -, -, hbody⟩ := h
  obtain ⟨productions, hproductions, hforget⟩ :=
    Separated.reprints newline_mem_lineBreak Production.Spelled.reprints hbody (Text.byteLength [])
  refine ⟨⟨productions⟩, ⟨[], v.chars, [], Language.nil_mem_kstar _, Language.nil_mem_kstar _,
    by simp, hproductions⟩, ?_⟩
  rw [Document.withoutSpans, Document.mapSpans, hforget]
  rfl

/-- Reading the printed form of a tree that was read gives back the tree, but for its spans. -/
theorem parse_print {text : String} {v : Document} (h : parse text = .ok v) :
    ∃ r, parse v.print = .ok r ∧ r.withoutSpans = v.withoutSpans := by
  obtain ⟨r, hr, hforget⟩ := (parse_eq_ok_iff.1 h).reprints
  refine ⟨r, parse_eq_ok_iff.2 ?_, hforget⟩
  rwa [Document.print, String.toList_ofList]

/-- Neither the comment nor the layout of a text survives, and what is printed is read as the same
tree. -/
theorem parse_print_comment : ∃ v r, parse "A::='b'/* c */|[x-z]?" = .ok v ∧
    v.print = "A ::= 'b' | [x-z]?" ∧ parse v.print = .ok r ∧ r.withoutSpans = v.withoutSpans := by
  have hprint : (parse "A::='b'/* c */|[x-z]?").toOption.map Document.print =
      some "A ::= 'b' | [x-z]?" := by decide +kernel
  cases h : parse "A::='b'/* c */|[x-z]?" with
  | error e => simp [h, Except.toOption] at hprint
  | ok v =>
      obtain ⟨r, hr, hsame⟩ := parse_print h
      exact ⟨v, r, rfl, by simpa [h, Except.toOption] using hprint, hr, hsame⟩

end Documents

end Railroad.Notation
