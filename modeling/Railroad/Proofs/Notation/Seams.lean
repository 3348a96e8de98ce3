import Railroad.Proofs.Diagram.Drawable
set_option autoImplicit false

/-!
# Layout makes no difference

Between two neighbouring parts of a grammar text there is room for layout, whether some stands there
already or not. The places with room are the seams of a tree: the bounds of the names and the
definitions of productions and of all items, however deep. A seam at the bound of a part is next to
a separator, which takes in what is put there (`Absorbs`); any other seam is one of some part
within. So every part of a tree that is widened at one of its seams is spelled as before
(`Spelling.Widens`, one lemma for each part), what stands behind the seam being moved by the length
of the layout. For a whole text this is `parse_insert_layout`: neither the tree, its spans apart,
nor the grammar changes.
-/

namespace Railroad.Notation

/-! ## Seams -/

mutual

/-- The spans of the items in a primary. -/
def Primary.itemSpans : Primary → List Span
  | .name _ => []
  | .string _ => []
  | .code _ => []
  | .charClass _ => []
  | .group c => c.itemSpans

/-- The spans of an item and of the items within it. -/
def Item.itemSpans : Item → List Span
  | ⟨primary, _, span⟩ => span :: primary.itemSpans

/-- The spans of the items of a branch and of those within them. -/
def Branch.itemSpans : Branch → List Span
  | .sequence items _ => Item.itemSpansEach items
  | .difference left right _ => left.itemSpans ++ right.itemSpans

/-- The spans of the items of a choice and of those within them. -/
def Choice.itemSpans : Choice → List Span
  | ⟨branches, _⟩ => Branch.itemSpansEach branches

/-- The spans of several items and of those within them. -/
def Item.itemSpansEach : List Item → List Span
  | [] => []
  | item :: rest => item.itemSpans ++ Item.itemSpansEach rest

/-- The spans of the items of several branches and of those within them. -/
def Branch.itemSpansEach : List Branch → List Span
  | [] => []
  | branch :: rest => branch.itemSpans ++ Branch.itemSpansEach rest

end

/-- The spans of a definition and of all items within it. -/
def Definition.seamSpans : Definition → List Span
  | .choice c => c.span :: c.itemSpans
  | .link l => [l.span]

/-- The spans of the name and the definition of a production and of all items. -/
def Production.seamSpans (p : Production) : List Span := p.name.span :: p.definition.seamSpans

/-- The spans of the names and the definitions of all productions and of all items. -/
def Document.seamSpans (d : Document) : List Span := d.productions.flatMap Production.seamSpans

/-- An offset is a bound of one of some spans. -/
def IsBound (spans : List Span) (o : Nat) : Prop := ∃ s ∈ spans, o = s.start ∨ o = s.stop

instance (spans : List Span) (o : Nat) : Decidable (IsBound spans o) :=
  inferInstanceAs (Decidable (∃ s ∈ spans, o = s.start ∨ o = s.stop))

theorem Item.itemSpansEach_eq_flatMap (items : List Item) :
    Item.itemSpansEach items = items.flatMap Item.itemSpans := by
  induction items with
  | nil => rfl
  | cons item rest ih => rw [Item.itemSpansEach, ih, List.flatMap_cons]

theorem Branch.itemSpansEach_eq_flatMap (branches : List Branch) :
    Branch.itemSpansEach branches = branches.flatMap Branch.itemSpans := by
  induction branches with
  | nil => rfl
  | cons branch rest ih => rw [Branch.itemSpansEach, ih, List.flatMap_cons]

theorem isBound_cons {s : Span} {spans : List Span} {o : Nat} :
    IsBound (s :: spans) o ↔ (o = s.start ∨ o = s.stop) ∨ IsBound spans o :=
  List.exists_mem_cons_iff ..

/-- An offset is a bound of some spans or of the others. -/
theorem isBound_append {spans spans' : List Span} {o : Nat} :
    IsBound (spans ++ spans') o ↔ IsBound spans o ∨ IsBound spans' o := by
  simp only [IsBound, List.mem_append, or_and_right, exists_or]

/-! ## Widening -/

/-- Separators that may be preceded and followed by more layout. -/
def Absorbs (between : Language Char) : Prop :=
  ∀ ⦃gap : List Char⦄, gap ∈ between → ∀ ⦃more : List Char⦄, more ∈ Written.layout false →
    more ++ gap ∈ between ∧ gap ++ more ∈ between

/-- With layout at an offset the text still spells something that is the same once `forget` is
applied. -/
def Spelling.WidensAt {α : Type} (spelled : Spelling α) (forget : α → α) (offset : Nat)
    (cs : List Char) (a : α) (o : Nat) : Prop :=
  ∃ before after, cs = before ++ after ∧ o = offset + Text.byteLength before ∧
    ∀ more ∈ Written.layout false, ∃ a', spelled offset (before ++ more ++ after) a' ∧
      forget a' = forget a

/-- Whatever is spelled has room for layout at all bounds of some spans in it. -/
def Spelling.WidensWithin {α : Type} (spelled : Spelling α) (forget : α → α)
    (spans : α → List Span) : Prop :=
  ∀ ⦃offset : Nat⦄ ⦃cs : List Char⦄ ⦃a : α⦄, spelled offset cs a → ∀ o, IsBound (spans a) o →
    spelled.WidensAt forget offset cs a o

/-- Whatever is spelled has room for layout at all bounds of some spans in it that are not its
own. -/
def Spelling.Widens {α : Type} (spelled : Spelling α) (forget : α → α) (spans : α → List Span) :
    Prop :=
  ∀ ⦃offset : Nat⦄ ⦃cs : List Char⦄ ⦃a : α⦄, spelled offset cs a → ∀ o, IsBound (spans a) o →
    (o = offset ∨ o = offset + Text.byteLength cs) ∨ spelled.WidensAt forget offset cs a o

/-- Whatever is spelled is spelled further on as well, as something that is the same once `forget`
is applied. -/
def Spelling.Travels {α : Type} (spelled : Spelling α) (forget : α → α) : Prop :=
  ∀ ⦃offset : Nat⦄ ⦃cs : List Char⦄ ⦃a : α⦄, spelled offset cs a →
    ∀ k, ∃ a', spelled (offset + k) cs a' ∧ forget a' = forget a

/-- More layout can be put in front of layout and behind it. -/
theorem absorbs_plus_gap : Absorbs (Written.plus (Written.gap false)) := by
  rintro _ ⟨gap, hgap, rest, hrest, rfl⟩ more hmore
  constructor
  · -- the layout in front, if there is any, begins with a gap of its own
    obtain ⟨pieces, rfl, hpieces⟩ := hmore
    cases pieces with
    | nil => exact ⟨gap, hgap, rest, hrest, rfl⟩
    | cons piece pieces =>
        obtain ⟨hpiece, hpieces⟩ := List.forall_mem_cons.1 hpieces
        rw [List.flatten_cons, List.append_assoc]
        exact ⟨piece, hpiece, _, append_mem_layout ⟨pieces, rfl, hpieces⟩
          (Written.append_mem_kstar hgap hrest), rfl⟩
  · exact ⟨gap, hgap, rest ++ more, append_mem_layout hrest hmore, (List.append_assoc ..).symm⟩

/-- More layout can be put on either side of a word with layout around it. -/
theorem absorbs_around (text : String) : Absorbs (Written.around text) := by
  rintro _ ⟨_, ⟨before, hbefore, word, hword, rfl⟩, after, hafter, rfl⟩ more hmore
  constructor
  · refine ⟨_, ⟨more ++ before, append_mem_layout hmore hbefore, word, hword, rfl⟩, after, hafter,
      ?_⟩
    simp only [List.append_assoc]
  · refine ⟨_, ⟨before, hbefore, word, hword, rfl⟩, after ++ more, append_mem_layout hafter hmore,
      ?_⟩
    simp only [List.append_assoc]

theorem absorbs_lineBreak : Absorbs Written.lineBreak := fun _ hgap _ hmore =>
  ⟨layout_append_mem_lineBreak (mem_layout_true hmore) hgap,
    append_mem_lineBreak hgap (mem_layout_true hmore)⟩

/-! ## Separated values -/

section Separated

variable {α : Type} {between : Language Char} {spelled : Spelling α} {forget : α → α}

/-- Separated values from their parts, whatever form the offset and the text are given in. -/
theorem Separated.more_of_eq {offset start : Nat} {cs gap rest text : List Char} {a : α}
    {as : List α}
    (ha : spelled offset cs a) (hgap : gap ∈ between)
    (hrest : Separated between spelled start rest as)
    (hstart : start = offset + Text.byteLength (cs ++ gap)) (htext : text = cs ++ gap ++ rest) :
    Separated between spelled offset text (a :: as) := by
  subst hstart htext
  exact .more ha hgap hrest

/-- Separated values can be moved one by one. -/
theorem Separated.travels (hspelled : spelled.Travels forget) :
    Spelling.Travels (Separated between spelled) (List.map forget) := by
  intro offset cs as h k
  induction h with
  | one ha =>
      obtain ⟨a', ha', hforget⟩ := hspelled ha k
      exact ⟨[a'], .one ha', by simp [hforget]⟩
  | more ha hgap _ ih =>
      obtain ⟨a', ha', hforget⟩ := hspelled ha k
      obtain ⟨as', has', hforgets⟩ := ih
      rw [Nat.add_right_comm] at has'
      exact ⟨a' :: as', .more ha' hgap has', by simp [hforget, hforgets]⟩

/-- A seam between two of several values is next to the separator between them. -/
theorem Separated.widens {spans : α → List Span} (hbetween : Absorbs between)
    (htravels : spelled.Travels forget) (hspelled : spelled.Widens forget spans) :
    Spelling.Widens (Separated between spelled) (List.map forget) (List.flatMap spans) := by
  intro offset cs as h o ho
  induction h with
  | @one offset cs a ha =>
      rw [List.flatMap_singleton] at ho
      rcases hspelled ha o ho with hbound | ⟨before, after, hcs, hoffset, hwiden⟩
      · exact .inl hbound
      · refine .inr ⟨before, after, hcs, hoffset, fun more hmore => ?_⟩
        obtain ⟨a', ha', hforget⟩ := hwiden more hmore
        exact ⟨[a'], .one ha', by simp [hforget]⟩
  | @more offset cs gap rest a as ha hgap hrest ih =>
      rw [List.flatMap_cons, isBound_append] at ho
      rcases ho with ho | ho
      · rcases hspelled ha o ho with (rfl | rfl) | ⟨before, after, rfl, rfl, hwiden⟩
        · exact .inl (.inl rfl)
        · -- behind the first value
          refine .inr ⟨cs, gap ++ rest, List.append_assoc .., rfl, fun more hmore => ?_⟩
          obtain ⟨as', has', hforgets⟩ := Separated.travels htravels hrest (Text.byteLength more)
          refine ⟨a :: as', .more_of_eq ha (hbetween hgap hmore).1 has' ?_ ?_, by simp [hforgets]⟩
          · simp only [Text.byteLength_append]
            omega
          · simp only [List.append_assoc]
        · -- within the first value
          refine .inr ⟨before, after ++ (gap ++ rest), by simp only [List.append_assoc], rfl,
            fun more hmore => ?_⟩
          obtain ⟨a', ha', hforget⟩ := hwiden more hmore
          obtain ⟨as', has', hforgets⟩ := Separated.travels htravels hrest (Text.byteLength more)
          refine ⟨a' :: as', .more_of_eq ha' hgap has' ?_ ?_, by simp [hforget, hforgets]⟩
          · simp only [Text.byteLength_append]
            omega
          · simp only [List.append_assoc]
      · rcases ih ho with (rfl | rfl) | ⟨before, after, rfl, rfl, hwiden⟩
        · -- in front of the second value
          refine .inr ⟨cs ++ gap, rest, rfl, rfl, fun more hmore => ?_⟩
          obtain ⟨as', has', hforgets⟩ := Separated.travels htravels hrest (Text.byteLength more)
          refine ⟨a :: as', .more_of_eq ha (hbetween hgap hmore).2 has' ?_ ?_, by simp [hforgets]⟩
          · simp only [Text.byteLength_append]
            omega
          · simp only [List.append_assoc]
        · refine .inl (.inr ?_)
          simp only [Text.byteLength_append]
          omega
        · -- within the further values
          refine .inr ⟨cs ++ gap ++ before, after, by simp only [List.append_assoc], ?_,
            fun more hmore => ?_⟩
          · simp only [Text.byteLength_append]
            omega
          · obtain ⟨as', has', hforgets⟩ := hwiden more hmore
            refine ⟨a :: as', .more_of_eq ha hgap has' rfl ?_, by simp [hforgets]⟩
            simp only [List.append_assoc]

end Separated

/-! ## Items -/

section Items

variable {item : Spelling Item}

theorem Item.travels (hmoves : Spelling.Moves item Item.mapSpans) :
    item.Travels (Item.mapSpans Span.forget) :=
  fun _ _ i h k => ⟨i.mapSpans (Span.shift k), hmoves h k, i.mapSpans_mapSpans⟩

theorem Branch.travels (hmoves : Spelling.Moves item Item.mapSpans) :
    Spelling.Travels (Branch.Spelled item) (Branch.mapSpans Span.forget) :=
  fun _ _ b h k => ⟨b.mapSpans (Span.shift k), Branch.Spelled.moves hmoves h k, b.mapSpans_mapSpans⟩

/-- The seams of a group are all between its parentheses. -/
theorem Choice.SpelledInGroup.widensWithin {choice : Spelling Choice}
    (hmoves : Spelling.Moves choice Choice.mapSpans)
    (hchoice : choice.Widens (Choice.mapSpans Span.forget) Choice.itemSpans) :
    Spelling.WidensWithin (Choice.SpelledInGroup choice) (Choice.mapSpans Span.forget)
      Choice.itemSpans := by
  rintro offset _ c ⟨before, inner, after, hbefore, hafter, rfl, hinner⟩ o ho
  rcases hchoice hinner o ho with (rfl | rfl) | ⟨front, back, rfl, rfl, hwiden⟩
  · -- behind the layout that follows the opening parenthesis
    refine ⟨['('] ++ before, inner ++ after ++ [')'], by simp only [List.append_assoc], rfl,
      fun more hmore => ⟨c.mapSpans (Span.shift (Text.byteLength more)), ?_, c.mapSpans_mapSpans⟩⟩
    refine ⟨before ++ more, inner, after, append_mem_layout hbefore hmore, hafter,
      by simp only [List.append_assoc], ?_⟩
    have hmoved := hmoves hinner (Text.byteLength more)
    rwa [Nat.add_assoc, ← Text.byteLength_append, List.append_assoc] at hmoved
  · -- in front of the layout that precedes the closing parenthesis
    refine ⟨['('] ++ before ++ inner, after ++ [')'], by simp only [List.append_assoc], ?_,
      fun more hmore => ⟨c, ?_, rfl⟩⟩
    · rw [Text.byteLength_append _ inner, Nat.add_assoc]
    · exact ⟨before, inner, more ++ after, hbefore, append_mem_layout hmore hafter,
        by simp only [List.append_assoc], hinner⟩
  -- within the choice
  · refine ⟨['('] ++ before ++ front, back ++ after ++ [')'], by simp only [List.append_assoc], ?_,
      fun more hmore => ?_⟩
    · rw [Text.byteLength_append _ front, Nat.add_assoc]
    · obtain ⟨c', hc', hforget⟩ := hwiden more hmore
      exact ⟨c', ⟨before, front ++ more ++ back, after, hbefore, hafter,
        by simp only [List.append_assoc], hc'⟩, hforget⟩

/-- There are bounds of items in a group only. -/
theorem Primary.Spelled.widensWithin {group : Spelling Choice}
    (hgroup : group.WidensWithin (Choice.mapSpans Span.forget) Choice.itemSpans) :
    Spelling.WidensWithin (Primary.Spelled group) (Primary.mapSpans Span.forget)
      Primary.itemSpans := by
  intro offset cs p h o ho
  cases p with
  | group c =>
      obtain ⟨before, after, hcs, hoffset, hwiden⟩ := hgroup h o ho
      refine ⟨before, after, hcs, hoffset, fun more hmore => ?_⟩
      obtain ⟨c', hc', hforget⟩ := hwiden more hmore
      exact ⟨.group c', hc', congrArg Primary.group hforget⟩
  | _ =>
      -- nothing else has items in it
      obtain ⟨s, hs, -⟩ := ho
      cases hs

/-- A bound of an item is one of its own ends, or lies in the group that it consists of. -/
theorem Item.SpelledAs.widens {primary : Spelling Primary}
    (hprimary : primary.WidensWithin (Primary.mapSpans Span.forget) Primary.itemSpans) :
    Spelling.Widens (Item.SpelledAs primary) (Item.mapSpans Span.forget) Item.itemSpans := by
  rintro offset cs ⟨p, v, span⟩ ⟨body, hbody, hcs, hspan⟩ o ho
  obtain rfl : cs = body ++ markChars v := hcs
  obtain rfl : span = .over offset (body ++ markChars v) := hspan
  rcases isBound_cons.1 ho with hbound | ho
  · exact .inl hbound
  -- the mark stays behind what is widened
  · obtain ⟨before, after, rfl, hoffset, hwiden⟩ := hprimary hbody o ho
    refine .inr ⟨before, after ++ markChars v, by simp only [List.append_assoc], hoffset,
      fun more hmore => ?_⟩
    obtain ⟨p', hp', hforget⟩ := hwiden more hmore
    refine ⟨⟨p', v, .over offset _⟩, ⟨_, hp', ?_, rfl⟩, ?_⟩
    · simp only [List.append_assoc]
    · rw [Item.mapSpans, Item.mapSpans, hforget]
      rfl

/-- A bound in a branch is the end of one of its items, or lies in one of them. -/
theorem Branch.Spelled.widens (hmoves : Spelling.Moves item Item.mapSpans)
    (hitem : item.Widens (Item.mapSpans Span.forget) Item.itemSpans) :
    Spelling.Widens (Branch.Spelled item) (Branch.mapSpans Span.forget) Branch.itemSpans := by
  intro offset cs b h o ho
  cases b with
  | sequence items span =>
      rw [Branch.itemSpans, Item.itemSpansEach_eq_flatMap] at ho
      rcases Separated.widens absorbs_plus_gap (Item.travels hmoves) hitem h.1 o ho with
        hbound | ⟨before, after, hcs, hoffset, hwiden⟩
      · exact .inl hbound
      · refine .inr ⟨before, after, hcs, hoffset, fun more hmore => ?_⟩
        obtain ⟨items', hitems', hforget⟩ := hwiden more hmore
        refine ⟨.sequence items' (.over offset _), ⟨hitems', rfl⟩, ?_⟩
        rw [Branch.mapSpans, Branch.mapSpans, Item.mapSpansEach_eq_map, Item.mapSpansEach_eq_map,
          hforget]
        rfl
  | difference left right span =>
      have ho' : IsBound ([left, right].flatMap Item.itemSpans) o := by
        simpa [Branch.itemSpans] using ho
      rcases Separated.widens (absorbs_around "-") (Item.travels hmoves) hitem h.1 o ho' with
        hbound | ⟨before, after, hcs, hoffset, hwiden⟩
      · exact .inl hbound
      · refine .inr ⟨before, after, hcs, hoffset, fun more hmore => ?_⟩
        obtain ⟨parts, hparts, hforget⟩ := hwiden more hmore
        obtain ⟨left', right', rfl⟩ : ∃ left' right', parts = [left', right'] :=
          List.length_eq_two.1 (by simpa using congrArg List.length hforget)
        simp only [List.map_cons, List.map_nil, List.cons.injEq, and_true] at hforget
        refine ⟨.difference left' right' (.over offset _), ⟨hparts, rfl⟩, ?_⟩
        rw [Branch.mapSpans, Branch.mapSpans, hforget.1, hforget.2]
        rfl

/-- A bound in a choice lies in one of its branches or at the end of one. -/
theorem Choice.Spelled.widens (hmoves : Spelling.Moves item Item.mapSpans)
    (hitem : item.Widens (Item.mapSpans Span.forget) Item.itemSpans) :
    Spelling.Widens (Choice.Spelled item) (Choice.mapSpans Span.forget) Choice.itemSpans := by
  rintro offset cs ⟨branches, span⟩ h o ho
  rw [Choice.itemSpans, Branch.itemSpansEach_eq_flatMap] at ho
  rcases Separated.widens (absorbs_around "|") (Branch.travels hmoves)
      (Branch.Spelled.widens hmoves hitem) h.1 o ho with
    hbound | ⟨before, after, hcs, hoffset, hwiden⟩
  · exact .inl hbound
  · refine .inr ⟨before, after, hcs, hoffset, fun more hmore => ?_⟩
    obtain ⟨branches', hbranches', hforget⟩ := hwiden more hmore
    refine ⟨⟨branches', .over offset _⟩, ⟨hbranches', rfl⟩, ?_⟩
    rw [Choice.mapSpans, Choice.mapSpans, Branch.mapSpansEach_eq_map, Branch.mapSpansEach_eq_map,
      hforget]
    rfl

/-- Items of each depth can be widened, by induction on the depth. -/
theorem Item.SpelledWithin.widens : ∀ depth,
    Spelling.Widens (Item.SpelledWithin depth) (Item.mapSpans Span.forget) Item.itemSpans
  | 0 => Item.SpelledAs.widens (Primary.Spelled.widensWithin fun _ _ _ h => h.elim)
  | depth + 1 =>
      have hmoves := Item.SpelledWithin.moves depth
      Item.SpelledAs.widens (Primary.Spelled.widensWithin (Choice.SpelledInGroup.widensWithin
        (Choice.Spelled.moves hmoves)
          (Choice.Spelled.widens hmoves (Item.SpelledWithin.widens depth))))

end Items

/-! ## Definitions, productions and documents -/

section Documents

variable {depth : Nat}

theorem Production.travels : Spelling.Travels (Production.Spelled (Item.SpelledWithin depth))
    (Production.mapSpans Span.forget) :=
  fun _ _ p h k => ⟨p.mapSpans (Span.shift k),
    Production.Spelled.moves (Item.SpelledWithin.moves depth) h k, p.mapSpans_mapSpans⟩

/-- Widening a choice does not make a link of it, since a class alone has no seam in it. -/
theorem Definition.Spelled.widens :
    Spelling.Widens (Definition.Spelled (Item.SpelledWithin depth))
      (Definition.mapSpans Span.forget) Definition.seamSpans := by
  intro offset cs v h o ho
  cases v with
  | link l =>
      rcases isBound_cons.1 ho with hbound | ⟨s, hs, -⟩
      · rw [h.2.2.2] at hbound
        exact .inl hbound
      -- a link has no bounds but its own ends
      · cases hs
  | choice c =>
      obtain ⟨hc, hlone⟩ := h
      rcases isBound_cons.1 ho with hbound | ho
      · rw [hc.2] at hbound
        exact .inl hbound
      · have hwidens := Choice.Spelled.widens (Item.SpelledWithin.moves depth)
          (Item.SpelledWithin.widens depth) hc
        rcases hwidens o ho with hbound | ⟨before, after, hcs, hoffset, hwiden⟩
        · exact .inl hbound
        · refine .inr ⟨before, after, hcs, hoffset, fun more hmore => ?_⟩
          obtain ⟨c', hc', hforget⟩ := hwiden more hmore
          exact ⟨.choice c', ⟨hc', Choice.lone_notMem_link hforget hlone⟩,
            congrArg Definition.choice hforget⟩

/-- A bound in a production is an end of its name or of its definition, or lies in the
definition. -/
theorem Production.Spelled.widens :
    Spelling.Widens (Production.Spelled (Item.SpelledWithin depth))
      (Production.mapSpans Span.forget) Production.seamSpans := by
  rintro offset _ ⟨n, v, span⟩ ⟨defined, between, meaning, hname, hbetween, hmeaning, rfl, rfl⟩ o ho
  have hmoves := Definition.Spelled.moves (Item.SpelledWithin.moves depth) hmeaning
  rcases isBound_cons.1 ho with hbound | ho
  · rw [hname.2] at hbound
    rcases hbound with rfl | rfl
    · exact .inl (.inl rfl)
    · -- behind the name
      refine .inr ⟨defined, between ++ meaning, List.append_assoc .., rfl, fun more hmore =>
        ⟨⟨n, v.mapSpans (Span.shift (Text.byteLength more)),
          .over offset (defined ++ more ++ (between ++ meaning))⟩, ?_, ?_⟩⟩
      · refine ⟨defined, more ++ between, meaning, hname, (absorbs_around _ hbetween hmore).1, ?_,
          by simp only [List.append_assoc], rfl⟩
        have hmoved := hmoves (Text.byteLength more)
        have hoffset : offset + Text.byteLength (defined ++ between) + Text.byteLength more =
            offset + Text.byteLength (defined ++ (more ++ between)) := by
          simp only [Text.byteLength_append]
          omega
        rwa [hoffset] at hmoved
      · rw [Production.mapSpans, Production.mapSpans, v.mapSpans_mapSpans]
        rfl
  · rcases Definition.Spelled.widens hmeaning o ho with (rfl | rfl)
      | ⟨before, after, rfl, rfl, hwiden⟩
    · -- in front of the definition
      refine .inr ⟨defined ++ between, meaning, rfl, rfl, fun more hmore =>
        ⟨⟨n, v.mapSpans (Span.shift (Text.byteLength more)),
          .over offset (defined ++ between ++ more ++ meaning)⟩, ?_, ?_⟩⟩
      · refine ⟨defined, between ++ more, meaning, hname, (absorbs_around _ hbetween hmore).2, ?_,
          by simp only [List.append_assoc], rfl⟩
        have hmoved := hmoves (Text.byteLength more)
        rwa [Nat.add_assoc, ← Text.byteLength_append, List.append_assoc] at hmoved
      · rw [Production.mapSpans, Production.mapSpans, v.mapSpans_mapSpans]
        rfl
    · refine .inl (.inr ?_)
      rw [Text.byteLength_append _ meaning, Nat.add_assoc]
    · -- within the definition
      refine .inr ⟨defined ++ between ++ before, after, by simp only [List.append_assoc], ?_,
        fun more hmore => ?_⟩
      · rw [Text.byteLength_append _ before, Nat.add_assoc]
      · obtain ⟨v', hv', hforget⟩ := hwiden more hmore
        refine ⟨⟨n, v', .over offset _⟩, ⟨defined, between, _, hname, hbetween, hv',
          by simp only [List.append_assoc], rfl⟩, ?_⟩
        rw [Production.mapSpans, Production.mapSpans, hforget]
        rfl

/-- A text that spells a tree has room for layout at each seam of the tree. -/
theorem Document.Spelled.exists_widened {cs more : List Char} {v : Document}
    (h : v.Spelled (Item.SpelledWithin depth) cs) {o : Nat} (ho : IsBound v.seamSpans o)
    (hmore : more ∈ Written.layout false) :
    ∃ before after, cs = before ++ after ∧ Text.byteLength before = o ∧
      ∃ w : Document, w.Spelled (Item.SpelledWithin depth) (before ++ more ++ after) ∧
        w.withoutSpans = v.withoutSpans := by
  obtain ⟨before, body, after, hbefore, hafter, rfl, hbody⟩ := h
  have hwidens :=
    Separated.widens absorbs_lineBreak Production.travels Production.Spelled.widens hbody
  rcases hwidens o ho with (rfl | rfl) | ⟨front, back, rfl, rfl, hwiden⟩
  · -- in front of the first production
    obtain ⟨ps, hps, hforget⟩ := Separated.travels Production.travels hbody (Text.byteLength more)
    refine ⟨before, body ++ after, List.append_assoc .., rfl, ⟨ps⟩, ?_,
      congrArg Document.mk hforget⟩
    refine ⟨before ++ more, body, after, append_mem_layout hbefore (mem_layout_true hmore), hafter,
      by simp only [List.append_assoc], ?_⟩
    rwa [Text.byteLength_append]
  · -- behind the last production
    refine ⟨before ++ body, after, rfl, Text.byteLength_append .., v, ?_, rfl⟩
    exact ⟨before, body, more ++ after, hbefore, append_mem_layout (mem_layout_true hmore) hafter,
      by simp only [List.append_assoc], hbody⟩
  -- within the productions or between two of them
  · obtain ⟨ps, hps, hforget⟩ := hwiden more hmore
    refine ⟨before ++ front, back ++ after, by simp only [List.append_assoc],
      Text.byteLength_append .., ⟨ps⟩, ?_, congrArg Document.mk hforget⟩
    exact ⟨before, front ++ more ++ back, after, hbefore, hafter,
      by simp only [List.append_assoc], hps⟩

/-- At every seam of its tree a grammar text may be cut and any blanks, tabs and comments be put in.
The new text is read as the same tree but for its spans, and both texts have one grammar. -/
theorem parse_insert_layout {text : String} {v : Document} {o : Nat} {more : List Char}
    (hv : parse text = .ok v) (ho : IsBound v.seamSpans o) (hmore : more ∈ Written.layout false) :
    ∃ before after, text.toList = before ++ after ∧ Text.byteLength before = o ∧
      ∃ w g, parse (String.ofList (before ++ more ++ after)) = .ok w ∧
        w.withoutSpans = v.withoutSpans ∧ Grammar.read text = .ok g ∧
        Grammar.read (String.ofList (before ++ more ++ after)) = .ok g := by
  obtain ⟨before, after, htext, hbefore, w, hw, hforget⟩ :=
    (parse_eq_ok_iff.1 hv).exists_widened ho hmore
  have hparse : parse (String.ofList (before ++ more ++ after)) = .ok w := by
    apply parse_eq_ok_iff.2
    rwa [String.toList_ofList]
  obtain ⟨g, hg, hg'⟩ := Grammar.exists_read_of_withoutSpans_eq hv hparse hforget
  exact ⟨before, after, htext, hbefore, w, g, hparse, hforget, hg, hg'⟩

/-- In front of a dash within a group, a comment is put in that goes on in another line. -/
theorem parse_insert_layout_comment : ∃ v before after w g,
    parse "A::=('é'-B)? /**/[a]" = .ok v ∧ IsBound v.seamSpans 9 ∧
      " /*\n*/\t".toList ∈ Written.layout false ∧
      "A::=('é'-B)? /**/[a]".toList = before ++ after ∧ Text.byteLength before = 9 ∧
      parse (String.ofList (before ++ " /*\n*/\t".toList ++ after)) = .ok w ∧
      w.withoutSpans = v.withoutSpans ∧ Grammar.read "A::=('é'-B)? /**/[a]" = .ok g ∧
      Grammar.read (String.ofList (before ++ " /*\n*/\t".toList ++ after)) = .ok g := by
  have hbound : (parse "A::=('é'-B)? /**/[a]").toOption.map
      (fun v => decide (IsBound v.seamSpans 9)) = some true := by decide +kernel
  have hlayout : " /*\n*/\t".toList ∈ Written.layout false := by
    have hcomment : ['/', '*', '\n', '*', '/'] ∈ Written.gap false := by
      refine .inl ⟨['\n'], rfl, fun before after h => ?_⟩
      -- the mark of the end is as long as all that is left for it
      have hlength := congrArg List.length h
      simp only [List.length_append, List.length_cons, List.length_nil] at hlength
      cases before with
      | nil => simp at h
      | cons b bs =>
          rw [List.length_cons] at hlength
          exact List.eq_nil_of_length_eq_zero (by omega)
    have hblank : [' '] ∈ Written.gap false := .inr ⟨' ', by decide, rfl⟩
    have htab : ['\t'] ∈ Written.gap false := .inr ⟨'\t', by decide, rfl⟩
    exact Written.append_mem_kstar hblank (Written.append_mem_kstar hcomment
      (Written.mem_kstar_of_mem htab))
  cases h : parse "A::=('é'-B)? /**/[a]" with
  | error e => simp [h, Except.toOption] at hbound
  | ok v =>
      rw [h] at hbound
      have hseam : IsBound v.seamSpans 9 := of_decide_eq_true (Option.some.inj hbound)
      obtain ⟨before, after, htext, hbefore, w, g, hw, hsame, hg, hg'⟩ :=
        parse_insert_layout h hseam hlayout
      exact ⟨v, before, after, w, g, rfl, hseam, hlayout, htext, hbefore, hw, hsame, hg, hg'⟩

end Documents

end Railroad.Notation
