import Railroad.Proofs.Diagram.Alternatives
import Railroad.Proofs.Notation.Relocation
set_option autoImplicit false

/-!
# What is read is drawn

A diagram shows nothing of the places in the text. Trees that differ in spans only have the same
diagrams, and where one has none, the complaints differ in spans only (`ofChoice_mapSpans`). A tree
that a text spells has a diagram for each of its productions, since no part of such a tree has
nothing in it (`exists_ofDocument_of_spelled`). Hence the grammar of a text is decided by its tree
without the spans.
-/

namespace Railroad

/-- An empty part in another place. -/
def EmptyPart.mapSpan (f : Span → Span) (part : EmptyPart) : EmptyPart := ⟨part.kind, f part.span⟩

namespace Diagram

/-! ## Spans are not drawn -/

variable (f : Span → Span)

mutual

/-- Spans are not drawn: changing them changes nothing but the span of an empty part. -/
theorem ofPrimary_mapSpans : (p : Notation.Primary) →
    ofPrimary (p.mapSpans f) = (ofPrimary p).mapError (.mapSpan f)
  | .name _ => rfl
  | .string _ => rfl
  | .code _ => rfl
  | .charClass k => by
      rw [Notation.Primary.mapSpans, ofPrimary, ofPrimary, Notation.CharClass.print,
        Notation.CharClass.chars_mapSpans]
      rfl
  | .group c => by
      rw [Notation.Primary.mapSpans, ofPrimary, ofPrimary, mapError_bind, ofChoice_mapSpans c]
      rfl

theorem ofItem_mapSpans : (i : Notation.Item) →
    ofItem (i.mapSpans f) = (ofItem i).mapError (.mapSpan f)
  | ⟨p, cardinality, span⟩ => by
      rw [Notation.Item.mapSpans, ofItem, ofItem, mapError_bind, ofPrimary_mapSpans p]
      rfl

theorem ofBranch_mapSpans : (b : Notation.Branch) →
    ofBranch (b.mapSpans f) = (ofBranch b).mapError (.mapSpan f)
  | .sequence items span => by
      rw [Notation.Branch.mapSpans, ofBranch, ofBranch, ofItems_mapSpansEach items]
      -- only a row of nothing is complained about at its own place
      cases items with
      | nil => rfl
      | cons item rest =>
          rw [Notation.Item.mapSpansEach, List.isEmpty_cons, List.isEmpty_cons, if_neg (by simp),
            if_neg (by simp)]
  | .difference left right span => by
      rw [Notation.Branch.mapSpans, ofBranch, ofBranch, mapError_bind, ofItem_mapSpans left,
        ofItem_mapSpans right]
      simp only [mapError_bind]
      rfl

/-- The span of a choice without branches is the one that is blamed. -/
theorem ofChoice_mapSpans : (c : Notation.Choice) →
    ofChoice (c.mapSpans f) = (ofChoice c).mapError (.mapSpan f)
  | ⟨[], _⟩ => rfl
  | ⟨branch :: rest, _⟩ => by
      rw [Notation.Choice.mapSpans, Notation.Branch.mapSpansEach, ofChoice, ofChoice, mapError_bind,
        ofBranch_mapSpans branch, ofBranches_mapSpansEach rest]
      simp only [mapError_bind]
      rfl

theorem ofItems_mapSpansEach : (items : List Notation.Item) →
    ofItems (Notation.Item.mapSpansEach f items) = (ofItems items).mapError (.mapSpan f)
  | [] => rfl
  | item :: rest => by
      rw [Notation.Item.mapSpansEach, ofItems, ofItems, mapError_bind, ofItem_mapSpans item,
        ofItems_mapSpansEach rest]
      simp only [mapError_bind]
      rfl

theorem ofBranches_mapSpansEach : (branches : List Notation.Branch) →
    ofBranches (Notation.Branch.mapSpansEach f branches) =
      (ofBranches branches).mapError (.mapSpan f)
  | [] => rfl
  | branch :: rest => by
      rw [Notation.Branch.mapSpansEach, ofBranches, ofBranches, mapError_bind,
        ofBranch_mapSpans branch, ofBranches_mapSpansEach rest]
      simp only [mapError_bind]
      rfl

end

theorem ofDefinition_mapSpans (v : Notation.Definition) :
    ofDefinition (v.mapSpans f) = (ofDefinition v).mapError (.mapSpan f) := by
  cases v with
  | link l =>
      rw [Notation.Definition.mapSpans, ofDefinition, ofDefinition, Notation.Link.target_mapSpans]
      rfl
  | choice c =>
      rw [Notation.Definition.mapSpans, ofDefinition, ofDefinition, mapError_bind,
        ofChoice_mapSpans]
      rfl

/-! ## What is spelled is not empty -/

/-- Every value that a text spells can be drawn. -/
def Draws {α β : Type} (spelled : Notation.Spelling α) (draw : α → Except EmptyPart β) : Prop :=
  ∀ ⦃offset : Nat⦄ ⦃cs : List Char⦄ ⦃a : α⦄, spelled offset cs a → ∃ b, draw a = .ok b

/-- Values that a text spells one after the other can all be drawn, and there are some. -/
theorem Draws.separated {α β : Type} {between : Language Char} {spelled : Notation.Spelling α}
    {draw : α → Except EmptyPart β} (hspelled : Draws spelled draw) {offset : Nat}
    {cs : List Char} {as : List α} (h : Notation.Separated between spelled offset cs as) :
    as ≠ [] ∧ ∀ a ∈ as, ∃ b, draw a = .ok b := by
  induction h with
  | one ha =>
      refine ⟨List.cons_ne_nil _ _, fun a hmem => ?_⟩
      rw [List.mem_singleton.1 hmem]
      exact hspelled ha
  | more ha _ _ ih =>
      exact ⟨List.cons_ne_nil _ _, List.forall_mem_cons.2 ⟨hspelled ha, ih.2⟩⟩

section Spelled

variable {item : Notation.Spelling Notation.Item}

/-- What an item consists of can be drawn if it is spelled in the notation. -/
theorem Draws.primary {group : Notation.Spelling Notation.Choice} (hgroup : Draws group ofChoice) :
    Draws (Notation.Primary.Spelled group) ofPrimary := by
  intro offset cs p h
  cases p with
  | name _ => exact ⟨_, rfl⟩
  | string _ => exact ⟨_, rfl⟩
  | code _ => exact ⟨_, rfl⟩
  | charClass _ => exact ⟨_, rfl⟩
  | group c =>
      obtain ⟨alternatives, halternatives⟩ := hgroup h
      exact ⟨_, bind_eq_ok.2 ⟨alternatives, halternatives, rfl⟩⟩

/-- An item can be drawn, whatever its mark. -/
theorem Draws.itemOf {primary : Notation.Spelling Notation.Primary}
    (hprimary : Draws primary ofPrimary) : Draws (Notation.Item.SpelledAs primary) ofItem := by
  rintro offset cs ⟨p, cardinality, span⟩ ⟨body, hbody, -, -⟩
  obtain ⟨d, hd⟩ := hprimary hbody
  exact ⟨_, ofItem_eq_ok.2 ⟨d, hd, rfl⟩⟩

/-- A branch can be drawn, since there is at least one item in it. -/
theorem Draws.branch (hitem : Draws item ofItem) :
    Draws (Notation.Branch.Spelled item) ofBranch := by
  intro offset cs b h
  cases b with
  | sequence items span =>
      obtain ⟨hne, hall⟩ := hitem.separated h.1
      obtain ⟨ds, hds⟩ := exists_mapM_eq_ok_iff.2 hall
      exact ⟨ds, ofBranch_sequence_eq_ok.2 ⟨hne, (ofItems_eq_mapM items).trans hds⟩⟩
  | difference left right span =>
      obtain ⟨-, hall⟩ := hitem.separated h.1
      obtain ⟨l, hl⟩ := hall left (by simp)
      obtain ⟨r, hr⟩ := hall right (by simp)
      exact ⟨_, ofBranch_difference_eq_ok.2 ⟨l, r, hl, hr, rfl⟩⟩

/-- A choice can be drawn, since there is at least one branch in it. -/
theorem Draws.choice (hitem : Draws item ofItem) :
    Draws (Notation.Choice.Spelled item) ofChoice := by
  rintro offset cs ⟨branches, span⟩ ⟨hbranches, -⟩
  obtain ⟨hne, hall⟩ := hitem.branch.separated hbranches
  -- a choice that is spelled has a branch, and so it has alternatives
  obtain ⟨branch, rest, rfl⟩ := List.exists_cons_of_ne_nil hne
  obtain ⟨⟨first, hfirst⟩, hrest⟩ := List.forall_mem_cons.1 hall
  obtain ⟨others, hothers⟩ := exists_mapM_eq_ok_iff.2 hrest
  rw [← ofBranches_eq_mapM] at hothers
  refine ⟨.between first others, ?_⟩
  rw [ofChoice, hfirst, ok_bind, hothers]
  rfl

theorem Draws.group {choice : Notation.Spelling Notation.Choice} (hchoice : Draws choice ofChoice) :
    Draws (Notation.Choice.SpelledInGroup choice) ofChoice := by
  rintro offset cs c ⟨before, inner, after, -, -, -, hinner⟩
  exact hchoice hinner

/-- Items of each depth can be drawn, by induction on the depth. -/
theorem draws_item : ∀ depth, Draws (Notation.Item.SpelledWithin depth) ofItem
  | 0 => Draws.itemOf (Draws.primary fun _ _ _ h => h.elim)
  | depth + 1 => Draws.itemOf (Draws.primary (Draws.group (Draws.choice (draws_item depth))))

/-- A link can always be drawn. -/
theorem Draws.definition (hitem : Draws item ofItem) :
    Draws (Notation.Definition.Spelled item) ofDefinition := by
  intro offset cs v h
  cases v with
  | link l => exact ⟨_, rfl⟩
  | choice c =>
      obtain ⟨alternatives, halternatives⟩ := hitem.choice h.1
      exact ⟨_, bind_eq_ok.2 ⟨alternatives, halternatives, rfl⟩⟩

end Spelled

end Diagram

namespace Grammar

open Diagram

/-- Productions are drawn without regard to their spans. -/
theorem drawProduction_mapSpans (f : Span → Span) (p : Notation.Production) :
    drawProduction (p.mapSpans f) = (drawProduction p).mapError (.mapSpan f) := by
  rw [drawProduction, drawProduction, mapError_bind, Notation.Production.mapSpans,
    ofDefinition_mapSpans]
  rfl

/-- The productions of a tree with other spans are drawn alike. -/
theorem mapM_drawProduction_mapSpans (f : Span → Span) (ps : List Notation.Production) :
    (ps.map (Notation.Production.mapSpans f)).mapM drawProduction =
      (ps.mapM drawProduction).mapError (.mapSpan f) := by
  induction ps with
  | nil => rfl
  | cons p rest ih =>
      rw [List.map_cons, List.mapM_cons, List.mapM_cons, mapError_bind, drawProduction_mapSpans, ih]
      simp only [mapError_bind]
      rfl

/-- A text is drawn without regard to its spans. -/
theorem ofDocument_mapSpans (f : Span → Span) (v : Notation.Document) :
    ofDocument (v.mapSpans f) = (ofDocument v).mapError (.mapSpan f) := by
  rw [ofDocument, ofDocument, mapError_bind, Notation.Document.mapSpans,
    mapM_drawProduction_mapSpans]
  rfl

/-- Every tree that is spelled has a grammar. -/
theorem exists_ofDocument_of_spelled {depth : Nat} {cs : List Char} {v : Notation.Document}
    (h : v.Spelled (Notation.Item.SpelledWithin depth) cs) : ∃ g, ofDocument v = .ok g := by
  obtain ⟨before, body, after, -, -, -, hbody⟩ := h
  have hproduction : Draws (Notation.Production.Spelled (Notation.Item.SpelledWithin depth))
      drawProduction := by
    rintro offset cs p ⟨defined, between, meaning, -, -, hmeaning, -, -⟩
    obtain ⟨d, hd⟩ := (draws_item depth).definition hmeaning
    exact ⟨(p.name.text, d), drawProduction_eq_ok.2 ⟨rfl, hd⟩⟩
  obtain ⟨drawn, hdrawn⟩ := exists_mapM_eq_ok_iff.2 (hproduction.separated hbody).2
  exact ⟨_, bind_eq_ok.2 ⟨drawn, hdrawn, rfl⟩⟩

/-- A text has no grammar only because it is not read. -/
theorem parse_eq_error_of_read {text : String} {e : GrammarError} (h : read text = .error e) :
    ∃ error, Notation.parse text = .error error ∧ e = .malformed error := by
  unfold read at h
  split at h
  next error hparse => exact ⟨error, hparse, (Except.error.inj h).symm⟩
  next document hparse =>
    obtain ⟨grammar, hdrawn⟩ := exists_ofDocument_of_spelled (Notation.parse_eq_ok_iff.1 hparse)
    rw [hdrawn] at h
    cases h

/-- Texts that are read as the same tree but for its spans have a grammar, and the same one. -/
theorem exists_read_of_withoutSpans_eq {text text' : String} {v w : Notation.Document}
    (hv : Notation.parse text = .ok v) (hw : Notation.parse text' = .ok w)
    (h : w.withoutSpans = v.withoutSpans) : ∃ g, read text = .ok g ∧ read text' = .ok g := by
  obtain ⟨g, hg⟩ := exists_ofDocument_of_spelled (Notation.parse_eq_ok_iff.1 hv)
  have hforget : ofDocument w.withoutSpans = .ok g := by
    rw [h, Notation.Document.withoutSpans, ofDocument_mapSpans]
    exact mapError_eq_ok.2 hg
  rw [Notation.Document.withoutSpans, ofDocument_mapSpans] at hforget
  exact ⟨g, read_eq_ok_iff.2 ⟨v, hv, hg⟩, read_eq_ok_iff.2 ⟨w, hw, mapError_eq_ok.1 hforget⟩⟩

end Grammar

end Railroad
