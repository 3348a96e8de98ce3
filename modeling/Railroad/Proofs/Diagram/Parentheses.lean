import Mathlib.Logic.Relation
import Railroad.Notation.Equality
import Railroad.Proofs.Diagram.Drawable
set_option autoImplicit false

/-!
# Redundant parentheses

An item, what stands in front of its mark, a branch and the choice of a definition may each be put
into parentheses. One step does so in a single place of a tree, however deep (`Document.Grouped`),
or changes nothing but spans. Around a branch the parentheses leave a single element where there
were several (`Diagram.ofBranch_parenthesized`), but the row of the branch is the same, and so is
all that is drawn of its choice, in a group and in a definition. So no step changes the drawing, and
no number of steps does (`Grammar.ofDocument_of_regrouped`).
-/

namespace Railroad

namespace Notation

mutual

/-- The second item is the first one with one more group around it, in front of its mark or within
it. -/
inductive Item.Grouped : Item → Item → Prop where
  | whole (i : Item) (s t u : Span) : Item.Grouped i ⟨.group ⟨[.sequence [i] s], t⟩, none, u⟩
  | marked (p : Primary) (mark : Cardinality) (s t u v w : Span) :
      Item.Grouped ⟨p, some mark, s⟩ ⟨.group ⟨[.sequence [⟨p, none, t⟩] u], v⟩, some mark, w⟩
  | within {c d : Choice} (cardinality : Option Cardinality) (s t : Span) :
      Choice.Grouped c d → Item.Grouped ⟨.group c, cardinality, s⟩ ⟨.group d, cardinality, t⟩

/-- The second branch is the first one with one more group around it or in one of its items. -/
inductive Branch.Grouped : Branch → Branch → Prop where
  | whole (b : Branch) (s t u : Span) : Branch.Grouped b (.sequence [⟨.group ⟨[b], s⟩, none, t⟩] u)
  | member {i j : Item} (before after : List Item) (s t : Span) : Item.Grouped i j →
      Branch.Grouped (.sequence (before ++ i :: after) s) (.sequence (before ++ j :: after) t)
  | left {i j : Item} (right : Item) (s t : Span) : Item.Grouped i j →
      Branch.Grouped (.difference i right s) (.difference j right t)
  | right {i j : Item} (left : Item) (s t : Span) : Item.Grouped i j →
      Branch.Grouped (.difference left i s) (.difference left j t)

/-- The second choice is the first one with one more group in one of its branches. -/
inductive Choice.Grouped : Choice → Choice → Prop where
  | branch {b c : Branch} (before after : List Branch) (s t : Span) : Branch.Grouped b c →
      Choice.Grouped ⟨before ++ b :: after, s⟩ ⟨before ++ c :: after, t⟩

end

/-- The second definition is the first one with one more group around its choice or within it. -/
inductive Definition.Grouped : Definition → Definition → Prop where
  | whole (c : Choice) (s t u : Span) :
      Definition.Grouped (.choice c) (.choice ⟨[.sequence [⟨.group c, none, s⟩] t], u⟩)
  | within {c d : Choice} : c.Grouped d → Definition.Grouped (.choice c) (.choice d)

/-- The second tree is the first one with one more group in the definition of one production. -/
inductive Document.Grouped : Document → Document → Prop where
  | production {v w : Definition} (before after : List Production) (n : Name) (s t : Span) :
      v.Grouped w → Document.Grouped ⟨before ++ ⟨n, v, s⟩ :: after⟩ ⟨before ++ ⟨n, w, t⟩ :: after⟩

/-- The second tree is the first one with one more group, or with other spans. -/
def Document.Regrouped (a b : Document) : Prop := a.Grouped b ∨ a.withoutSpans = b.withoutSpans

theorem Document.withoutSpans_withoutSpans (d : Document) :
    d.withoutSpans.withoutSpans = d.withoutSpans := by
  simp only [withoutSpans, mapSpans, List.map_map, Function.comp_def, Production.mapSpans_mapSpans]
  rfl

end Notation

namespace Diagram

open Notation

/-! ## Single branches and items -/

/-- The row of a single item is the item. -/
theorem rowOf_single (i : Item) (s : Span) : rowOf (.sequence [i] s) = ofItem i := by
  rw [rowOf, ofBranch, ofItems, ofItems]
  cases ofItem i <;> rfl

/-- In a group, a single branch is drawn as its row. -/
theorem ofPrimary_single (b : Branch) (s : Span) : ofPrimary (.group ⟨[b], s⟩) = rowOf b := by
  rw [ofPrimary_group, List.mapM_cons, List.mapM_nil]
  cases rowOf b <;> rfl

/-- An item that is nothing but a group is drawn as the group. -/
theorem ofItem_group (c : Choice) (s : Span) :
    ofItem ⟨.group c, none, s⟩ = ofPrimary (.group c) := by
  rw [ofItem]
  cases ofPrimary (.group c) <;> rfl

/-- Parentheses around an item are not drawn. -/
theorem ofPrimary_item (i : Item) (s t : Span) :
    ofPrimary (.group ⟨[.sequence [i] s], t⟩) = ofItem i := by
  rw [ofPrimary_single, rowOf_single]

/-- Parentheses in front of a mark are not drawn. -/
theorem ofItem_marked (p : Primary) (cardinality : Option Cardinality) (s t u v w : Span) :
    ofItem ⟨.group ⟨[.sequence [⟨p, none, t⟩] u], v⟩, cardinality, w⟩ =
      ofItem ⟨p, cardinality, s⟩ := by
  rw [ofItem, ofPrimary_item, ofItem, ofItem]
  cases ofPrimary p <;> rfl

/-- A branch that is put into parentheses has a single element by then, which is its row. -/
theorem ofBranch_parenthesized (b : Branch) (s t u : Span) :
    ofBranch (.sequence [⟨.group ⟨[b], s⟩, none, t⟩] u) = (fun d => [d]) <$> rowOf b := by
  rw [ofBranch, ofItems, ofItems, ofItem_group, ofPrimary_single]
  cases rowOf b <;> rfl

/-- The row of a single element is the element, and so the row of the branch is the same. -/
theorem rowOf_parenthesized (b : Branch) (s t u : Span) :
    rowOf (.sequence [⟨.group ⟨[b], s⟩, none, t⟩] u) = rowOf b := by
  rw [rowOf, ofBranch_parenthesized]
  cases rowOf b <;> rfl

/-! ## One part in place of another -/

/-- The span of a sequence with items in it is not drawn. -/
theorem ofBranch_sequence_of_ne_nil {items : List Item} (h : items ≠ []) (s : Span) :
    ofBranch (.sequence items s) = items.mapM ofItem := by
  rw [ofBranch, if_neg (by simpa using h), ofItems_eq_mapM]

/-- The span of a choice with branches in it is not drawn. -/
theorem ofPrimary_group_of_ne_nil {branches : List Branch} (h : branches ≠ []) (s t : Span) :
    ofPrimary (.group ⟨branches, s⟩) = ofPrimary (.group ⟨branches, t⟩) := by
  obtain ⟨b, rest, rfl⟩ := List.exists_cons_of_ne_nil h
  rfl

/-! ## One more group -/

mutual

/-- An item in parentheses is drawn like the item. -/
theorem ofItem_of_grouped {i j : Item} : i.Grouped j → ofItem j = ofItem i
  | .whole i s t u => by rw [ofItem_group, ofPrimary_item]
  | .marked p mark s t u v w => ofItem_marked p (some mark) s t u v w
  | .within cardinality s t h => by rw [ofItem, ofItem, ofGroup_of_grouped h]

/-- A branch with one more group has the same row, if not the same elements. -/
theorem rowOf_of_grouped {b c : Branch} : b.Grouped c → rowOf c = rowOf b
  | .whole b s t u => rowOf_parenthesized b s t u
  | .member before after s t h => by
      rw [rowOf, rowOf, ofBranch_sequence_of_ne_nil (by simp),
        ofBranch_sequence_of_ne_nil (by simp), mapM_replace (ofItem_of_grouped h)]
  | .left right s t h => by rw [rowOf, rowOf, ofBranch, ofBranch, ofItem_of_grouped h]
  | .right left s t h => by rw [rowOf, rowOf, ofBranch, ofBranch, ofItem_of_grouped h]

/-- A choice with one more group is drawn alike in a group, since it has the same rows. -/
theorem ofGroup_of_grouped {c d : Choice} :
    c.Grouped d → ofPrimary (.group d) = ofPrimary (.group c)
  | .branch before after s t h => by
      rw [ofPrimary_group_of_ne_nil (by simp) t s, ofPrimary_group, ofPrimary_group,
        mapM_replace (rowOf_of_grouped h)]

end

/-- A definition with one more group is drawn alike. Around its choice the group makes a single
element of all that was there, and in it the elements that are kept of a branch may become one. -/
theorem ofDefinition_of_grouped {v w : Definition} (h : v.Grouped w) :
    ofDefinition w = ofDefinition v := by
  cases h with
  | whole c s t u =>
      rw [ofDefinition_choice, ofDefinition_choice, ofPrimary_item, ofItem_group]
  | within h => rw [ofDefinition_choice, ofDefinition_choice, ofGroup_of_grouped h]

end Diagram

namespace Grammar

open Notation

/-- A tree with one more group has the same grammar, or is refused for the same empty part. -/
theorem ofDocument_of_grouped {a b : Document} (h : a.Grouped b) : ofDocument b = ofDocument a := by
  cases h with
  | @production v w before after n s t hvw =>
      have hdrawn : drawProduction ⟨n, w, t⟩ = drawProduction ⟨n, v, s⟩ := by
        rw [drawProduction, drawProduction, Diagram.ofDefinition_of_grouped hvw]
      rw [ofDocument, ofDocument, mapM_replace hdrawn]

theorem ofDocument_withoutSpans_eq_ok {v : Document} {grammar : Grammar} :
    ofDocument v.withoutSpans = .ok grammar ↔ ofDocument v = .ok grammar := by
  rw [Document.withoutSpans, ofDocument_mapSpans, mapError_eq_ok]

/-- Groups around items, in front of marks, around branches and around the choices of definitions,
wherever they are and however many, make no difference to the grammar of a tree. -/
theorem ofDocument_of_regrouped {a b : Document} (h : Relation.ReflTransGen Document.Regrouped a b)
    (grammar : Grammar) : ofDocument a = .ok grammar ↔ ofDocument b = .ok grammar := by
  induction h with
  | refl => rfl
  | tail _ hstep ih =>
      rw [ih]
      rcases hstep with hgrouped | hspans
      · rw [ofDocument_of_grouped hgrouped]
      · rw [← ofDocument_withoutSpans_eq_ok, hspans, ofDocument_withoutSpans_eq_ok]

/-- An operand, a marked primary and a whole choice are put into parentheses. -/
theorem ofDocument_of_regrouped_difference : ∃ a b grammar,
    parse "A ::= B - C?" = .ok a ∧ parse "A ::= ((B) - (C)?)" = .ok b ∧
    Relation.ReflTransGen Document.Regrouped a b ∧
    ofDocument a = .ok grammar ∧ ofDocument b = .ok grammar := by
  let o : Span := .point 0
  -- the two trees without their spans
  obtain ⟨v, hv⟩ : ∃ v : Document, v = ⟨[⟨⟨"A", o⟩, .choice ⟨[.difference ⟨.name ⟨"B", o⟩, none, o⟩
    ⟨.name ⟨"C", o⟩, some .optional, o⟩ o], o⟩, o⟩]⟩ := ⟨_, rfl⟩
  obtain ⟨w, hw⟩ : ∃ w : Document, w = ⟨[⟨⟨"A", o⟩, .choice ⟨[.sequence [⟨.group ⟨[.difference
    ⟨.group ⟨[.sequence [⟨.name ⟨"B", o⟩, none, o⟩] o], o⟩, none, o⟩
    ⟨.group ⟨[.sequence [⟨.name ⟨"C", o⟩, none, o⟩] o], o⟩, some .optional, o⟩ o], o⟩, none, o⟩] o],
    o⟩, o⟩]⟩ := ⟨_, rfl⟩
  have hplace : ∀ {c d : Definition}, c.Grouped d →
      Document.Regrouped ⟨[⟨⟨"A", o⟩, c, o⟩]⟩ ⟨[⟨⟨"A", o⟩, d, o⟩]⟩ :=
    fun h => .inl (.production [] [] _ _ _ h)
  have hsteps : Relation.ReflTransGen Document.Regrouped v w := by
    rw [hv, hw]
    refine .head (hplace (.within (.branch [] [] o o (.left _ o o (.whole _ o o o))))) ?_
    refine .head (hplace (.within (.branch [] [] o o (.right _ o o (.marked _ _ o o o o o))))) ?_
    exact .single (hplace (.whole _ o o o))
  have hbefore : (parse "A ::= B - C?").toOption.map Document.withoutSpans = some v := by
    rw [hv]
    decide +kernel
  have hafter : (parse "A ::= ((B) - (C)?)").toOption.map Document.withoutSpans = some w := by
    rw [hw]
    decide +kernel
  cases ha : parse "A ::= B - C?" with
  | error e => simp [ha, Except.toOption] at hbefore
  | ok a =>
      cases hb : parse "A ::= ((B) - (C)?)" with
      | error e => simp [hb, Except.toOption] at hafter
      | ok b =>
          obtain rfl : a.withoutSpans = v := by simpa [ha, Except.toOption] using hbefore
          obtain rfl : b.withoutSpans = w := by simpa [hb, Except.toOption] using hafter
          have hall : Relation.ReflTransGen Document.Regrouped a b :=
            .head (.inr a.withoutSpans_withoutSpans.symm)
              (hsteps.tail (.inr b.withoutSpans_withoutSpans))
          obtain ⟨grammar, hg⟩ := exists_ofDocument_of_spelled (parse_eq_ok_iff.1 ha)
          exact ⟨a, b, grammar, rfl, rfl, hall, hg, (ofDocument_of_regrouped hall grammar).1 hg⟩

end Grammar

end Railroad
