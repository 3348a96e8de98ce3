import Railroad.Proofs.Diagram.Drawable
set_option autoImplicit false

/-!
# The first empty part

The choices and branches of a tree are listed in the order in which they begin
(`Document.compounds`). A tree is refused for the first one of them that has nothing in it, a choice
without branches or a sequence without items, and for nothing else. One rule covers all steps of a
drawing: if what is drawn first blames the first empty one of some parts, and what is drawn next
that of further parts, both together blame the first empty one of all of them (`BlamesFirst.bind`).
A tree that is read from a text has no empty part.
-/

namespace Railroad

namespace Notation

/-- A part of a tree that may have nothing in it. -/
inductive Compound where
  | choice (choice : Choice)
  | branch (branch : Branch)

/-- The complaint about the part if there is nothing in it. -/
def Compound.empty? : Compound → Option EmptyPart
  | .choice ⟨[], span⟩ => some ⟨.choice, span⟩
  | .branch (.sequence [] span) => some ⟨.sequence, span⟩
  | _ => none

/-- Only choices without branches and sequences without items are complained about, each at its own
place. -/
theorem Compound.empty?_eq_some_iff {compound : Compound} {part : EmptyPart} :
    compound.empty? = some part ↔
      (compound = .choice ⟨[], part.span⟩ ∧ part.kind = .choice) ∨
        (compound = .branch (.sequence [] part.span) ∧ part.kind = .sequence) := by
  rcases part with ⟨kind, span⟩
  unfold Compound.empty?
  split <;> simp_all [eq_comm, and_comm]

/-- Some part is empty if there is a choice without branches or a sequence without items. -/
theorem Compound.isSome_findSome?_iff {compounds : List Compound} :
    (compounds.findSome? Compound.empty?).isSome ↔
      ∃ span, .choice ⟨[], span⟩ ∈ compounds ∨ .branch (.sequence [] span) ∈ compounds := by
  rw [List.findSome?_isSome_iff]
  constructor
  · rintro ⟨compound, hmem, hempty⟩
    obtain ⟨part, hpart⟩ := Option.isSome_iff_exists.1 hempty
    rcases Compound.empty?_eq_some_iff.1 hpart with ⟨rfl, -⟩ | ⟨rfl, -⟩
    · exact ⟨part.span, .inl hmem⟩
    · exact ⟨part.span, .inr hmem⟩
  · rintro ⟨span, hmem | hmem⟩
    · exact ⟨_, hmem, rfl⟩
    · exact ⟨_, hmem, rfl⟩

mutual

/-- The choices and branches in a primary, each in front of those within it. -/
def Primary.compounds : Primary → List Compound
  | .name _ | .string _ | .code _ | .charClass _ => []
  | .group c => c.compounds

/-- The choices and branches in an item. -/
def Item.compounds : Item → List Compound
  | ⟨primary, _, _⟩ => primary.compounds

/-- A branch and the choices and branches within it. -/
def Branch.compounds : Branch → List Compound
  | .sequence items span => .branch (.sequence items span) :: Item.compoundsEach items
  | .difference left right span =>
      .branch (.difference left right span) :: (left.compounds ++ right.compounds)

/-- A choice and the choices and branches within it. -/
def Choice.compounds : Choice → List Compound
  | ⟨branches, span⟩ => .choice ⟨branches, span⟩ :: Branch.compoundsEach branches

/-- The choices and branches in several items. -/
def Item.compoundsEach : List Item → List Compound
  | [] => []
  | item :: rest => item.compounds ++ Item.compoundsEach rest

/-- Several branches and the choices and branches within them. -/
def Branch.compoundsEach : List Branch → List Compound
  | [] => []
  | branch :: rest => branch.compounds ++ Branch.compoundsEach rest

end

/-- The choices and branches in a definition. -/
def Definition.compounds : Definition → List Compound
  | .choice c => c.compounds
  | .link _ => []

/-- The choices and branches of a tree, each in front of those within it. -/
def Document.compounds (d : Document) : List Compound :=
  d.productions.flatMap fun p => p.definition.compounds

end Notation

/-- A drawing fails if one of some parts is empty, and the first empty one is what it complains
about. -/
def BlamesFirst {α : Type} (parts : List Notation.Compound) (drawn : Except EmptyPart α) : Prop :=
  ∀ part, drawn = .error part ↔ parts.findSome? Notation.Compound.empty? = some part

namespace BlamesFirst

variable {α β : Type} {parts more : List Notation.Compound} {drawn : Except EmptyPart α}

/-- Without compound parts there is nothing to blame. -/
theorem ok (a : α) : BlamesFirst [] (.ok a) := by
  intro part
  simp

/-- The first part is blamed if it is empty, whatever stands behind it. -/
theorem error {part : Notation.Compound} {e : EmptyPart} (h : part.empty? = some e)
    (parts : List Notation.Compound) :
    BlamesFirst (part :: parts) (.error e : Except EmptyPart α) := by
  intro found
  simp [h]

/-- What is drawn of a part that is not empty blames the parts within it. -/
theorem within {part : Notation.Compound} (h : part.empty? = none)
    (hdrawn : BlamesFirst parts drawn) : BlamesFirst (part :: parts) drawn := by
  intro found
  rw [List.findSome?_cons, h]
  exact hdrawn found

/-- If the first parts can be drawn, those behind them are looked at next, and if not, they are
not. -/
theorem bind {next : α → Except EmptyPart β} (h : BlamesFirst parts drawn)
    (hnext : ∀ a, drawn = .ok a → BlamesFirst more (next a)) :
    BlamesFirst (parts ++ more) (drawn >>= next) := by
  intro found
  rw [List.findSome?_append]
  cases drawn with
  | error e =>
      -- the complaint about the first parts is the last word
      rw [(h e).1 rfl]
      show Except.error e = .error found ↔ some e = some found
      simp
  | ok a =>
      have hnone : parts.findSome? Notation.Compound.empty? = none := by
        rw [Option.eq_none_iff_forall_ne_some]
        intro e he
        cases (h e).2 he
      rw [hnone]
      exact hnext a rfl found

theorem map (f : α → β) (h : BlamesFirst parts drawn) :
    BlamesFirst parts (drawn >>= fun a => .ok (f a)) := by
  have hall := h.bind fun a _ => BlamesFirst.ok (f a)
  rwa [List.append_nil] at hall

end BlamesFirst

namespace Diagram

open Notation

mutual

/-- Only groups have parts that can be empty. -/
theorem blames_ofPrimary : (p : Primary) → BlamesFirst p.compounds (ofPrimary p)
  | .name _ => .ok _
  | .string _ => .ok _
  | .code _ => .ok _
  | .charClass _ => .ok _
  | .group c => (blames_ofChoice c).map Alternatives.grouped

theorem blames_ofItem : (i : Item) → BlamesFirst i.compounds (ofItem i)
  | ⟨p, cardinality, _⟩ => (blames_ofPrimary p).map (repeated cardinality)

/-- A sequence is itself a part, in front of its items. A difference is not. -/
theorem blames_ofBranch : (b : Branch) → BlamesFirst b.compounds (ofBranch b)
  | .sequence [] _ => .error rfl _
  | .sequence (item :: rest) _ => .within rfl (blames_ofItems (item :: rest))
  | .difference left right _ =>
      .within rfl ((blames_ofItem left).bind fun l _ =>
        (blames_ofItem right).map fun r => [l, .terminal "-", r])

/-- A choice is a part in front of its branches. -/
theorem blames_ofChoice : (c : Choice) → BlamesFirst c.compounds (ofChoice c)
  | ⟨[], _⟩ => .error rfl _
  | ⟨branch :: rest, _⟩ =>
      .within rfl ((blames_ofBranch branch).bind fun first _ =>
        (blames_ofBranches rest).map (Alternatives.between first))

theorem blames_ofItems : (items : List Item) →
    BlamesFirst (Item.compoundsEach items) (ofItems items)
  | [] => .ok []
  | item :: rest => (blames_ofItem item).bind fun d _ => (blames_ofItems rest).map (d :: ·)

theorem blames_ofBranches : (branches : List Branch) →
    BlamesFirst (Branch.compoundsEach branches) (ofBranches branches)
  | [] => .ok []
  | branch :: rest => (blames_ofBranch branch).bind fun d _ => (blames_ofBranches rest).map (d :: ·)

end

theorem blames_ofDefinition (v : Definition) : BlamesFirst v.compounds (ofDefinition v) := by
  cases v with
  | link l => exact .ok _
  | choice c => exact (blames_ofChoice c).map Alternatives.whole

end Diagram

namespace Grammar

open Notation

/-- The productions are drawn in the order of the text, and the first empty part of them is
blamed. -/
theorem blames_mapM_drawProduction (ps : List Production) :
    BlamesFirst (ps.flatMap fun p => p.definition.compounds) (ps.mapM drawProduction) := by
  induction ps with
  | nil => exact .ok []
  | cons p rest ih =>
      rw [List.mapM_cons, List.flatMap_cons]
      refine ((Diagram.blames_ofDefinition p.definition).map (p.name.text, ·)).bind fun drawn _ =>
        ?_
      exact ih.map (drawn :: ·)

/-- A text blames the first empty part of its productions. -/
theorem blames_ofDocument (v : Document) : BlamesFirst v.compounds (ofDocument v) :=
  (blames_mapM_drawProduction v.productions).map ofList

/-- A text that is read as a tree has a grammar. -/
theorem exists_read_eq_ok_iff {text : String} :
    (∃ grammar, read text = .ok grammar) ↔ ∃ v, parse text = .ok v := by
  constructor
  · rintro ⟨grammar, h⟩
    obtain ⟨v, hv, -⟩ := read_eq_ok_iff.1 h
    exact ⟨v, hv⟩
  · rintro ⟨v, hv⟩
    obtain ⟨grammar, hg⟩ := exists_ofDocument_of_spelled (parse_eq_ok_iff.1 hv)
    exact ⟨grammar, read_eq_ok_iff.2 ⟨v, hv, hg⟩⟩

/-- A tree is refused for the first choice without branches or sequence without items in it, and has
a grammar if it has no such part. So does every tree that is read from a text, and the text with
it. -/
theorem ofDocument_eq_error_iff :
    (∀ v part, ofDocument v = .error part ↔ v.compounds.findSome? Compound.empty? = some part) ∧
    (∀ v, (∃ part, ofDocument v = .error part) ↔
      ∃ span, .choice ⟨[], span⟩ ∈ v.compounds ∨ .branch (.sequence [] span) ∈ v.compounds) ∧
    ∀ text, (∀ part, read text ≠ .error (.empty part)) ∧
      ((∃ grammar, read text = .ok grammar) ↔ ∃ v, parse text = .ok v) := by
  refine ⟨blames_ofDocument, fun v => ?_, fun text => ⟨fun part h => ?_, exists_read_eq_ok_iff⟩⟩
  · simp only [blames_ofDocument v _, ← Option.isSome_iff_exists]
    exact Compound.isSome_findSome?_iff
  · -- a text is refused only as one that is not read
    obtain ⟨error, -, hmalformed⟩ := parse_eq_error_of_read h
    cases hmalformed

end Grammar

end Railroad
