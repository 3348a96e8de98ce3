import Railroad.Grammar.Reading
import Railroad.Proofs.Except
set_option autoImplicit false

/-!
# When a drawing succeeds

Drawing a tree fails only where a part has nothing in it. For every kind of part, one lemma says
when it has a diagram and which one, in terms of the diagrams of its own parts; a grammar is drawn
production by production (`forall₂_of_ofDocument`).

A choice tells its branches apart by their rows, but keeps the elements of a single branch, and
these may be others in another order of the branches. Nothing that is drawn shows which branch it
was: the diagram of the choice in a group is the choice between the rows (`ofPrimary_group`), and
the diagram of a whole definition depends on nothing else (`ofDefinition_choice`).
-/

namespace Railroad

namespace Diagram

variable {d : Diagram} {ds : List Diagram}

/-- A single box as a row of its own, and every other diagram as it is. -/
def framed (d : Diagram) : Diagram :=
  if d.isLeaf then .sequence [d] else d

/-- The row of a branch. -/
def rowOf (branch : Notation.Branch) : Except EmptyPart Diagram := row <$> ofBranch branch

/-- The choice between the rows of some branches, which are those of the choice at `span`. -/
def choiceBetween (span : Span) (rows : List Diagram) : Except EmptyPart Diagram :=
  match choice? rows with
  | some d => .ok d
  | none => .error ⟨.choice, span⟩

/-! ## Which branch is kept -/

namespace Alternatives

/-- In a group, alternatives are drawn as the choice between the rows of the branches. If there is
only one row, it is that of the branch whose elements were kept. -/
theorem choice?_map_row (first : List Diagram) (others : List (List Diagram)) :
    choice? ((first :: others).map row) = some (between first others).grouped := by
  have hfirst : row first ∈ setOf ((first :: others).map row) :=
    Ascending.mem_ofList.2 List.mem_cons_self
  rw [choice?, between]
  split
  next hnone =>
    rw [hnone] at hfirst
    cases hfirst
  next only honly =>
    -- there is one row in the end, and it is that of the first branch
    rw [honly] at hfirst
    rw [honly, if_pos List.length_singleton, grouped, List.mem_singleton.1 hfirst]
  next hnone hmany =>
    -- there are several rows, so that the set of them is the choice
    have hlength : (setOf ((first :: others).map row)).length ≠ 1 := by
      intro hone
      obtain ⟨only, honly⟩ := List.length_eq_one_iff.1 hone
      exact hmany only honly
    rw [if_neg hlength, grouped]

/-- A definition is drawn as its alternatives would be in a group, but for the frame around a single
box. So a row that is the only element, because its branch was written as a group, is drawn as its
parts would be if they were the elements themselves. -/
theorem whole_eq (alternatives : Alternatives) :
    alternatives.whole = alternatives.grouped.framed := by
  cases alternatives with
  | many members => rfl
  | single elements =>
      rcases elements with _ | ⟨first, _ | ⟨second, rest⟩⟩
      · rfl
      · rfl
      · rfl

/-- Of two branches with the same row, the one that is written first is kept. -/
example : between [.terminal "a", .terminal "b"] [[.sequence [.terminal "a", .terminal "b"]]] =
      .single [.terminal "a", .terminal "b"] ∧
    between [.sequence [.terminal "a", .terminal "b"]] [[.terminal "a", .terminal "b"]] =
      .single [.sequence [.terminal "a", .terminal "b"]] := by decide

end Alternatives

/-! ## Parts and their diagrams -/

/-- An item is drawn as what it repeats, in the loop that its mark stands for. -/
theorem ofItem_eq_ok {primary : Notation.Primary} {cardinality : Option Notation.Cardinality}
    {span : Span} : ofItem ⟨primary, cardinality, span⟩ = .ok d ↔
      ∃ body, ofPrimary primary = .ok body ∧ d = repeated cardinality body := by
  rw [ofItem]
  simp only [bind_eq_ok, pure_eq_ok]

theorem ofItems_eq_mapM (items : List Notation.Item) : ofItems items = items.mapM ofItem := by
  induction items with
  | nil => rfl
  | cons item rest ih => rw [ofItems, List.mapM_cons, ih]

theorem ofBranches_eq_mapM (branches : List Notation.Branch) :
    ofBranches branches = branches.mapM ofBranch := by
  induction branches with
  | nil => rfl
  | cons branch rest ih => rw [ofBranches, List.mapM_cons, ih]

/-- A sequence of items has elements if there are items, and each of them has a diagram. -/
theorem ofBranch_sequence_eq_ok {items : List Notation.Item} {span : Span} :
    ofBranch (.sequence items span) = .ok ds ↔ items ≠ [] ∧ ofItems items = .ok ds := by
  rw [ofBranch]
  -- a row of nothing is refused
  cases items with
  | nil => simp [throw, throwThe, MonadExceptOf.throw]
  | cons item rest => simp

/-- A difference is drawn as its two items with a dash between them. -/
theorem ofBranch_difference_eq_ok {left right : Notation.Item} {span : Span} :
    ofBranch (.difference left right span) = .ok ds ↔
      ∃ l r, ofItem left = .ok l ∧ ofItem right = .ok r ∧ ds = [l, .terminal "-", r] := by
  rw [ofBranch]
  simp only [bind_eq_ok, pure_eq_ok, exists_and_left]

theorem rowOf_eq_ok {branch : Notation.Branch} :
    rowOf branch = .ok d ↔ ∃ elements, ofBranch branch = .ok elements ∧ d = row elements :=
  map_eq_ok

/-- The rows of several branches are made of their elements, after all of these have been drawn. -/
theorem mapM_rowOf (branches : List Notation.Branch) :
    branches.mapM rowOf = List.map row <$> ofBranches branches := by
  induction branches with
  | nil => rfl
  | cons branch rest ih =>
      rw [List.mapM_cons, ih, ofBranches, rowOf]
      cases ofBranch branch with
      | error part => rfl
      | ok elements => cases ofBranches rest <;> rfl

/-- A choice in a group is drawn from the rows of its branches alone. -/
theorem ofPrimary_group (branches : List Notation.Branch) (span : Span) :
    ofPrimary (.group ⟨branches, span⟩) = branches.mapM rowOf >>= choiceBetween span := by
  cases branches with
  | nil =>
      rw [ofPrimary, ofChoice]
      rfl
  | cons branch rest =>
      rw [mapM_rowOf, ofPrimary, ofChoice, ofBranches]
      cases ofBranch branch with
      -- the empty part of the first branch is blamed before the others are drawn
      | error part => rfl
      | ok first =>
          cases ofBranches rest with
          | error part => rfl
          | ok others =>
              show Except.ok _ = choiceBetween span ((first :: others).map row)
              rw [choiceBetween, Alternatives.choice?_map_row]

/-- A definition is drawn from the diagram that its choice has in a group. -/
theorem ofDefinition_choice (c : Notation.Choice) :
    ofDefinition (.choice c) = framed <$> ofPrimary (.group c) := by
  rw [ofDefinition, ofPrimary]
  cases ofChoice c with
  | error part => rfl
  | ok alternatives => exact congrArg Except.ok alternatives.whole_eq

theorem ofDefinition_link (l : Notation.Link) :
    ofDefinition (.link l) = .ok (nonTerminal l.target).framed := rfl

/-- A choice in a group has a diagram if its branches have rows, and there is a choice between
these. -/
theorem ofPrimary_group_eq_ok {branches : List Notation.Branch} {span : Span} :
    ofPrimary (.group ⟨branches, span⟩) = .ok d ↔
      ∃ rows, branches.mapM rowOf = .ok rows ∧ choice? rows = some d := by
  rw [ofPrimary_group, bind_eq_ok]
  apply exists_congr
  intro rows
  apply and_congr_right
  intro _
  rw [choiceBetween]
  cases choice? rows <;> simp

theorem ofItems_cons_eq_ok {item : Notation.Item} {rest : List Notation.Item} :
    ofItems (item :: rest) = .ok ds ↔
      ∃ e es, ofItem item = .ok e ∧ ofItems rest = .ok es ∧ ds = e :: es := by
  simp only [ofItems_eq_mapM, mapM_cons_eq_ok]

/-- What is drawn of a definition is a single box in a row, or what its choice is drawn as in a
group. -/
theorem ofDefinition_choice_eq_ok {c : Notation.Choice} :
    ofDefinition (.choice c) = .ok d ↔ ∃ e, ofPrimary (.group c) = .ok e ∧ d = e.framed := by
  rw [ofDefinition_choice, map_eq_ok]

end Diagram

namespace Grammar

open Diagram

/-- A production is drawn under its name. -/
theorem drawProduction_eq_ok {p : Notation.Production} {drawn : String × Diagram} :
    drawProduction p = .ok drawn ↔
      drawn.1 = p.name.text ∧ ofDefinition p.definition = .ok drawn.2 := by
  rw [drawProduction, bind_eq_ok]
  simp only [pure_eq_ok]
  constructor
  · rintro ⟨d, hd, rfl⟩
    exact ⟨rfl, hd⟩
  · rintro ⟨hname, hd⟩
    exact ⟨drawn.2, hd, Prod.ext hname rfl⟩

/-- A grammar has a production for each one that was written, in the same order and with the same
name. -/
theorem forall₂_of_ofDocument {document : Notation.Document} {grammar : Grammar}
    (h : ofDocument document = .ok grammar) :
    List.Forall₂ (fun production p => production.1 = p.name.text ∧
      ofDefinition p.definition = .ok production.2) grammar.productions document.productions := by
  obtain ⟨drawn, hdrawn, hgrammar⟩ := bind_eq_ok.1 h
  rw [pure_eq_ok.1 hgrammar, productions_ofList]
  exact ((forall₂_of_mapM hdrawn).imp fun _ _ => drawProduction_eq_ok.1).flip

/-- Each production of a grammar is drawn of some definition. -/
theorem exists_definition_of_mem {document : Notation.Document} {grammar : Grammar}
    (h : ofDocument document = .ok grammar) {production : String × Diagram}
    (hp : production ∈ grammar.productions) : ∃ v, ofDefinition v = .ok production.2 := by
  have hall := forall₂_of_ofDocument h
  obtain ⟨i, hi, rfl⟩ := List.getElem_of_mem hp
  exact ⟨_, (hall.get hi (hall.length_eq ▸ hi)).2⟩

/-- A text has a grammar if it is read as a tree that can be drawn. -/
theorem read_eq_ok_iff {text : String} {grammar : Grammar} : read text = .ok grammar ↔
    ∃ document, Notation.parse text = .ok document ∧ ofDocument document = .ok grammar := by
  unfold read
  cases Notation.parse text with
  | error e => simp
  | ok document => cases h : ofDocument document <;> simp [h]

end Grammar

end Railroad
