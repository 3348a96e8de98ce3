import Railroad.Proofs.Ascending
import Railroad.Proofs.Diagram.Drawing
import Railroad.Proofs.Diagram.Order
set_option autoImplicit false

/-!
# Drawn diagrams are in normal form

Whatever is drawn of a tree has no choice between fewer than two members, the members of a choice
are in strictly ascending order, and no row has fewer than two parts (`Diagram.IsNormal`). Only the
diagram of a whole production may be a row of a single part: it is if that part is a box, which is
never drawn by itself (`Diagram.IsFramed`).
-/

namespace Railroad

namespace Diagram

/-- At every depth, choices and rows have at least two parts, and the members of choices ascend. -/
inductive IsNormal : Diagram → Prop where
  | terminal (text : String) : IsNormal (.terminal text)
  | nonTerminal (name : String) : IsNormal (.nonTerminal name)
  | sequence {parts : List Diagram} :
      2 ≤ parts.length → (∀ d ∈ parts, IsNormal d) → IsNormal (.sequence parts)
  | choice {members : List Diagram} :
      2 ≤ members.length → members.Nodup → Ascending.Strict compare members →
      (∀ d ∈ members, IsNormal d) → IsNormal (.choice members)
  | optional {body : Diagram} : IsNormal body → IsNormal (.optional body)
  | zeroOrMore {body : Diagram} : IsNormal body → IsNormal (.zeroOrMore body)
  | oneOrMore {body : Diagram} : IsNormal body → IsNormal (.oneOrMore body)

/-- A row of a single box, or a normal diagram that is no box. -/
def IsFramed (d : Diagram) : Prop :=
  (∃ box, box.isLeaf = true ∧ d = .sequence [box]) ∨ (d.IsNormal ∧ d.isLeaf = false)

/-- A row of normal diagrams is normal, also if it is a single one. -/
theorem IsNormal.row {ds : List Diagram} (hne : ds ≠ []) (h : ∀ d ∈ ds, d.IsNormal) :
    (row ds).IsNormal := by
  unfold Diagram.row
  split
  · exact h _ (by simp)
  next hmany =>
    -- neither empty nor single, the row has at least two parts
    refine .sequence ?_ h
    rcases ds with _ | ⟨d, _ | ⟨e, es⟩⟩
    · exact absurd rfl hne
    · exact absurd rfl (hmany d)
    · simp

/-- A choice of normal diagrams is normal: there are two different ones in it, or it is the one. -/
theorem IsNormal.choice? {ds : List Diagram} {d : Diagram} (h : ∀ d ∈ ds, d.IsNormal)
    (hd : choice? ds = some d) : d.IsNormal := by
  have hmembers : ∀ e ∈ setOf ds, e.IsNormal := fun e he => h e (Ascending.mem_ofList.1 he)
  have hstrict : Ascending.Strict compare (setOf ds) := Ascending.strict_ofList ds
  unfold Diagram.choice? at hd
  split at hd
  · cases hd
  next only hset =>
    obtain rfl := Option.some.inj hd
    exact hmembers only (by simp [hset])
  next hnone hmany =>
    -- a set that is neither empty nor single
    obtain rfl := Option.some.inj hd
    refine .choice ?_ hstrict.nodup hstrict hmembers
    rcases hset : setOf ds with _ | ⟨a, _ | ⟨b, rest⟩⟩
    · exact absurd hset hnone
    · exact absurd hset (hmany a)
    · simp

/-- Repeating keeps a diagram normal. -/
theorem IsNormal.repeated (cardinality : Option Notation.Cardinality) {d : Diagram}
    (h : d.IsNormal) : (repeated cardinality d).IsNormal := by
  rcases cardinality with _ | _ | _ | _
  · exact h
  · exact .optional h
  · exact .zeroOrMore h
  · exact .oneOrMore h

/-- A box is framed by a row, and every other normal diagram is framed as it is. -/
theorem IsNormal.framed {d : Diagram} (h : d.IsNormal) : d.framed.IsFramed := by
  unfold Diagram.framed
  split
  next hleaf => exact .inl ⟨d, hleaf, rfl⟩
  next hleaf => exact .inr ⟨h, Bool.eq_false_iff.2 hleaf⟩

mutual

theorem isNormal_ofPrimary : (p : Notation.Primary) → {d : Diagram} → ofPrimary p = .ok d →
    d.IsNormal
  | .name n, _, h => by
      cases h
      exact .nonTerminal n.text
  | .string s, _, h => by
      cases h
      exact .terminal s.value
  | .code k, _, h => by
      cases h
      exact .terminal k.print
  | .charClass k, _, h => by
      cases h
      exact .terminal k.print
  | .group c, _, h => isNormal_ofGroup c h

theorem isNormal_ofItem : (i : Notation.Item) → {d : Diagram} → ofItem i = .ok d → d.IsNormal
  | ⟨p, cardinality, _⟩, _, h => by
      obtain ⟨body, hbody, rfl⟩ := ofItem_eq_ok.1 h
      exact (isNormal_ofPrimary p hbody).repeated cardinality

/-- A branch has elements, and each of them is normal. -/
theorem isNormal_ofBranch : (b : Notation.Branch) → {ds : List Diagram} → ofBranch b = .ok ds →
    ds ≠ [] ∧ ∀ d ∈ ds, d.IsNormal
  | .sequence items _, _, h => by
      obtain ⟨hne, helements⟩ := ofBranch_sequence_eq_ok.1 h
      -- there is an element for each item, and there are items
      refine ⟨?_, isNormal_ofItems items helements⟩
      rintro rfl
      cases items with
      | nil => exact hne rfl
      | cons item rest =>
          obtain ⟨e, es, -, -, hnil⟩ := ofItems_cons_eq_ok.1 helements
          cases hnil
  | .difference left right _, _, h => by
      obtain ⟨l, r, hl, hr, rfl⟩ := ofBranch_difference_eq_ok.1 h
      have hleft := isNormal_ofItem left hl
      have hright := isNormal_ofItem right hr
      refine ⟨List.cons_ne_nil _ _, fun d hd => ?_⟩
      simp only [List.mem_cons, List.not_mem_nil, or_false] at hd
      rcases hd with rfl | rfl | rfl
      · exact hleft
      · exact .terminal "-"
      · exact hright

/-- A group is drawn as a choice of normal rows. -/
theorem isNormal_ofGroup : (c : Notation.Choice) → {d : Diagram} → ofPrimary (.group c) = .ok d →
    d.IsNormal
  | ⟨branches, _⟩, _, h => by
      obtain ⟨rows, hrows, hd⟩ := ofPrimary_group_eq_ok.1 h
      exact .choice? (isNormal_rows branches hrows) hd

theorem isNormal_ofItems : (items : List Notation.Item) → {ds : List Diagram} →
    ofItems items = .ok ds → ∀ d ∈ ds, d.IsNormal
  | [], _, h => by
      cases h
      simp
  | item :: rest, _, h => by
      obtain ⟨e, es, he, hes, rfl⟩ := ofItems_cons_eq_ok.1 h
      exact List.forall_mem_cons.2 ⟨isNormal_ofItem item he, isNormal_ofItems rest hes⟩

/-- Each branch is drawn as a normal row. -/
theorem isNormal_rows : (branches : List Notation.Branch) → {ds : List Diagram} →
    branches.mapM rowOf = .ok ds → ∀ d ∈ ds, d.IsNormal
  | [], _, h => by
      cases h
      simp
  | branch :: rest, _, h => by
      obtain ⟨d, ds, hd, hds, rfl⟩ := mapM_cons_eq_ok.1 h
      obtain ⟨elements, helements, rfl⟩ := rowOf_eq_ok.1 hd
      obtain ⟨hne, hall⟩ := isNormal_ofBranch branch helements
      exact List.forall_mem_cons.2 ⟨.row hne hall, isNormal_rows rest hds⟩

end

/-- A definition is drawn as a choice, as a sequence, or as its only element if that is neither a
text nor a name. -/
theorem isFramed_ofDefinition {v : Notation.Definition} {d : Diagram} (h : ofDefinition v = .ok d) :
    d.IsFramed := by
  cases v with
  | link l =>
      rw [ofDefinition_link] at h
      obtain rfl := Except.ok.inj h
      exact IsNormal.framed (.nonTerminal l.target)
  | choice c =>
      obtain ⟨e, he, rfl⟩ := ofDefinition_choice_eq_ok.1 h
      exact (isNormal_ofGroup c he).framed

end Diagram

/-- Every diagram of a grammar that was drawn is in normal form and framed. -/
theorem Grammar.isFramed_ofDocument {document : Notation.Document} {grammar : Grammar}
    (h : ofDocument document = .ok grammar) :
    ∀ production ∈ grammar.productions, production.2.IsFramed := by
  intro production hp
  obtain ⟨v, hv⟩ := exists_definition_of_mem h hp
  exact Diagram.isFramed_ofDefinition hv

/-- A repeated alternative leaves a single box, which is framed, and other alternatives ascend. -/
theorem Grammar.isFramed_ofDocument_repeated : ∃ document grammar,
    Notation.parse "A ::= B | B\nC ::= 'x' (E | D)? | B" = .ok document ∧
    ofDocument document = .ok grammar ∧ grammar.productions = [
      ("A", .sequence [.nonTerminal "B"]),
      ("C", .choice [.nonTerminal "B",
        .sequence [.terminal "x", .optional (.choice [.nonTerminal "D", .nonTerminal "E"])]])] ∧
    ∀ production ∈ grammar.productions, production.2.IsFramed := by
  have hdrawn : (read "A ::= B | B\nC ::= 'x' (E | D)? | B").toOption.map productions = some [
      ("A", .sequence [.nonTerminal "B"]),
      ("C", .choice [.nonTerminal "B",
        .sequence [.terminal "x", .optional (.choice [.nonTerminal "D", .nonTerminal "E"])]])] := by
    decide +kernel
  cases hread : read "A ::= B | B\nC ::= 'x' (E | D)? | B" with
  | error e => simp [hread, Except.toOption] at hdrawn
  | ok grammar =>
      obtain ⟨document, hp, hg⟩ := read_eq_ok_iff.1 hread
      have hproductions := by simpa [hread, Except.toOption] using hdrawn
      exact ⟨document, grammar, hp, hg, hproductions, isFramed_ofDocument hg⟩

end Railroad
