import Railroad.Proofs.Ascending
import Railroad.Proofs.Diagram.Drawing
import Railroad.Proofs.Diagram.Order
import Railroad.Proofs.Notation.Respan
set_option autoImplicit false

/-!
# Alternatives are a set

Two trees are alike if they differ in nothing but the order and the repetition of alternatives, at
any depth, in spans and in the quotes of strings: every branch of a choice has one that is alike
among the branches of the other choice, and the other way round. Alike trees have the same grammar,
or neither has one (`Grammar.ofDocument_congr`). The reason is that a choice shows only the set of
its rows, although it keeps the elements of a branch if there is but one row, and these depend on
the order of the branches: neither a group nor a definition shows which branch it was
(`Diagram.ofPrimary_group`, `Diagram.ofDefinition_choice`).
-/

namespace Railroad

namespace Notation

mutual

/-- Whether two primaries differ only in the arrangement of alternatives, in spans and in quotes. -/
def Primary.alike : Primary → Primary → Bool
  | .name a, .name b => a.text == b.text
  | .string a, .string b => a.value == b.value
  | .code a, .code b => a.hex == b.hex
  | .charClass a, .charClass b => a.mapSpans Span.forget == b.mapSpans Span.forget
  | .group a, .group b => a.alike b
  | _, _ => false

/-- Whether two items are alike, with the same mark. -/
def Item.alike : Item → Item → Bool
  | ⟨a, mark, _⟩, ⟨b, mark', _⟩ => a.alike b && mark == mark'

/-- Whether two branches are alike, item by item. -/
def Branch.alike : Branch → Branch → Bool
  | .sequence a _, .sequence b _ => Item.alikeEach a b
  | .difference a b _, .difference a' b' _ => a.alike a' && b.alike b'
  | _, _ => false

/-- Whether every branch of either choice has one in the other that is alike. -/
def Choice.alike : Choice → Choice → Bool
  | ⟨a, _⟩, ⟨b, _⟩ => Branch.eachAmong a b && b.all (Branch.amongThese a)

/-- Whether two lists of items are alike, item by item. -/
def Item.alikeEach : List Item → List Item → Bool
  | [], [] => true
  | a :: as, b :: bs => a.alike b && Item.alikeEach as bs
  | _, _ => false

/-- Whether each of the first branches has one among the others that is alike. -/
def Branch.eachAmong : List Branch → List Branch → Bool
  | [], _ => true
  | a :: as, others => others.any a.alike && Branch.eachAmong as others

/-- Whether one of some branches is alike to another branch. -/
def Branch.amongThese : List Branch → Branch → Bool
  | [], _ => false
  | a :: as, other => a.alike other || Branch.amongThese as other

end

/-- Whether two definitions are alike. A link may differ only in its spans. -/
def Definition.alike : Definition → Definition → Bool
  | .choice a, .choice b => a.alike b
  | .link a, .link b => a.mapSpans Span.forget == b.mapSpans Span.forget
  | _, _ => false

/-- Whether two productions have the same name and alike definitions. -/
def Production.alike (a b : Production) : Bool :=
  a.name.text == b.name.text && a.definition.alike b.definition

/-- Whether two lists of productions are alike, production by production. -/
def Production.alikeEach : List Production → List Production → Bool
  | [], [] => true
  | a :: as, b :: bs => a.alike b && Production.alikeEach as bs
  | _, _ => false

/-- Whether two trees differ only in the arrangement of alternatives, in spans and in quotes. -/
def Document.alike (a b : Document) : Bool := Production.alikeEach a.productions b.productions

theorem Branch.eachAmong_iff {as bs : List Branch} :
    Branch.eachAmong as bs = true ↔ ∀ a ∈ as, ∃ b ∈ bs, a.alike b = true := by
  induction as with
  | nil => simp [Branch.eachAmong]
  | cons a as ih => simp [Branch.eachAmong, ih]

theorem Branch.amongThese_iff {as : List Branch} {b : Branch} :
    Branch.amongThese as b = true ↔ ∃ a ∈ as, a.alike b = true := by
  induction as with
  | nil => simp [Branch.amongThese]
  | cons a as ih => simp [Branch.amongThese, ih]

/-- Choices are alike if each branch of either is alike to some branch of the other. -/
theorem Choice.alike_iff {as bs : List Branch} {span span' : Span} :
    Choice.alike ⟨as, span⟩ ⟨bs, span'⟩ = true ↔
      (∀ a ∈ as, ∃ b ∈ bs, a.alike b = true) ∧ ∀ b ∈ bs, ∃ a ∈ as, a.alike b = true := by
  rw [Choice.alike, Bool.and_eq_true, Branch.eachAmong_iff, List.all_eq_true]
  simp only [Branch.amongThese_iff]

end Notation

namespace Diagram

/-- A set of diagrams depends only on which diagrams are in it. -/
theorem setOf_congr {ds es : List Diagram} (h : ∀ d, d ∈ ds ↔ d ∈ es) : setOf ds = setOf es :=
  Ascending.ofList_congr h

/-- A choice depends only on which diagrams are among its alternatives. -/
theorem choice?_congr {ds es : List Diagram} (h : ∀ d, d ∈ ds ↔ d ∈ es) :
    choice? ds = choice? es := by
  rw [choice?, choice?, setOf_congr h]

/-! ## Rows of branches -/

/-- Two branches that have the same row, or both none. -/
def DrawnAlike (a b : Notation.Branch) : Prop := ∀ d, rowOf a = .ok d ↔ rowOf b = .ok d

/-- A choice is drawn as another one is if the branches of either are drawn like branches of the
other. The elements that are kept of a single row may be those of another branch in either
choice. -/
theorem ofPrimary_group_of_drawnAlike {as bs : List Notation.Branch} {span span' : Span}
    {d : Diagram} (hab : ∀ a ∈ as, ∃ b ∈ bs, DrawnAlike a b)
    (hba : ∀ b ∈ bs, ∃ a ∈ as, DrawnAlike a b)
    (h : ofPrimary (.group ⟨as, span⟩) = .ok d) : ofPrimary (.group ⟨bs, span'⟩) = .ok d := by
  obtain ⟨rows, hrows, hd⟩ := ofPrimary_group_eq_ok.1 h
  -- every branch of the other choice has a row
  have hdrawn : ∀ b ∈ bs, ∃ e, rowOf b = .ok e := by
    intro b hb
    obtain ⟨a, ha, hab⟩ := hba b hb
    obtain ⟨e, he⟩ := exists_mapM_eq_ok_iff.1 ⟨rows, hrows⟩ a ha
    exact ⟨e, (hab e).1 he⟩
  obtain ⟨rows', hrows'⟩ := exists_mapM_eq_ok_iff.2 hdrawn
  -- the rows of both choices form one set
  have hsame : ∀ e, e ∈ rows' ↔ e ∈ rows := by
    intro e
    rw [mem_of_mapM_eq_ok hrows', mem_of_mapM_eq_ok hrows]
    constructor
    · rintro ⟨b, hb, he⟩
      obtain ⟨a, ha, hab⟩ := hba b hb
      exact ⟨a, ha, (hab e).2 he⟩
    · rintro ⟨a, ha, he⟩
      obtain ⟨b, hb, hab⟩ := hab a ha
      exact ⟨b, hb, (hab e).1 he⟩
  rw [← choice?_congr hsame] at hd
  exact ofPrimary_group_eq_ok.2 ⟨rows', hrows', hd⟩

/-! ## Alike parts are drawn alike -/

mutual

/-- What is alike is drawn alike. The four kinds without groups are drawn without regard to
spans. -/
theorem ofPrimary_congr : (p q : Notation.Primary) → p.alike q = true → (d : Diagram) →
    (ofPrimary p = .ok d ↔ ofPrimary q = .ok d)
  | .name n, q, h, d => by
      cases q with
      | name m =>
          have htext : n.text = m.text := by simpa [Notation.Primary.alike] using h
          rw [ofPrimary, ofPrimary, htext]
      | _ => simp [Notation.Primary.alike] at h
  | .string s, q, h, d => by
      cases q with
      | string t =>
          -- the quotes are not part of the value
          have hvalue : s.value = t.value := by simpa [Notation.Primary.alike] using h
          rw [ofPrimary, ofPrimary, hvalue]
      | _ => simp [Notation.Primary.alike] at h
  | .code k, q, h, d => by
      cases q with
      | code l =>
          have hhex : k.hex = l.hex := by simpa [Notation.Primary.alike] using h
          have hprint : k.print = l.print := by
            rw [Notation.CharCode.print, Notation.CharCode.print, Notation.CharCode.chars,
              Notation.CharCode.chars, hhex]
          rw [ofPrimary, ofPrimary, hprint]
      | _ => simp [Notation.Primary.alike] at h
  | .charClass k, q, h, d => by
      cases q with
      | charClass l =>
          have hsame : k.mapSpans Span.forget = l.mapSpans Span.forget := by
            simpa [Notation.Primary.alike] using h
          -- classes that are the same but for their spans are written in the same way
          have hprint : k.print = l.print := by
            rw [Notation.CharClass.print, Notation.CharClass.print,
              ← Notation.CharClass.chars_mapSpans Span.forget k, hsame,
              Notation.CharClass.chars_mapSpans]
          rw [ofPrimary, ofPrimary, hprint]
      | _ => simp [Notation.Primary.alike] at h
  | .group c, q, h, d => by
      cases q with
      | group e => exact ofGroup_congr c e (by simpa [Notation.Primary.alike] using h) d
      | _ => simp [Notation.Primary.alike] at h

/-- Items are alike if what they repeat is and the mark is the same. -/
theorem ofItem_congr : (i j : Notation.Item) → i.alike j = true → (d : Diagram) →
    (ofItem i = .ok d ↔ ofItem j = .ok d)
  | ⟨p, mark, _⟩, ⟨q, mark', _⟩, h, d => by
      rw [Notation.Item.alike, Bool.and_eq_true, beq_iff_eq] at h
      obtain ⟨hp, rfl⟩ := h
      simp only [ofItem_eq_ok, ofPrimary_congr p q hp]

/-- Alike branches have the same elements. -/
theorem ofBranch_congr : (a b : Notation.Branch) → a.alike b = true → (ds : List Diagram) →
    (ofBranch a = .ok ds ↔ ofBranch b = .ok ds)
  | .sequence items _, b, h, ds => by
      cases b with
      | sequence others _ =>
          have hitems : Notation.Item.alikeEach items others = true := by
            simpa [Notation.Branch.alike] using h
          -- neither list is empty unless both are
          have hempty : items = [] ↔ others = [] := by
            cases items <;> cases others <;> simp_all [Notation.Item.alikeEach]
          simp only [ofBranch_sequence_eq_ok, ne_eq, hempty, ofItems_congr items others hitems]
      | difference _ _ _ => simp [Notation.Branch.alike] at h
  | .difference left right _, b, h, ds => by
      cases b with
      | sequence _ _ => simp [Notation.Branch.alike] at h
      | difference left' right' _ =>
          rw [Notation.Branch.alike, Bool.and_eq_true] at h
          simp only [ofBranch_difference_eq_ok, ofItem_congr left left' h.1,
            ofItem_congr right right' h.2]

/-- Alike choices are drawn alike in a group, although they may keep the elements of branches that
are not alike. -/
theorem ofGroup_congr : (c e : Notation.Choice) → c.alike e = true → (d : Diagram) →
    (ofPrimary (.group c) = .ok d ↔ ofPrimary (.group e) = .ok d)
  | ⟨as, _⟩, ⟨bs, _⟩, h, d => by
      obtain ⟨hab, hba⟩ := Notation.Choice.alike_iff.1 h
      -- what is alike is drawn alike, and so the branches of either choice are found in the other
      have hab : ∀ a ∈ as, ∃ b ∈ bs, DrawnAlike a b := by
        intro a ha
        obtain ⟨b, hb, hlike⟩ := hab a ha
        exact ⟨b, hb, drawnAlike_of_mem as a ha b hlike⟩
      have hba : ∀ b ∈ bs, ∃ a ∈ as, DrawnAlike a b := by
        intro b hb
        obtain ⟨a, ha, hlike⟩ := hba b hb
        exact ⟨a, ha, drawnAlike_of_mem as a ha b hlike⟩
      constructor
      · exact ofPrimary_group_of_drawnAlike hab hba
      · apply ofPrimary_group_of_drawnAlike
        · intro b hb
          obtain ⟨a, ha, hlike⟩ := hba b hb
          exact ⟨a, ha, fun e => (hlike e).symm⟩
        · intro a ha
          obtain ⟨b, hb, hlike⟩ := hab a ha
          exact ⟨b, hb, fun e => (hlike e).symm⟩

/-- Items in a row are drawn one by one. -/
theorem ofItems_congr : (is js : List Notation.Item) → Notation.Item.alikeEach is js = true →
    (ds : List Diagram) → (ofItems is = .ok ds ↔ ofItems js = .ok ds)
  | [], js, h, ds => by
      cases js with
      | nil => rfl
      | cons _ _ => simp [Notation.Item.alikeEach] at h
  | i :: is, js, h, ds => by
      cases js with
      | nil => simp [Notation.Item.alikeEach] at h
      | cons j js =>
          rw [Notation.Item.alikeEach, Bool.and_eq_true] at h
          simp only [ofItems_cons_eq_ok, ofItem_congr i j h.1, ofItems_congr is js h.2]

/-- Each branch is drawn like every branch that is alike, by induction on the branches of which it
is one. -/
theorem drawnAlike_of_mem : (as : List Notation.Branch) → ∀ a ∈ as, ∀ b, a.alike b = true →
    DrawnAlike a b
  | [], a, ha => absurd ha List.not_mem_nil
  | c :: as, a, ha => by
      intro b hlike
      rcases List.mem_cons.1 ha with heq | ha
      · rw [heq] at hlike ⊢
        intro d
        simp only [rowOf_eq_ok, ofBranch_congr c b hlike]
      · exact drawnAlike_of_mem as a ha b hlike

end

/-- A definition shows of its choice only what the choice shows in a group, and so it does not show
which of several branches with the same row was written first. -/
theorem ofDefinition_congr {v w : Notation.Definition} (h : v.alike w = true) (d : Diagram) :
    ofDefinition v = .ok d ↔ ofDefinition w = .ok d := by
  cases v with
  | choice c =>
      cases w with
      | choice e =>
          simp only [ofDefinition_choice_eq_ok, ofGroup_congr c e h]
      | link _ => simp [Notation.Definition.alike] at h
  | link l =>
      cases w with
      | choice _ => simp [Notation.Definition.alike] at h
      | link m =>
          have hsame : l.mapSpans Span.forget = m.mapSpans Span.forget := by
            simpa [Notation.Definition.alike] using h
          -- the target of a link does not depend on spans
          have htarget : l.target = m.target := by
            rw [← Notation.Link.target_mapSpans Span.forget l, hsame,
              Notation.Link.target_mapSpans]
          rw [ofDefinition, ofDefinition, htarget]

end Diagram

namespace Grammar

open Diagram

theorem drawProduction_congr {p q : Notation.Production} (h : p.alike q = true)
    (drawn : String × Diagram) : drawProduction p = .ok drawn ↔ drawProduction q = .ok drawn := by
  rw [Notation.Production.alike, Bool.and_eq_true, beq_iff_eq] at h
  simp only [drawProduction_eq_ok, ofDefinition_congr h.2, h.1]

/-- The productions of like texts are drawn as the same diagrams in the same order. -/
theorem mapM_drawProduction_congr {ps qs : List Notation.Production}
    (h : Notation.Production.alikeEach ps qs = true) (drawn : List (String × Diagram)) :
    ps.mapM drawProduction = .ok drawn ↔ qs.mapM drawProduction = .ok drawn := by
  induction ps generalizing qs drawn with
  | nil =>
      cases qs with
      | nil => rfl
      | cons _ _ => simp [Notation.Production.alikeEach] at h
  | cons p ps ih =>
      cases qs with
      | nil => simp [Notation.Production.alikeEach] at h
      | cons q qs =>
          rw [Notation.Production.alikeEach, Bool.and_eq_true] at h
          simp only [mapM_cons_eq_ok, drawProduction_congr h.1, ih h.2]

/-- Trees that differ only in the order and the repetition of alternatives, in spans and in quotes
have the same grammar, or neither of them has one. -/
theorem ofDocument_congr {a b : Notation.Document} (h : a.alike b = true) (grammar : Grammar) :
    ofDocument a = .ok grammar ↔ ofDocument b = .ok grammar := by
  simp only [ofDocument, bind_eq_ok, mapM_drawProduction_congr h]

/-- Alternatives are written in another order and more than once, inside a group and outside, and
with other quotes, and the grammar stays the same. Of two branches with the same row the group is
written first in one text and last in the other, and so other elements are kept. -/
theorem ofDocument_congr_reordered : ∃ a b grammar,
    Notation.parse "A ::= ('x' B | C | B)? - D | [a-z] E\nF ::= G H | (G H)" = .ok a ∧
    Notation.parse "A::=[a-z]  E|(B|C|\"x\" B|C)? - D/**/|[a-z] E\nF ::= (G H) | G H" = .ok b ∧
    a.alike b = true ∧ ofDocument a = .ok grammar ∧ ofDocument b = .ok grammar ∧
    grammar.get? "F" = some (.sequence [.nonTerminal "G", .nonTerminal "H"]) := by
  have hlike : ((Notation.parse
      "A ::= ('x' B | C | B)? - D | [a-z] E\nF ::= G H | (G H)").toOption.bind
      fun a => (Notation.parse
        "A::=[a-z]  E|(B|C|\"x\" B|C)? - D/**/|[a-z] E\nF ::= (G H) | G H").toOption.map fun b =>
          (a.alike b, (ofDocument a).toOption.bind (·.get? "F"))) =
      some (true, some (.sequence [.nonTerminal "G", .nonTerminal "H"])) := by
    decide +kernel
  -- both texts are read and the first is drawn, as has been computed
  cases ha : Notation.parse "A ::= ('x' B | C | B)? - D | [a-z] E\nF ::= G H | (G H)" with
  | error e => simp [ha, Except.toOption] at hlike
  | ok a =>
      cases hb : Notation.parse
          "A::=[a-z]  E|(B|C|\"x\" B|C)? - D/**/|[a-z] E\nF ::= (G H) | G H" with
      | error e => simp [hb, Except.toOption] at hlike
      | ok b =>
          cases hg : ofDocument a with
          | error e => simp [ha, hb, hg, Except.toOption] at hlike
          | ok grammar =>
              obtain ⟨hab, hrow⟩ : a.alike b = true ∧
                  grammar.get? "F" = some (.sequence [.nonTerminal "G", .nonTerminal "H"]) := by
                simpa [ha, hb, hg, Except.toOption] using hlike
              exact ⟨a, b, grammar, rfl, rfl, hab, hg, (ofDocument_congr hab grammar).1 hg, hrow⟩

end Grammar

end Railroad
