import Mathlib.Order.Bounds.Defs
import Railroad.Proofs.Diagram.Drawing
import Railroad.Proofs.Notation.SingleProduction
set_option autoImplicit false

/-!
# How high diagrams become

The height of a diagram is the number of diagrams on the longest way down in it
(`Diagram.isGreatest_height`), and whatever walks through a diagram along its parts goes as deep as
that. A group adds at most three to the height of what is drawn: the choice between its branches, a
row and a cardinality (`Diagram.height_ofPrimary`). A set of alternatives and a part that stands for
itself only make a diagram lower. Since groups are nested only so deeply in a text that is read
(`Notation.nesting_le_of_parse`), no diagram of a grammar becomes higher than that allows
(`Grammar.height_le_of_read`).
-/

namespace Railroad

/-! ## Nested groups -/

namespace Notation

mutual

/-- How deeply groups are nested in a primary. -/
def Primary.nesting : Primary → Nat
  | .name _ | .string _ | .code _ | .charClass _ => 0
  | .group c => c.nesting + 1

/-- How deeply groups are nested in an item. -/
def Item.nesting : Item → Nat
  | ⟨primary, _, _⟩ => primary.nesting

/-- How deeply groups are nested in a branch. -/
def Branch.nesting : Branch → Nat
  | .sequence items _ => Item.nestingEach items
  | .difference left right _ => max left.nesting right.nesting

/-- How deeply groups are nested in a choice. -/
def Choice.nesting : Choice → Nat
  | ⟨branches, _⟩ => Branch.nestingEach branches

/-- How deeply groups are nested in the deepest of several items. -/
def Item.nestingEach : List Item → Nat
  | [] => 0
  | item :: rest => max item.nesting (Item.nestingEach rest)

/-- How deeply groups are nested in the deepest of several branches. -/
def Branch.nestingEach : List Branch → Nat
  | [] => 0
  | branch :: rest => max branch.nesting (Branch.nestingEach rest)

end

/-- How deeply groups are nested in a definition. -/
def Definition.nesting : Definition → Nat
  | .choice c => c.nesting
  | .link _ => 0

variable {depth : Nat}

theorem Item.nestingEach_le {items : List Item} (h : ∀ i ∈ items, i.nesting ≤ depth) :
    Item.nestingEach items ≤ depth := by
  induction items with
  | nil =>
      rw [Item.nestingEach]
      exact Nat.zero_le depth
  | cons item rest ih =>
      obtain ⟨hitem, hrest⟩ := List.forall_mem_cons.1 h
      rw [Item.nestingEach]
      exact Nat.max_le.2 ⟨hitem, ih hrest⟩

theorem Branch.nestingEach_le {branches : List Branch} (h : ∀ b ∈ branches, b.nesting ≤ depth) :
    Branch.nestingEach branches ≤ depth := by
  induction branches with
  | nil =>
      rw [Branch.nestingEach]
      exact Nat.zero_le depth
  | cons branch rest ih =>
      obtain ⟨hbranch, hrest⟩ := List.forall_mem_cons.1 h
      rw [Branch.nestingEach]
      exact Nat.max_le.2 ⟨hbranch, ih hrest⟩

/-- In every value that a text spells, groups are nested at most `depth` deep. -/
def NestsWithin {α : Type} (depth : Nat) (spelled : Spelling α) (nesting : α → Nat) : Prop :=
  ∀ ⦃offset : Nat⦄ ⦃cs : List Char⦄ ⦃a : α⦄, spelled offset cs a → nesting a ≤ depth

namespace NestsWithin

variable {item : Spelling Item}

/-- What nests within a depth does so one after the other. -/
theorem separated {α : Type} {between : Language Char} {spelled : Spelling α} {nesting : α → Nat}
    (hspelled : NestsWithin depth spelled nesting) {offset : Nat} {cs : List Char} {as : List α}
    (h : Separated between spelled offset cs as) : ∀ a ∈ as, nesting a ≤ depth := by
  intro a ha
  obtain ⟨_, _, _, -, hbody⟩ := h.exists_of_mem ha
  exact hspelled hbody

theorem primary {group : Spelling Choice}
    (hgroup : NestsWithin depth group fun c => c.nesting + 1) :
    NestsWithin depth (Primary.Spelled group) Primary.nesting := by
  intro offset cs p h
  cases p with
  | group c => exact hgroup h
  | _ => exact Nat.zero_le depth

theorem itemOf {primary : Spelling Primary} (hprimary : NestsWithin depth primary Primary.nesting) :
    NestsWithin depth (Item.SpelledAs primary) Item.nesting := by
  rintro offset cs ⟨p, cardinality, span⟩ ⟨body, hbody, -, -⟩
  exact hprimary hbody

theorem branch (hitem : NestsWithin depth item Item.nesting) :
    NestsWithin depth (Branch.Spelled item) Branch.nesting := by
  intro offset cs b h
  cases b with
  | sequence items span => exact Item.nestingEach_le (hitem.separated h.1)
  | difference left right span =>
      have hall := hitem.separated h.1
      exact Nat.max_le.2 ⟨hall left (by simp), hall right (by simp)⟩

theorem choice (hitem : NestsWithin depth item Item.nesting) :
    NestsWithin depth (Choice.Spelled item) Choice.nesting := by
  rintro offset cs ⟨branches, span⟩ ⟨hbranches, -⟩
  exact Branch.nestingEach_le (hitem.branch.separated hbranches)

/-- A group is one level deeper than the choice in it. -/
theorem group {choice : Spelling Choice} (hchoice : NestsWithin depth choice Choice.nesting) :
    NestsWithin (depth + 1) (Choice.SpelledInGroup choice) fun c => c.nesting + 1 := by
  rintro offset cs c ⟨before, inner, after, -, -, -, hinner⟩
  exact Nat.succ_le_succ (hchoice hinner)

theorem definition (hitem : NestsWithin depth item Item.nesting) :
    NestsWithin depth (Definition.Spelled item) Definition.nesting := by
  intro offset cs v h
  cases v with
  | link l => exact Nat.zero_le depth
  | choice c => exact hitem.choice h.1

end NestsWithin

/-- Items of each depth nest within it, by induction on the depth. -/
theorem nestsWithin_item : ∀ depth, NestsWithin depth (Item.SpelledWithin depth) Item.nesting
  | 0 => .itemOf (.primary fun _ _ _ h => h.elim)
  | depth + 1 => .itemOf (.primary (.group (.choice (nestsWithin_item depth))))

/-- No text is read in which groups are nested too deeply. -/
theorem nesting_le_of_parse {text : String} {document : Document} (h : parse text = .ok document) :
    ∀ p ∈ document.productions, p.definition.nesting ≤ maxNesting := by
  obtain ⟨_, _, _, -, -, -, hbody⟩ := parse_eq_ok_iff.1 h
  intro p hp
  obtain ⟨_, _, _, -, _, _, _, -, -, hmeaning, -, -⟩ := hbody.exists_of_mem hp
  exact (nestsWithin_item maxNesting).definition hmeaning

end Notation

/-! ## Heights -/

namespace Diagram

mutual

/-- How many levels a diagram has, a box having one. -/
def height : Diagram → Nat
  | .terminal _ | .nonTerminal _ => 1
  | .sequence parts => heightEach parts + 1
  | .choice members => heightEach members + 1
  | .optional body | .zeroOrMore body | .oneOrMore body => body.height + 1

/-- The height of the highest of several diagrams. -/
def heightEach : List Diagram → Nat
  | [] => 0
  | d :: rest => max d.height (heightEach rest)

end

/-- A way down in a diagram: each diagram on it is directly below the one before. -/
inductive Descent : Diagram → List Diagram → Prop where
  | stop (d : Diagram) : Descent d [d]
  | step {d child : Diagram} {path : List Diagram} :
      child ∈ d.children → Descent child path → Descent d (d :: path)

variable {n : Nat} {d : Diagram} {ds : List Diagram}

/-- The height of several diagrams is a bound of each of them, and the least one. -/
theorem heightEach_le_iff : heightEach ds ≤ n ↔ ∀ d ∈ ds, d.height ≤ n := by
  induction ds with
  | nil => simp [heightEach]
  | cons d rest ih => rw [heightEach, Nat.max_le, ih, List.forall_mem_cons]

/-- It is reached by one of them. -/
theorem exists_height_eq_heightEach (h : ds ≠ []) : ∃ d ∈ ds, d.height = heightEach ds := by
  induction ds with
  | nil => exact absurd rfl h
  | cons d rest ih =>
      rw [heightEach]
      rcases Nat.le_total (heightEach rest) d.height with hle | hle
      · exact ⟨d, List.mem_cons_self, (Nat.max_eq_left hle).symm⟩
      · by_cases hrest : rest = []
        · exact ⟨d, List.mem_cons_self, by simp [hrest, heightEach]⟩
        · obtain ⟨e, he, heq⟩ := ih hrest
          exact ⟨e, List.mem_cons_of_mem d he, by rw [heq, Nat.max_eq_right hle]⟩

/-- A diagram is one higher than the highest of its children. -/
theorem height_eq (d : Diagram) : d.height = heightEach d.children + 1 := by
  cases d <;> simp [height, heightEach, children]

theorem height_le_succ_iff : d.height ≤ n + 1 ↔ ∀ child ∈ d.children, child.height ≤ n := by
  rw [height_eq, Nat.succ_le_succ_iff, heightEach_le_iff]

theorem Descent.length_le_height {path : List Diagram} (h : d.Descent path) :
    path.length ≤ d.height := by
  induction h with
  | stop d =>
      rw [height_eq]
      exact Nat.le_add_left 1 _
  | @step d child path hchild _ ih =>
      have hbelow := heightEach_le_iff.1 (Nat.le_refl (heightEach d.children)) child hchild
      rw [height_eq]
      exact Nat.succ_le_succ (ih.trans hbelow)

theorem exists_descent (d : Diagram) : ∃ path, d.Descent path ∧ path.length = d.height := by
  induction hheight : d.height generalizing d with
  | zero =>
      rw [height_eq] at hheight
      exact absurd hheight (Nat.succ_ne_zero _)
  | succ n ih =>
      rw [height_eq, Nat.succ.injEq] at hheight
      by_cases hchildren : d.children = []
      · rw [hchildren, heightEach] at hheight
        exact ⟨[d], .stop d, by rw [← hheight]; rfl⟩
      · obtain ⟨child, hchild, heq⟩ := exists_height_eq_heightEach hchildren
        obtain ⟨path, hpath, hlength⟩ := ih child (heq.trans hheight)
        exact ⟨d :: path, .step hchild hpath, congrArg Nat.succ hlength⟩

/-- The height of a diagram is the length of the longest way down in it. -/
theorem isGreatest_height (d : Diagram) :
    IsGreatest {n | ∃ path, d.Descent path ∧ path.length = n} d.height :=
  ⟨exists_descent d, fun _ ⟨_, hpath, hlength⟩ => hlength ▸ hpath.length_le_height⟩

/-! ## Heights of what is drawn -/

theorem height_row_le (h : ∀ d ∈ ds, d.height ≤ n) : (row ds).height ≤ n + 1 := by
  unfold row
  split
  next only => exact Nat.le_succ_of_le (h only List.mem_cons_self)
  next => exact height_le_succ_iff.2 h

theorem height_choice?_le (h : ∀ d ∈ ds, d.height ≤ n) (hd : choice? ds = some d) :
    d.height ≤ n + 1 := by
  have hmembers : ∀ e ∈ setOf ds, e.height ≤ n := fun e he => h e (Ascending.mem_ofList.1 he)
  unfold choice? at hd
  split at hd
  · cases hd
  next only hset =>
    obtain rfl := Option.some.inj hd
    exact Nat.le_succ_of_le (hmembers only (by simp [hset]))
  next =>
    obtain rfl := Option.some.inj hd
    exact height_le_succ_iff.2 hmembers

theorem height_repeated_le (cardinality : Option Notation.Cardinality) (d : Diagram) :
    (repeated cardinality d).height ≤ d.height + 1 := by
  rcases cardinality with _ | _ | _ | _
  · exact Nat.le_succ _
  all_goals exact height_le_succ_iff.2 (List.forall_mem_singleton.2 (Nat.le_refl _))

/-- Only a box becomes higher by a row of its own. -/
theorem height_framed_le (d : Diagram) : d.framed.height ≤ max d.height 2 := by
  unfold framed
  split
  next hleaf =>
    cases d with
    | terminal _ => exact Nat.le_max_right 1 2
    | nonTerminal _ => exact Nat.le_max_right 1 2
    | _ => cases hleaf
  next => exact Nat.le_max_left _ _

mutual

theorem height_ofPrimary : (p : Notation.Primary) → {d : Diagram} → ofPrimary p = .ok d →
    d.height ≤ 3 * p.nesting + 1
  | .name _, _, h => by
      cases h
      exact Nat.le_add_left 1 _
  | .string _, _, h => by
      cases h
      exact Nat.le_add_left 1 _
  | .code _, _, h => by
      cases h
      exact Nat.le_add_left 1 _
  | .charClass _, _, h => by
      cases h
      exact Nat.le_add_left 1 _
  | .group c, _, h => height_ofGroup c h

theorem height_ofItem : (i : Notation.Item) → {d : Diagram} → ofItem i = .ok d →
    d.height ≤ 3 * i.nesting + 2
  | ⟨p, cardinality, _⟩, _, h => by
      obtain ⟨body, hbody, rfl⟩ := ofItem_eq_ok.1 h
      exact (height_repeated_le cardinality body).trans
        (Nat.succ_le_succ (height_ofPrimary p hbody))

theorem height_ofBranch : (b : Notation.Branch) → {ds : List Diagram} → ofBranch b = .ok ds →
    ∀ d ∈ ds, d.height ≤ 3 * b.nesting + 2
  | .sequence items _, _, h => by
      obtain ⟨-, helements⟩ := ofBranch_sequence_eq_ok.1 h
      exact height_ofItems items helements
  | .difference left right _, _, h => by
      obtain ⟨l, r, hl, hr, rfl⟩ := ofBranch_difference_eq_ok.1 h
      have hleft := height_ofItem left hl
      have hright := height_ofItem right hr
      have hdash : (terminal "-").height = 1 := rfl
      rw [Notation.Branch.nesting]
      simp only [List.forall_mem_cons, hdash]
      refine ⟨by omega, by omega, by omega, by simp⟩

/-- A choice in a group has at most a level more than the highest row of its branches. -/
theorem height_ofGroup : (c : Notation.Choice) → {d : Diagram} → ofPrimary (.group c) = .ok d →
    d.height ≤ 3 * (c.nesting + 1) + 1
  | ⟨branches, _⟩, _, h => by
      obtain ⟨rows, hrows, hd⟩ := ofPrimary_group_eq_ok.1 h
      exact height_choice?_le (height_rows branches hrows) hd

theorem height_ofItems : (items : List Notation.Item) → {ds : List Diagram} →
    ofItems items = .ok ds → ∀ d ∈ ds, d.height ≤ 3 * Notation.Item.nestingEach items + 2
  | [], _, h => by
      cases h
      simp
  | item :: rest, _, h => by
      obtain ⟨e, es, he, hes, rfl⟩ := ofItems_cons_eq_ok.1 h
      have hfirst := height_ofItem item he
      have hrest := height_ofItems rest hes
      rw [Notation.Item.nestingEach]
      refine List.forall_mem_cons.2 ⟨by omega, fun d hd => ?_⟩
      have hlow := hrest d hd
      omega

theorem height_rows : (branches : List Notation.Branch) → {ds : List Diagram} →
    branches.mapM rowOf = .ok ds →
      ∀ d ∈ ds, d.height ≤ 3 * Notation.Branch.nestingEach branches + 3
  | [], _, h => by
      cases h
      simp
  | branch :: rest, _, h => by
      obtain ⟨e, es, he, hes, rfl⟩ := mapM_cons_eq_ok.1 h
      obtain ⟨elements, helements, rfl⟩ := rowOf_eq_ok.1 he
      have hfirst := height_row_le (height_ofBranch branch helements)
      have hrest := height_rows rest hes
      rw [Notation.Branch.nestingEach]
      refine List.forall_mem_cons.2 ⟨by omega, fun d hd => ?_⟩
      have hlow := hrest d hd
      omega

end

theorem height_ofDefinition {v : Notation.Definition} (h : ofDefinition v = .ok d) :
    d.height ≤ 3 * (v.nesting + 1) + 1 := by
  cases v with
  | link l =>
      rw [ofDefinition_link] at h
      obtain rfl := Except.ok.inj h
      have hframed := height_framed_le (nonTerminal l.target)
      rw [height] at hframed
      omega
  | choice c =>
      obtain ⟨e, he, rfl⟩ := ofDefinition_choice_eq_ok.1 h
      have hdrawn := height_ofGroup c he
      have hframed := height_framed_le e
      rw [Notation.Definition.nesting]
      omega

end Diagram

/-- A diagram of a grammar has at most three levels for the definition itself and for each level of
its groups, and one more. Since the groups of a text that is read are nested at most 64 deep, no
walk down a diagram passes through more than 196 diagrams. -/
theorem Grammar.height_le_of_read {text : String} {grammar : Grammar}
    (h : read text = .ok grammar) : ∃ document, Notation.parse text = .ok document ∧
      List.Forall₂ (fun drawn written => drawn.1 = written.name.text ∧
        written.definition.nesting ≤ 64 ∧
        (∀ n, written.definition.nesting ≤ n → drawn.2.height ≤ 3 * (n + 1) + 1) ∧
        drawn.2.height ≤ 196 ∧ ∀ path, drawn.2.Descent path → path.length ≤ 196)
        grammar.productions document.productions := by
  obtain ⟨document, hparse, hdrawn⟩ := read_eq_ok_iff.1 h
  have hnested := (List.forall₂_and_left _ _).2
    ⟨Notation.nesting_le_of_parse hparse, (forall₂_of_ofDocument hdrawn).flip⟩
  refine ⟨document, hparse, List.Forall₂.flip (hnested.imp ?_)⟩
  rintro written drawn ⟨hnesting, hname, hdefinition⟩
  have hheight := Diagram.height_ofDefinition hdefinition
  have hlimit : Notation.maxNesting = 64 := rfl
  have hall : drawn.2.height ≤ 196 := by omega
  exact ⟨hname, hnesting, fun n hn => by omega, hall,
    fun path hpath => hpath.length_le_height.trans hall⟩

/-- A group that adds three levels, and a group that adds none. -/
theorem Grammar.height_le_of_read_groups : ∃ document grammar,
    Notation.parse "A ::= B | C (D | E F+)*\nG ::= ((H))" = .ok document ∧
    read "A ::= B | C (D | E F+)*\nG ::= ((H))" = .ok grammar ∧
    document.productions.map (·.definition.nesting) = [1, 2] ∧
    grammar.productions.map (·.2.height) = [7, 2] ∧
    List.Forall₂ (fun drawn written => drawn.2.height ≤ 3 * (written.definition.nesting + 1) + 1)
      grammar.productions document.productions := by
  have hnested : (Notation.parse "A ::= B | C (D | E F+)*\nG ::= ((H))").toOption.map
      (·.productions.map (·.definition.nesting)) = some [1, 2] := by decide +kernel
  have hheights : (read "A ::= B | C (D | E F+)*\nG ::= ((H))").toOption.map
      (·.productions.map (·.2.height)) = some [7, 2] := by decide +kernel
  cases hread : read "A ::= B | C (D | E F+)*\nG ::= ((H))" with
  | error e => simp [hread, Except.toOption] at hheights
  | ok grammar =>
      obtain ⟨document, hparse, hall⟩ := height_le_of_read hread
      rw [hparse] at hnested
      rw [hread] at hheights
      refine ⟨document, grammar, hparse, rfl, Option.some.inj hnested, Option.some.inj hheights,
        hall.imp ?_⟩
      rintro drawn written ⟨-, -, hheight, -, -⟩
      exact hheight written.definition.nesting (Nat.le_refl _)

end Railroad
