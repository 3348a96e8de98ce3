import Railroad.Grammar.Ron
import Railroad.Proofs.Diagram.EachChoice
import Railroad.Proofs.Diagram.Variant
import Railroad.Proofs.Ron.Narrowing
set_option autoImplicit false

/-!
# Reading diagrams with their choices as sets

Two readers take stored diagrams from a text, one as they are written and one with the members of
every choice as a set. The second looks at a choice as soon as it has read the members, which have
been made canonical by then; what it accepts and what it gives is said here in terms of the diagram
that is written (`ofRon_canonical`): each choice has to have two members that still differ after the
choices below them have become sets (`HasAlternatives`), and the diagram is the written one with all
its choices as sets.
-/

namespace Railroad

namespace Diagram

open Ron Reader

/-- At every depth, a choice has two members that are different after the choices in them have been
made sets. -/
def HasAlternatives : Diagram → Prop :=
  EachChoice fun members => ∃ a ∈ members, ∃ b ∈ members, a.sortChoices ≠ b.sortChoices

theorem hasAlternatives_choice {members : List Diagram} :
    (choice members).HasAlternatives ↔
      (∃ a ∈ members, ∃ b ∈ members, a.sortChoices ≠ b.sortChoices) ∧
        ∀ d ∈ members, d.HasAlternatives := eachChoice_choice

theorem sortChoicesEach_eq_map (ds : List Diagram) : sortChoicesEach ds = ds.map sortChoices := by
  induction ds with
  | nil => rfl
  | cons d rest ih => rw [sortChoicesEach, ih, List.map_cons]

theorem mem_setOf {d : Diagram} {members : List Diagram} : d ∈ setOf members ↔ d ∈ members :=
  Ascending.mem_ofList

/-- A set has at least two members if some two members are different. -/
theorem two_le_length_setOf {members : List Diagram} :
    2 ≤ (setOf members).length ↔ ∃ a ∈ members, ∃ b ∈ members, a ≠ b := by
  have hnodup : (setOf members).Nodup := (Ascending.strict_ofList members).nodup
  have hmem (d : Diagram) : d ∈ members ↔ d ∈ setOf members := mem_setOf.symm
  simp only [hmem]
  generalize setOf members = distinct at hnodup
  rcases distinct with _ | ⟨a, _ | ⟨b, rest⟩⟩
  · simp
  · simp
  · refine iff_of_true (by simp) ⟨a, by simp, b, by simp, ?_⟩
    rintro rfl
    simp at hnodup

/-- With its choices as sets, a diagram with alternatives is canonical. -/
theorem HasAlternatives.isCanonical {d : Diagram} (h : d.HasAlternatives) :
    d.sortChoices.IsCanonical := by
  induction h with
  | terminal text => exact .terminal text
  | nonTerminal name => exact .nonTerminal name
  | sequence _ ih =>
      rw [sortChoices, sortChoicesEach_eq_map]
      exact .sequence (List.forall_mem_map.2 ih)
  | choice hmembers _ ih =>
      rw [sortChoices, sortChoicesEach_eq_map]
      -- the sorted members are a set, and two of them differ
      refine .choice ⟨two_le_length_setOf.2 ?_, Ascending.strict_ofList _⟩ fun d hd => ?_
      · obtain ⟨a, ha, b, hb, hne⟩ := hmembers
        exact ⟨_, List.mem_map_of_mem ha, _, List.mem_map_of_mem hb, hne⟩
      · exact List.forall_mem_map.2 ih d (mem_setOf.1 hd)
  | optional _ ih => exact .optional ih
  | zeroOrMore _ ih => exact .zeroOrMore ih
  | oneOrMore _ ih => exact .oneOrMore ih

/-! ## One reader narrows the other -/

/-- The reader of sets narrows the plain reader. -/
def NarrowsWithin (budget : Nat) : Prop :=
  Narrows HasAlternatives sortChoices (reader .plain budget) (reader .canonical budget)

/-- Elements are narrowed if the readers of less depth narrow diagrams. -/
theorem narrows_elementReader {budget : Nat} (h : ∀ below ≤ budget, NarrowsWithin below) :
    Narrows HasAlternatives sortChoices (elementReader .plain budget)
      (elementReader .canonical budget) := by
  match budget with
  | 0 => exact narrows_stop _ _
  | 1 => exact narrows_stop _ _
  | budget + 2 => exact h budget (Nat.le_add_right budget 2)

/-- A canonical choice of two members or more is the set of them. -/
theorem canonical_choice_of_two_le {members : List Diagram} (h : 2 ≤ (setOf members).length) :
    Reading.canonical.choice members = .ok (.choice (setOf members)) :=
  if_neg (Nat.not_lt.2 h)

/-- A canonical choice of fewer members is refused. -/
theorem canonical_choice_of_lt {members : List Diagram} (h : (setOf members).length < 2) :
    Reading.canonical.choice members = .error (.tooFewAlternatives (setOf members).length) :=
  if_pos h

/-- A choice becomes a set, or is refused if the set is too small. -/
theorem narrows_choice {members : List Diagram} (hmembers : ∀ d ∈ members, d.HasAlternatives) :
    Narrows HasAlternatives sortChoices (pure (.choice members))
      (match Reading.canonical.choice (members.map sortChoices) with
        | .ok d => return d
        | .error error => stop error) := by
  have htwo : 2 ≤ (setOf (members.map sortChoices)).length ↔ (choice members).HasAlternatives := by
    rw [two_le_length_setOf, hasAlternatives_choice, and_iff_left hmembers]
    simp
  by_cases h : 2 ≤ (setOf (members.map sortChoices)).length
  · rw [canonical_choice_of_two_le h, ← sortChoicesEach_eq_map]
    exact narrows_pure (htwo.1 h)
  · rw [canonical_choice_of_lt (Nat.not_le.1 h)]
    exact narrows_stop_of_not (mt htwo.2 h) _

/-- Each of the seven variants is narrowed, and any other name is refused on both sides. -/
theorem narrows_namedReader {budget : Nat} (h : ∀ below ≤ budget, NarrowsWithin below)
    (name : String) :
    Narrows HasAlternatives sortChoices (namedReader .plain budget name)
      (namedReader .canonical budget name) := by
  have hbody := (h budget (Nat.le_refl budget)).payload
  have hlist := ((narrows_elementReader h).list budget).payload
  by_cases hname : name ∈ variantNames
  · simp only [variantNames, List.mem_cons, List.not_mem_nil, or_false] at hname
    -- one case for each variant, in the order of their names
    rcases hname with rfl | rfl | rfl | rfl | rfl | rfl | rfl
    · exact .behind fun text => narrows_pure (.terminal text)
    · exact .behind fun name => narrows_pure (.nonTerminal name)
    · refine hlist.made (fun parts => eachChoice_sequence) fun parts => ?_
      rw [sortChoices, sortChoicesEach_eq_map]
    · rw [namedReader_choice, namedReader_choice]
      apply hlist.bind
      · exact fun members hmembers => narrows_choice hmembers
      · -- a choice has alternatives only if its members do
        intro members cs d tail hd hgood
        obtain ⟨rfl, -⟩ := pure_eq_ok.1 hd
        exact (hasAlternatives_choice.1 hgood).2
    · exact hbody.made (fun body => eachChoice_optional) fun body => rfl
    · exact hbody.made (fun body => eachChoice_zeroOrMore) fun body => rfl
    · exact hbody.made (fun body => eachChoice_oneOrMore) fun body => rfl
  · rw [namedReader_of_notMem _ _ hname, namedReader_of_notMem _ _ hname]
    exact narrows_stop _ _

/-- The reader of sets narrows the plain reader, however deep diagrams may be nested. -/
theorem narrowsWithin (budget : Nat) : NarrowsWithin budget := by
  induction budget using Nat.strong_induction_on with
  | h budget ih =>
      match budget with
      | 0 => exact narrows_stop _ _
      | 1 =>
          rw [NarrowsWithin, reader_one, reader_one]
          exact .behind fun _ => narrows_stop _ _
      | budget + 2 =>
          have hbelow : ∀ below ≤ budget, NarrowsWithin below :=
            fun below hle => ih below (Nat.lt_add_right 1 (Nat.lt_succ_of_le hle))
          rw [NarrowsWithin, reader_add_two, reader_add_two]
          exact .behind fun _ => .behind fun name => narrows_namedReader hbelow name

/-- A diagram that was read with its choices as sets is canonical. -/
theorem narrows_canonical (budget : Nat) :
    Narrows IsCanonical id (reader .canonical budget) (reader .canonical budget) := by
  apply narrows_id
  intro cs d tail hd
  obtain ⟨r, -, hgood, rfl⟩ := (narrowsWithin budget cs d tail).1 hd
  exact hgood.isCanonical

end Diagram

/-- All diagrams of a grammar that has been read are canonical. -/
theorem Grammar.isCanonical_of_ofRon {text : String} {grammar : Grammar}
    (h : ofRon text = .ok grammar) :
    ∀ production ∈ grammar.productions, production.2.IsCanonical := by
  have hproductions : Ron.Reader.Narrows (fun productions => ∀ production ∈ productions,
    production.2.IsCanonical)
      (List.map (Prod.map id id)) (Ron.Reader.list Ron.nestingLimit productionReader)
      (Ron.Reader.list Ron.nestingLimit productionReader) :=
    ((Diagram.narrows_canonical _).pair Ron.Reader.string _).list _
  have hgrammar : Ron.Reader.Narrows
      (fun grammar : Grammar => ∀ production ∈ grammar.productions, production.2.IsCanonical)
      id reader reader :=
    hproductions.made (fun productions => by rw [productions_ofList]) (fun productions => by simp)
  obtain ⟨_, -, hcanonical, rfl⟩ := hgrammar.run_eq_ok.1 h
  exact hcanonical

namespace Diagram

open Ron

/-- A text is read as a diagram with sets as choices if the diagram that is written has
alternatives, and then it is that diagram with its choices made sets. No diagram that is read so, by
itself or in a grammar, has a choice between less than two members. -/
theorem ofRon_canonical (text : String) :
    (∀ d, ofRon .canonical text = .ok d ↔
      ∃ r, ofRon .plain text = .ok r ∧ r.HasAlternatives ∧ d = r.sortChoices) ∧
    (∀ d, ofRon .canonical text = .ok d → d.IsCanonical) ∧
    ∀ grammar, Grammar.ofRon text = .ok grammar →
      ∀ production ∈ grammar.productions, production.2.IsCanonical := by
  have hread (d : Diagram) : ofRon .canonical text = .ok d ↔
      ∃ r, ofRon .plain text = .ok r ∧ r.HasAlternatives ∧ d = r.sortChoices :=
    (narrowsWithin nestingLimit).run_eq_ok
  refine ⟨hread, fun d hd => ?_, fun grammar => Grammar.isCanonical_of_ofRon⟩
  obtain ⟨r, -, hgood, rfl⟩ := (hread d).1 hd
  exact hgood.isCanonical

/-- Two choices that differ in the order of their members are one member of the choice around them,
which has to have another. -/
theorem ofRon_canonical_reordered :
    ofRon .canonical "Choice([Terminal(\"x\"),Choice([NonTerminal(\"B\"),NonTerminal(\"A\")]),
        Choice([NonTerminal(\"A\"),NonTerminal(\"B\")])])" =
      .ok (.choice [.terminal "x", .choice [.nonTerminal "A", .nonTerminal "B"]]) ∧
    ∀ d, ofRon .canonical "Choice([Choice([NonTerminal(\"B\"),NonTerminal(\"A\")]),
        Choice([NonTerminal(\"A\"),NonTerminal(\"B\")])])" ≠ .ok d := by
  have hne : (nonTerminal "B").sortChoices ≠ (nonTerminal "A").sortChoices := by decide
  have hback : (choice [.nonTerminal "B", .nonTerminal "A"]).HasAlternatives :=
    hasAlternatives_choice.2 ⟨⟨_, by simp, _, by simp, hne⟩, by simp [HasAlternatives]⟩
  have hforth : (choice [.nonTerminal "A", .nonTerminal "B"]).HasAlternatives :=
    hasAlternatives_choice.2 ⟨⟨_, by simp, _, by simp, hne.symm⟩, by simp [HasAlternatives]⟩
  constructor
  -- next to the terminal, the two inner choices are two members that make one
  · apply ((ofRon_canonical _).1 _).2
    refine ⟨.choice [.terminal "x", .choice [.nonTerminal "B", .nonTerminal "A"],
      .choice [.nonTerminal "A", .nonTerminal "B"]], by decide +kernel,
      hasAlternatives_choice.2 ⟨?_, ?_⟩, by decide +kernel⟩
    · exact ⟨.terminal "x", by simp, .choice [.nonTerminal "B", .nonTerminal "A"], by simp,
        by decide +kernel⟩
    -- both members of the outer choice are the same set, so that one alternative is left
    · intro d hd
      simp only [List.mem_cons, List.not_mem_nil, or_false] at hd
      rcases hd with rfl | rfl | rfl
      · exact .terminal "x"
      · exact hback
      · exact hforth
  · intro d hd
    obtain ⟨r, hr, hgood, -⟩ := ((ofRon_canonical _).1 d).1 hd
    have hplain : ofRon .plain "Choice([Choice([NonTerminal(\"B\"),NonTerminal(\"A\")]),
        Choice([NonTerminal(\"A\"),NonTerminal(\"B\")])])" = .ok (.choice
          [.choice [.nonTerminal "B", .nonTerminal "A"],
            .choice [.nonTerminal "A", .nonTerminal "B"]]) := by
      decide +kernel
    rw [hplain] at hr
    obtain rfl := Except.ok.inj hr
    obtain ⟨a, ha, b, hb, hdiffer⟩ := (hasAlternatives_choice.1 hgood).1
    have hsame : ∀ d ∈ [choice [.nonTerminal "B", .nonTerminal "A"],
        choice [.nonTerminal "A", .nonTerminal "B"]],
        d.sortChoices = .choice [.nonTerminal "A", .nonTerminal "B"] := by decide +kernel
    exact hdiffer ((hsame a ha).trans (hsame b hb).symm)

end Diagram

end Railroad
