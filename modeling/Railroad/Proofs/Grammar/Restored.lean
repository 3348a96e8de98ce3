import Mathlib.Data.List.Induction
import Railroad.Grammar.Ron
import Railroad.Proofs.Diagram.Drawing
import Railroad.Proofs.Diagram.Restored
set_option autoImplicit false

/-!
# Stored grammars are restored

A grammar is stored as its list of productions. What is built again from that list is the same
grammar with the same index of names, because a grammar is never built but by adding productions
(`Grammar.Built`). The members of choices are read as sets, so a stored grammar is restored if its
choices are sets of two members or more (`Grammar.WellFormed`), as they are in the grammar of every
text.
-/

namespace Railroad

/-- A reader that makes a set of the members of a choice keeps the choices of canonical diagrams. -/
theorem Diagram.IsCanonical.kept {d : Diagram} (h : d.IsCanonical) :
    d.EachChoice fun members => Reading.canonical.choice members = .ok (.choice members) := by
  apply EachChoice.imp h
  rintro members ⟨htwo, hstrict⟩
  have hset := setOf_of_strict hstrict
  simp only [Reading.canonical, hset]
  exact if_neg (Nat.not_lt.2 htwo)

namespace Grammar

open Ron

/-! ## Grammars as they can be built -/

/-- Grammars are built from the empty one by adding productions at the end. -/
inductive Built : Grammar → Prop where
  | empty : Built empty
  | push {grammar : Grammar} (name : String) (diagram : Diagram) :
      Built grammar → Built (grammar.push name diagram)

/-- The last production of a list is added last. -/
theorem ofList_append (productions : List (String × Diagram)) (name : String) (diagram : Diagram) :
    ofList (productions ++ [(name, diagram)]) = (ofList productions).push name diagram := by
  rw [ofList, List.foldl_append]
  rfl

/-- A grammar that is put together from a list is built of its productions. -/
theorem built_ofList (productions : List (String × Diagram)) : (ofList productions).Built := by
  induction productions using List.reverseRecOn with
  | nil => exact .empty
  | append_singleton productions production ih =>
      rw [ofList_append]
      exact .push production.1 production.2 ih

/-- The index of a grammar follows from its productions. -/
theorem Built.ofList_productions {grammar : Grammar} (h : grammar.Built) :
    ofList grammar.productions = grammar := by
  induction h with
  | empty => rfl
  | push name diagram _ ih => rw [productions_push, ofList_append, ih]

/-- A grammar with canonical diagrams that was built by adding productions. -/
structure WellFormed (grammar : Grammar) : Prop where
  built : grammar.Built
  canonical : ∀ production ∈ grammar.productions, production.2.IsCanonical

theorem built_of_ofDocument {document : Notation.Document} {grammar : Grammar}
    (h : ofDocument document = .ok grammar) : grammar.Built := by
  obtain ⟨productions, -, hgrammar⟩ := bind_eq_ok.1 h
  rw [pure_eq_ok.1 hgrammar]
  exact built_ofList productions

/-- The grammar of a text is well formed. -/
theorem wellFormed_of_read {text : String} {grammar : Grammar} (h : read text = .ok grammar) :
    grammar.WellFormed := by
  obtain ⟨document, -, hdrawn⟩ := read_eq_ok_iff.1 h
  refine ⟨built_of_ofDocument hdrawn, fun production hp => ?_⟩
  obtain ⟨v, hv⟩ := exists_definition_of_mem hdrawn hp
  -- each diagram was drawn from the definition of a production
  exact (Diagram.isFramed_ofDefinition hv).isCanonical

/-! ## The way through a text -/

/-- How deeply a reader nests what it reads for a grammar: in each production, which is a pair in a
list. -/
def readNesting (grammar : Grammar) : Nat :=
  Nesting.list (grammar.productions.map fun production =>
    Nesting.list [0, production.2.readNesting])

/-- A grammar can be read if there is room for each of its diagrams in a pair in a list. -/
theorem readNesting_le_iff {grammar : Grammar} : grammar.readNesting ≤ nestingLimit ↔
    ∀ production ∈ grammar.productions, production.2.readNesting + 4 ≤ nestingLimit := by
  have hpair (n : Nat) : Nesting.list [0, n] + 2 = n + 4 := by
    have hlist : Nesting.list [0, n] = 2 + max (max 0 0) n := rfl
    omega
  rw [readNesting, Nesting.list_le_iff, and_iff_right (by decide), List.forall_mem_map]
  simp only [hpair]

theorem restores_productionReader {production : String × Diagram} (h : production.2.IsCanonical) :
    Reader.Restores productionReader (production.2.readNesting + 4 ≤ nestingLimit)
      (productionChars production) production := by
  have hpair := (Reader.restores_string production.1).pair
    (Diagram.restores_reader h.kept .compact (nestingLimit - 4))
    (Reader.begins_string production.1) (Diagram.begins_ronChars .compact production.2)
    (nestingLimit - 2)
  apply hpair.congr
  rw [and_iff_right (by decide), true_and]
  exact Nat.le_sub_iff_add_le (by decide)

/-- A well-formed grammar is restored from its stored form. -/
theorem restores_ronReader {grammar : Grammar} (h : grammar.WellFormed) :
    Reader.Restores reader (grammar.readNesting ≤ nestingLimit) grammar.ronChars grammar := by
  have hlist := Reader.restores_list
      (fun production hp => restores_productionReader (h.canonical production hp))
    (fun production _ => Reader.begins_tuple _) .compact nestingLimit
  -- the list is restored, and the grammar is put together from it again
  have hgrammar := hlist.made ofList
  rw [h.built.ofList_productions] at hgrammar
  apply hgrammar.congr
  rw [readNesting_le_iff, and_iff_right (by decide)]

theorem toRon_eq_ok {grammar : Grammar} {s : String} (h : grammar.toRon = .ok s) :
    s = String.ofList grammar.ronChars := by
  unfold toRon at h
  split at h
  · exact (Except.ok.inj h).symm
  · cases h

/-- The grammar of a text is well formed, and a well-formed grammar that is written is read as
itself, with the same index of names, or else it is nested too deeply for the reader, which says
so. -/
theorem ofRon_toRon_compact :
    (∀ text grammar, read text = .ok grammar → grammar.WellFormed) ∧
    ∀ (grammar : Grammar) (s : String), grammar.WellFormed → grammar.toRon = .ok s →
      (grammar.readNesting ≤ nestingLimit ∧ ofRon s = .ok grammar) ∨
        (¬ grammar.readNesting ≤ nestingLimit ∧
          ∃ failure, ofRon s = .error failure ∧ failure.error = .exceededRecursionLimit) := by
  refine ⟨fun text grammar => wellFormed_of_read, fun grammar s hgrammar hwritten => ?_⟩
  rw [toRon_eq_ok hwritten]
  exact (restores_ronReader hgrammar).run (Reader.begins_list .compact _)

/-- Names that repeat, and texts with quotes, backslashes and a combining mark, are restored. -/
theorem ofRon_toRon_compact_repeated : ∃ grammar s,
    read "A ::= '\"\\\u0301' | (D | C)*\nB ::= A\nA ::= \"it's\"" = .ok grammar ∧
      grammar.toRon = .ok s ∧ ofRon s = .ok grammar := by
  obtain ⟨hread, hrestored⟩ := ofRon_toRon_compact
  -- there is room for the grammar both when it is written and when it is read
  have hfits : (read "A ::= '\"\\\u0301' | (D | C)*\nB ::= A\nA ::= \"it's\"").toOption.map
      (fun grammar =>
        decide (grammar.ronNesting ≤ nestingLimit ∧ grammar.readNesting ≤ nestingLimit)) =
      some true := by
    decide +kernel
  cases hgrammar : read "A ::= '\"\\\u0301' | (D | C)*\nB ::= A\nA ::= \"it's\"" with
  | error e => simp [hgrammar, Except.toOption] at hfits
  | ok grammar =>
      simp only [hgrammar, Except.toOption, Option.map_some, Option.some.injEq,
        decide_eq_true_eq] at hfits
      have hwritten : grammar.toRon = .ok (String.ofList grammar.ronChars) := if_pos hfits.1
      rcases hrestored grammar _ (hread _ grammar hgrammar) hwritten with ⟨-, hok⟩ | ⟨hdeep, -⟩
      · exact ⟨grammar, _, rfl, hwritten, hok⟩
      · exact absurd hfits.2 hdeep

end Grammar

end Railroad
