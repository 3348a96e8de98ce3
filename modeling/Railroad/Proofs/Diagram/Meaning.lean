import Mathlib.Computability.Language
import Mathlib.Order.CompletePartialOrder
import Railroad.Proofs.Diagram.Drawing
set_option autoImplicit false

/-!
# What diagrams and definitions mean

A diagram means the rows of boxes that one passes on the way through it, a set of finite words over
boxes (`Diagram.words`). What a definition of a grammar text means is said of its tree alone,
without drawing it (`Notation.Definition.words`). Drawing preserves the meaning
(`words_ofDefinition`): neither that repeated alternatives are dropped nor that single elements
stand for themselves makes a difference.
-/

namespace Railroad

open Computability

/-- A box of a diagram. -/
inductive Box where
  | terminal (text : String)
  | nonTerminal (name : String)
  deriving DecidableEq, Repr

/-- The words under a cardinality. -/
def Notation.Cardinality.words : Option Notation.Cardinality → Language Box → Language Box
  | none, words => words
  | some .optional, words => 1 + words
  | some .zeroOrMore, words => words∗
  | some .oneOrMore, words => words * words∗

namespace Diagram

/-- The word of a single box. -/
def single (box : Box) : Language Box := {[box]}

mutual

/-- The words that a diagram means. -/
def words : Diagram → Language Box
  | .terminal text => single (.terminal text)
  | .nonTerminal name => single (.nonTerminal name)
  | .sequence parts => wordsInRow parts
  | .choice members => wordsOfAny members
  | .optional body => 1 + words body
  | .zeroOrMore body => (words body)∗
  | .oneOrMore body => words body * (words body)∗

/-- The words of diagrams one after the other. -/
def wordsInRow : List Diagram → Language Box
  | [] => 1
  | d :: rest => words d * wordsInRow rest

/-- The words of any of some diagrams. -/
def wordsOfAny : List Diagram → Language Box
  | [] => 0
  | d :: rest => words d + wordsOfAny rest

end

end Diagram

namespace Notation

open Diagram

mutual

/-- The words that a primary means. -/
def Primary.words : Primary → Language Box
  | .name n => single (.nonTerminal n.text)
  | .string s => single (.terminal s.value)
  | .code k => single (.terminal k.print)
  | .charClass k => single (.terminal k.print)
  | .group c => c.words

/-- The words that an item means. -/
def Item.words : Item → Language Box
  | ⟨primary, cardinality, _⟩ => Cardinality.words cardinality primary.words

/-- The words that a branch means: a difference is its two sides with a dash between them. -/
def Branch.words : Branch → Language Box
  | .sequence items _ => Item.wordsInRow items
  | .difference left right _ => left.words * single (.terminal "-") * right.words

/-- The words that a choice means. -/
def Choice.words : Choice → Language Box
  | ⟨branches, _⟩ => Branch.wordsOfAny branches

/-- The words of items one after the other. -/
def Item.wordsInRow : List Item → Language Box
  | [] => 1
  | item :: rest => item.words * Item.wordsInRow rest

/-- The words of any of some branches. -/
def Branch.wordsOfAny : List Branch → Language Box
  | [] => 0
  | branch :: rest => branch.words + Branch.wordsOfAny rest

end

/-- The words that a definition means: a link is a reference to its target. -/
def Definition.words : Definition → Language Box
  | .link l => single (.nonTerminal l.target)
  | .choice c => c.words

end Notation

namespace Diagram

/-! ## Rows and alternatives -/

theorem mem_wordsOfAny {w : List Box} {ds : List Diagram} :
    w ∈ wordsOfAny ds ↔ ∃ d ∈ ds, w ∈ d.words := by
  induction ds with
  | nil => simp [wordsOfAny]
  | cons d rest ih =>
      rw [wordsOfAny, Language.mem_add, ih]
      simp

/-- What alternatives mean depends only on which there are. -/
theorem wordsOfAny_congr {ds es : List Diagram} (h : ∀ d, d ∈ ds ↔ d ∈ es) :
    wordsOfAny ds = wordsOfAny es := by
  ext w
  simp only [mem_wordsOfAny, h]

/-- A single diagram means the same as the row of it. -/
theorem words_row (ds : List Diagram) : (row ds).words = wordsInRow ds := by
  unfold row
  split
  · simp [wordsInRow]
  · rfl

/-- Neither the order of alternatives nor how often each occurs changes what is meant. -/
theorem words_choice? {ds : List Diagram} {d : Diagram} (h : choice? ds = some d) :
    d.words = wordsOfAny ds := by
  have hset : wordsOfAny (setOf ds) = wordsOfAny ds :=
    wordsOfAny_congr fun _ => Ascending.mem_ofList
  rw [← hset]
  unfold choice? at h
  split at h
  · cases h
  next only hmembers =>
    -- the only member stands for the whole choice
    obtain rfl := Option.some.inj h
    simp [hmembers, wordsOfAny]
  · obtain rfl := Option.some.inj h
    rfl

/-- The mark of an item repeats its words. -/
theorem words_repeated (cardinality : Option Notation.Cardinality) (d : Diagram) :
    (repeated cardinality d).words = Notation.Cardinality.words cardinality d.words := by
  rcases cardinality with _ | _ | _ | _ <;> rfl

/-- A frame around a diagram does not change what is meant. -/
theorem words_framed (d : Diagram) : d.framed.words = d.words := by
  unfold framed
  split
  · simp [words, wordsInRow]
  · rfl

/-! ## Drawing preserves the meaning -/

mutual

/-- What an item consists of means what is drawn for it. -/
theorem words_ofPrimary : (p : Notation.Primary) → {d : Diagram} → ofPrimary p = .ok d →
    d.words = p.words
  | .name n, _, h => by
      cases h
      rfl
  | .string s, _, h => by
      cases h
      rfl
  | .code k, _, h => by
      cases h
      rfl
  | .charClass k, _, h => by
      cases h
      rfl
  | .group c, _, h => words_ofGroup c h

theorem words_ofItem : (i : Notation.Item) → {d : Diagram} → ofItem i = .ok d → d.words = i.words
  | ⟨p, cardinality, _⟩, _, h => by
      obtain ⟨body, hbody, rfl⟩ := ofItem_eq_ok.1 h
      rw [words_repeated, words_ofPrimary p hbody]
      rfl

/-- The elements of a branch mean, in a row, what the branch means. -/
theorem words_ofBranch : (b : Notation.Branch) → {ds : List Diagram} → ofBranch b = .ok ds →
    wordsInRow ds = b.words
  | .sequence items _, _, h => by
      obtain ⟨-, helements⟩ := ofBranch_sequence_eq_ok.1 h
      rw [wordsInRow_ofItems items helements]
      rfl
  | .difference left right _, _, h => by
      obtain ⟨l, r, hl, hr, rfl⟩ := ofBranch_difference_eq_ok.1 h
      rw [Notation.Branch.words, ← words_ofItem left hl, ← words_ofItem right hr]
      simp only [words, wordsInRow, mul_one, mul_assoc]

/-- A choice means what it is drawn as in a group. -/
theorem words_ofGroup : (c : Notation.Choice) → {d : Diagram} → ofPrimary (.group c) = .ok d →
    d.words = c.words
  | ⟨branches, _⟩, _, h => by
      obtain ⟨rows, hrows, hd⟩ := ofPrimary_group_eq_ok.1 h
      rw [words_choice? hd, wordsOfAny_rows branches hrows]
      rfl

theorem wordsInRow_ofItems : (items : List Notation.Item) → {ds : List Diagram} →
    ofItems items = .ok ds → wordsInRow ds = Notation.Item.wordsInRow items
  | [], _, h => by
      cases h
      rfl
  | item :: rest, _, h => by
      obtain ⟨d, ds, hd, hds, rfl⟩ := ofItems_cons_eq_ok.1 h
      rw [wordsInRow, words_ofItem item hd, wordsInRow_ofItems rest hds]
      rfl

/-- Branches mean what their rows mean, whichever elements are kept of them. -/
theorem wordsOfAny_rows : (branches : List Notation.Branch) → {ds : List Diagram} →
    branches.mapM rowOf = .ok ds → wordsOfAny ds = Notation.Branch.wordsOfAny branches
  | [], _, h => by
      cases h
      rfl
  | branch :: rest, _, h => by
      obtain ⟨d, ds, hd, hds, rfl⟩ := mapM_cons_eq_ok.1 h
      obtain ⟨elements, helements, rfl⟩ := rowOf_eq_ok.1 hd
      rw [wordsOfAny, words_row, words_ofBranch branch helements, wordsOfAny_rows rest hds]
      rfl

end

/-- The diagram of a definition means what the definition means. -/
theorem words_ofDefinition {v : Notation.Definition} {d : Diagram} (h : ofDefinition v = .ok d) :
    d.words = v.words := by
  cases v with
  | link l =>
      rw [ofDefinition_link] at h
      obtain rfl := Except.ok.inj h
      exact words_framed (.nonTerminal l.target)
  | choice c =>
      obtain ⟨e, he, rfl⟩ := ofDefinition_choice_eq_ok.1 h
      rw [words_framed, words_ofGroup c he]
      rfl

end Diagram

/-- A grammar has the names of the text that was drawn, in their order, and each of its diagrams
means what the definition in the text means. -/
theorem Grammar.words_ofDocument {document : Notation.Document} {grammar : Grammar}
    (h : ofDocument document = .ok grammar) :
    List.Forall₂ (fun production p => production.1 = p.name.text ∧
      production.2.words = p.definition.words) grammar.productions document.productions :=
  (forall₂_of_ofDocument h).imp fun _ _ ⟨hname, hd⟩ => ⟨hname, Diagram.words_ofDefinition hd⟩

/-- Two of three alternatives are the same, and the diagram still means what the definition does. -/
theorem Grammar.words_ofDocument_repeated : ∃ document grammar,
    Notation.parse "A ::= B+ | 'x' - C | B+" = .ok document ∧
    ofDocument document = .ok grammar ∧ grammar.productions = [("A", .choice [
      .sequence [.terminal "x", .terminal "-", .nonTerminal "C"], .oneOrMore (.nonTerminal "B")])] ∧
    List.Forall₂ (fun production p => production.1 = p.name.text ∧
      production.2.words = p.definition.words) grammar.productions document.productions := by
  have hdrawn : (read "A ::= B+ | 'x' - C | B+").toOption.map productions = some [("A", .choice [
      .sequence [.terminal "x", .terminal "-", .nonTerminal "C"],
      .oneOrMore (.nonTerminal "B")])] := by
    decide +kernel
  cases hread : read "A ::= B+ | 'x' - C | B+" with
  | error e => simp [hread, Except.toOption] at hdrawn
  | ok grammar =>
      obtain ⟨document, hp, hg⟩ := read_eq_ok_iff.1 hread
      have hproductions := by simpa [hread, Except.toOption] using hdrawn
      exact ⟨document, grammar, hp, hg, hproductions, words_ofDocument hg⟩

end Railroad
