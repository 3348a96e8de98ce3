import Railroad.Proofs.Grammar.Restored
import Railroad.Proofs.Ron.Narrowing
set_option autoImplicit false

/-!
# The index of names

Beside the list of its productions a grammar keeps an index from names to positions in the list. The
two are only ever added to together, and one production more keeps them in agreement
(`Grammar.Indexed.push`): each name is found with the diagrams that the list has for it, each
position is one in the list, and names come in the order in which they appear first. So whatever is
asked of a grammar is answered from its productions alone, and equal grammars answer alike
(`Grammar.index_agrees`).
-/

namespace Railroad.Grammar

variable {grammar : Grammar} {name other : String} {diagram : Diagram}

/-- The diagrams that a list of productions has for a name, in order. -/
def valuesOf (productions : List (String × Diagram)) (name : String) : List Diagram :=
  (productions.filter (·.1 == name)).map Prod.snd

/-- The place where a name appears first in a list of productions. -/
def firstPlace (productions : List (String × Diagram)) (name : String) : Nat :=
  (productions.map Prod.fst).idxOf name

/-- Every position in the index is one in the list. -/
def InRange (grammar : Grammar) : Prop :=
  ∀ entry ∈ grammar.positions, ∀ position ∈ entry.2, position < grammar.size

/-- The index of a grammar says of each name what its list of productions says. -/
structure Indexed (grammar : Grammar) : Prop where
  inRange : grammar.InRange
  /-- A name is found with all diagrams that the list has for it. -/
  getAll : ∀ name, grammar.getAll name = valuesOf grammar.productions name
  /-- A name is found with the first of these, if there is one. -/
  get? : ∀ name, grammar.get? name = (valuesOf grammar.productions name).head?
  /-- The names are those of the productions. -/
  mem_names : ∀ name, name ∈ grammar.names ↔ name ∈ grammar.productions.map Prod.fst
  /-- A name that appears first in front of another one comes before it, and so no name comes
  twice. -/
  names_ordered : grammar.names.Pairwise fun a b =>
    firstPlace grammar.productions a < firstPlace grammar.productions b

/-! ## One position more -/

theorem lookup_cons_of_ne {first : String} (h : other ≠ first) (found : List Nat)
    (rest : List (String × List Nat)) :
    ((first, found) :: rest).lookup other = rest.lookup other := by
  simp only [List.lookup_cons, beq_eq_false_iff_ne.2 h]

/-- The name to which a position is added is found with the position behind its others, and any
other name as before. -/
theorem lookup_addPosition (position : Nat) (entries : List (String × List Nat)) :
    (addPosition name position entries).lookup other =
      if other = name then some ((entries.lookup name).getD [] ++ [position])
      else entries.lookup other := by
  induction entries with
  | nil => by_cases h : other = name <;> simp [addPosition, h]
  | cons entry rest ih =>
      obtain ⟨first, found⟩ := entry
      rw [addPosition]
      -- the position is added to the first entry of the name, and entries in front of it stay as
      -- they are
      by_cases hfirst : first = name
      · subst hfirst
        by_cases h : other = first
        · simp [h]
        · simp [h, lookup_cons_of_ne h]
      · rw [if_neg hfirst, lookup_cons_of_ne (Ne.symm hfirst)]
        by_cases h : other = first
        · simp [h, hfirst]
        · rw [lookup_cons_of_ne h, lookup_cons_of_ne h, ih]

/-- A name that is new is listed behind the others. -/
theorem map_fst_addPosition (position : Nat) (entries : List (String × List Nat)) :
    (addPosition name position entries).map Prod.fst =
      if name ∈ entries.map Prod.fst then entries.map Prod.fst
        else entries.map Prod.fst ++ [name] := by
  induction entries with
  | nil => simp [addPosition]
  | cons entry rest ih =>
      obtain ⟨first, found⟩ := entry
      rw [addPosition]
      by_cases hfirst : first = name
      · simp [hfirst]
      · by_cases h : name ∈ rest.map Prod.fst
        · simp_all
        · simp_all [Ne.symm hfirst]

/-- Each position in the index was there before, or is the new one. -/
theorem exists_of_mem_addPosition {position p : Nat} {entries : List (String × List Nat)}
    {entry : String × List Nat} (h : entry ∈ addPosition name position entries) (hp : p ∈ entry.2) :
    p = position ∨ ∃ e ∈ entries, p ∈ e.2 := by
  induction entries with
  | nil =>
      obtain rfl := List.mem_singleton.1 h
      exact .inl (List.mem_singleton.1 hp)
  | cons e rest ih =>
      obtain ⟨first, found⟩ := e
      rw [addPosition] at h
      split at h
      · rcases List.mem_cons.1 h with rfl | hrest
        · rcases List.mem_append.1 hp with hfound | hnew
          · exact .inr ⟨_, List.mem_cons_self, hfound⟩
          · exact .inl (List.mem_singleton.1 hnew)
        · exact .inr ⟨entry, List.mem_cons_of_mem _ hrest, hp⟩
      · rcases List.mem_cons.1 h with rfl | hrest
        · exact .inr ⟨_, List.mem_cons_self, hp⟩
        · rcases ih hrest with hnew | ⟨e, he, hmem⟩
          · exact .inl hnew
          · exact .inr ⟨e, List.mem_cons_of_mem _ he, hmem⟩

/-! ## One production more -/

theorem size_push : (grammar.push name diagram).size = grammar.size + 1 := by
  simp [size]

/-- One production more has the next position, which is found under its name alone. -/
theorem positionsOf_push : (grammar.push name diagram).positionsOf other =
    grammar.positionsOf other ++ if other = name then [grammar.size] else [] := by
  unfold positionsOf push
  rw [lookup_addPosition]
  by_cases h : other = name <;> simp [h, size]

theorem names_push : (grammar.push name diagram).names =
    if name ∈ grammar.names then grammar.names else grammar.names ++ [name] :=
  map_fst_addPosition _ _

theorem diagramAt?_push_of_lt {position : Nat} (h : position < grammar.size) :
    (grammar.push name diagram).diagramAt? position = grammar.diagramAt? position := by
  rw [diagramAt?, diagramAt?, productions_push, List.getElem?_append_left h]

theorem diagramAt?_push_size :
    (grammar.push name diagram).diagramAt? grammar.size = some diagram := by
  rw [diagramAt?, productions_push, size, List.getElem?_concat_length]
  rfl

/-- One production more adds its diagram to those of its name. -/
theorem valuesOf_push : valuesOf (grammar.push name diagram).productions other =
    valuesOf grammar.productions other ++ if other = name then [diagram] else [] := by
  rw [productions_push, valuesOf, valuesOf, List.filter_append, List.map_append]
  by_cases h : other = name
  · simp [h]
  · simp [h, Ne.symm h]

theorem InRange.lt_of_mem_positionsOf (h : grammar.InRange) {position : Nat}
    (hp : position ∈ grammar.positionsOf name) : position < grammar.size := by
  rw [positionsOf] at hp
  cases hfound : grammar.positions.lookup name with
  | none => simp [hfound] at hp
  | some found =>
      rw [hfound, Option.getD_some] at hp
      obtain ⟨before, after, hentries, -⟩ := List.lookup_eq_some_iff.1 hfound
      exact h (name, found) (by simp [hentries]) position hp

/-- The position that is added is that of the new production. -/
theorem InRange.push (h : grammar.InRange) (name : String) (diagram : Diagram) :
    (grammar.push name diagram).InRange := by
  intro entry hentry position hp
  rw [size_push]
  rcases exists_of_mem_addPosition hentry hp with rfl | ⟨e, he, hmem⟩
  · exact Nat.lt_succ_self _
  · exact Nat.lt_succ_of_lt (h e he position hmem)

/-- The old positions lead to the old diagrams, and the new one to the new diagram. -/
theorem InRange.getAll_push (h : grammar.InRange) : (grammar.push name diagram).getAll other =
    grammar.getAll other ++ if other = name then [diagram] else [] := by
  -- a position that was there before lies in the old part of the list
  have hold : (grammar.positionsOf other).filterMap (grammar.push name diagram).diagramAt? =
      grammar.getAll other :=
    List.filterMap_congr fun position hp => diagramAt?_push_of_lt (h.lt_of_mem_positionsOf hp)
  rw [getAll, positionsOf_push, List.filterMap_append, hold]
  by_cases hname : other = name
  · simp [hname, diagramAt?_push_size]
  · simp [hname]

/-- The first diagram of a name is the first of all that are found for it. -/
theorem InRange.get?_eq_head? (h : grammar.InRange) :
    grammar.get? name = (grammar.getAll name).head? := by
  unfold get? getAll
  cases hp : grammar.positionsOf name with
  | nil => rfl
  | cons position rest =>
      have hmem : position ∈ grammar.positionsOf name := by simp [hp]
      have hlt : position < grammar.productions.length := h.lt_of_mem_positionsOf hmem
      simp [diagramAt?, List.getElem?_eq_getElem hlt]

theorem firstPlace_push_of_mem (h : other ∈ grammar.productions.map Prod.fst) :
    firstPlace (grammar.push name diagram).productions other =
      firstPlace grammar.productions other := by
  rw [firstPlace, productions_push, List.map_append, List.idxOf_append_of_mem h, firstPlace]

/-- A name that is new appears behind all others. -/
theorem firstPlace_push_of_notMem (h : name ∉ grammar.productions.map Prod.fst) :
    firstPlace (grammar.push name diagram).productions name = grammar.size := by
  rw [firstPlace, productions_push, List.map_append, List.idxOf_append_of_notMem h]
  simp [size]

/-! ## Whole grammars -/

theorem indexed_empty : empty.Indexed where
  inRange _ h := absurd h List.not_mem_nil
  getAll _ := rfl
  get? _ := rfl
  mem_names _ := Iff.rfl
  names_ordered := .nil

/-- One production more keeps the index in agreement with the list. -/
theorem Indexed.push (h : grammar.Indexed) (name : String) (diagram : Diagram) :
    (grammar.push name diagram).Indexed := by
  have hall : ∀ other, (grammar.push name diagram).getAll other =
      valuesOf (grammar.push name diagram).productions other := by
    intro other
    rw [h.inRange.getAll_push, h.getAll other, valuesOf_push]
  refine ⟨h.inRange.push name diagram, hall, fun other => ?_, fun other => ?_, ?_⟩
  -- the first of all diagrams of a name
  · rw [(h.inRange.push name diagram).get?_eq_head?, hall]
  · rw [names_push, productions_push, List.map_append, List.mem_append, ← h.mem_names]
    split
    next hold =>
      refine ⟨.inl, ?_⟩
      rintro (hmem | hmem)
      · exact hmem
      · exact List.mem_singleton.1 hmem ▸ hold
    next => exact List.mem_append
  · have hkept : ∀ a ∈ grammar.names, firstPlace (grammar.push name diagram).productions a =
        firstPlace grammar.productions a :=
      fun a ha => firstPlace_push_of_mem ((h.mem_names a).1 ha)
    have hold : grammar.names.Pairwise fun a b =>
        firstPlace (grammar.push name diagram).productions a <
          firstPlace (grammar.push name diagram).productions b :=
      h.names_ordered.imp_of_mem fun ha hb hlt => by rwa [hkept _ ha, hkept _ hb]
    rw [names_push]
    split
    next => exact hold
    next hnew =>
      -- the names that were there appear in the old list, and the new one behind it
      refine List.pairwise_append.2 ⟨hold, List.pairwise_singleton _ _, fun a ha b hb => ?_⟩
      obtain rfl := List.mem_singleton.1 hb
      rw [hkept a ha, firstPlace_push_of_notMem (mt (h.mem_names b).2 hnew), size,
        ← List.length_map Prod.fst]
      exact List.idxOf_lt_length_of_mem ((h.mem_names a).1 ha)

/-- The index of a grammar agrees with its list, by induction on how the grammar was built. -/
theorem Built.indexed (h : grammar.Built) : grammar.Indexed := by
  induction h with
  | empty => exact indexed_empty
  | push name diagram _ ih => exact ih.push name diagram

/-- Grammars that compare equal are the same, although the comparison does not look at the index. -/
theorem Built.eq_of_beq {a b : Grammar} (ha : a.Built) (hb : b.Built) (h : (a == b) = true) :
    a = b := by
  have hproductions : a.productions = b.productions := LawfulBEq.eq_of_beq h
  -- the comparison goes by the productions, from which either index is made
  rw [← ha.ofList_productions, hproductions, hb.ofList_productions]

/-- A grammar that is read from its stored form is built of the productions that are read. -/
theorem built_of_ofRon {text : String} (h : ofRon text = .ok grammar) : grammar.Built := by
  -- whatever the reader gives back was put together by adding productions
  have hreader : Ron.Reader.Narrows Built id reader reader := by
    apply Ron.Reader.narrows_id
    intro cs built tail hread
    obtain ⟨productions, _, -, hmade⟩ := Ron.Reader.bind_eq_ok.1 hread
    obtain ⟨rfl, -⟩ := Ron.Reader.pure_eq_ok.1 hmade
    exact built_ofList productions
  obtain ⟨_, -, hbuilt, rfl⟩ := hreader.run_eq_ok.1 h
  exact hbuilt

/-- However a grammar comes about, it is built by adding productions, and in every grammar that is
built so the index agrees with the list. Grammars that compare equal, which is to say that their
productions are, give the same answers to everything that is asked by name. -/
theorem index_agrees :
    (∀ productions, (ofList productions).Built) ∧
    (∀ document grammar, ofDocument document = .ok grammar → grammar.Built) ∧
    (∀ text grammar, ofRon text = .ok grammar → grammar.Built) ∧
    ∀ grammar : Grammar, grammar.Built → grammar.Indexed ∧
      ∀ other : Grammar, other.Built → (grammar == other) = true →
        (∀ name, grammar.get? name = other.get? name ∧ grammar.getAll name = other.getAll name) ∧
          grammar.names = other.names := by
  refine ⟨built_ofList, fun document grammar => built_of_ofDocument,
    fun text grammar => built_of_ofRon, ?_⟩
  intro grammar hgrammar
  refine ⟨hgrammar.indexed, fun other hother hsame => ?_⟩
  obtain rfl := hgrammar.eq_of_beq hother hsame
  exact ⟨fun name => ⟨rfl, rfl⟩, rfl⟩

/-- Of two productions with one name both are found, in the grammar that was put together and in the
one that was stored. -/
theorem index_agrees_repeated : ∃ grammar other,
    grammar = ofList [("A", .terminal "a"), ("B", .terminal "b"), ("A", .terminal "c")] ∧
    ofRon "[(\"A\",Terminal(\"a\")),(\"B\",Terminal(\"b\")),(\"A\",Terminal(\"c\"))]" = .ok other ∧
    grammar.Built ∧ other.Built ∧ (grammar == other) = true ∧ other.names = ["A", "B"] ∧
    other.get? "A" = some (.terminal "a") ∧ other.getAll "A" = [.terminal "a", .terminal "c"] ∧
    other.getAll "C" = [] := by
  obtain ⟨hlist, -, hron, hagrees⟩ := index_agrees
  have hread :
      (ofRon
        "[(\"A\",Terminal(\"a\")),(\"B\",Terminal(\"b\")),(\"A\",Terminal(\"c\"))]").toOption.map
          productions =
        some [("A", .terminal "a"), ("B", .terminal "b"), ("A", .terminal "c")] := by
    decide +kernel
  cases hother : ofRon
      "[(\"A\",Terminal(\"a\")),(\"B\",Terminal(\"b\")),(\"A\",Terminal(\"c\"))]" with
  | error failure => simp [hother, Except.toOption] at hread
  | ok other =>
      have hproductions : other.productions =
          [("A", .terminal "a"), ("B", .terminal "b"), ("A", .terminal "c")] := by
        simpa [hother, Except.toOption] using hread
      have hbuilt := hlist [("A", .terminal "a"), ("B", .terminal "b"), ("A", .terminal "c")]
      -- the comparison looks at the productions, which are those of the list
      have hsame : (ofList [("A", .terminal "a"), ("B", .terminal "b"), ("A", .terminal "c")] ==
        other) = true := by
        show ((ofList _).productions == other.productions) = true
        rw [productions_ofList, hproductions]
        decide
      obtain ⟨-, hequal⟩ := hagrees _ hbuilt
      obtain ⟨hanswers, hnames⟩ := hequal other (hron _ other hother) hsame
      refine ⟨_, other, rfl, rfl, hbuilt, hron _ other hother, hsame, hnames.symm.trans (by decide),
        ?_, ?_, ?_⟩
      · exact (hanswers "A").1.symm.trans (by decide)
      · exact (hanswers "A").2.symm.trans (by decide)
      · exact (hanswers "C").2.symm.trans (by decide)

end Railroad.Grammar
