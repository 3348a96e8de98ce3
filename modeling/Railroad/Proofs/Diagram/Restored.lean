import Railroad.Proofs.Diagram.EachChoice
import Railroad.Proofs.Diagram.Variant
import Railroad.Proofs.Ron.WrittenForm
set_option autoImplicit false

/-!
# Stored diagrams are restored

What is written for a diagram, in either layout, is read as that diagram again by every reader that
keeps the choices of the diagram as they are (`restores_reader`). A reader counts more nesting than
a writer does, so a form that could be written may be refused, but only because of its nesting. For
diagrams that are written with indented lines and read as they are written this is
`ofRon_toRon_indented`.
-/

namespace Railroad.Diagram

open Ron

/-! ## Nesting -/

mutual

/-- How deeply a reader nests what it reads for a diagram. A variant nests what it holds twice, in
itself and behind its name. -/
def readNesting : Diagram → Nat
  | .terminal _ => 2
  | .nonTerminal _ => 2
  | .sequence parts => Nesting.list (readNestingEach parts) + 2
  | .choice members => Nesting.list (readNestingEach members) + 2
  | .optional body => readNesting body + 2
  | .zeroOrMore body => readNesting body + 2
  | .oneOrMore body => readNesting body + 2

/-- How deeply a reader nests what it reads for each of several diagrams. -/
def readNestingEach : List Diagram → List Nat
  | [] => []
  | d :: rest => readNesting d :: readNestingEach rest

end

theorem readNestingEach_eq_map (ds : List Diagram) : readNestingEach ds = ds.map readNesting := by
  induction ds with
  | nil => rfl
  | cons d rest ih => rw [readNestingEach, ih, List.map_cons]

theorem ronCharsEach_eq_map (layout : Layout) (ds : List Diagram) :
    ronCharsEach layout ds = ds.map (ronChars layout) := by
  induction ds with
  | nil => rfl
  | cons d rest ih => rw [ronCharsEach, ih, List.map_cons]

/-- Reading a diagram takes at least two levels, for its name and for what is in its parentheses. -/
theorem two_le_readNesting (d : Diagram) : 2 ≤ d.readNesting := by
  cases d <;> simp [readNesting]

/-! ## Variants -/

/-- A written diagram begins with a letter, and not with a blank. -/
theorem begins_ronChars (layout : Layout) (d : Diagram) : Reader.Begins (ronChars layout d) := by
  cases d <;> exact ⟨_, _, rfl, by decide⟩

/-- The name of a variant is read up to the parenthesis behind it. -/
theorem ident_of_mem {name : String} (h : name ∈ variantNames) (rest : List Char) :
    Reader.ident (name.toList ++ '(' :: rest) = .ok (name, '(' :: rest) := by
  simp only [variantNames, List.mem_cons, List.not_mem_nil, or_false] at h
  rcases h with rfl | rfl | rfl | rfl | rfl | rfl | rfl <;>
    exact Reader.ident_append rfl (by decide) (by decide) rest

theorem gaps_of_mem {name : String} (h : name ∈ variantNames) (rest : List Char) :
    Reader.gaps (name.toList ++ rest) = .ok ((), name.toList ++ rest) := by
  simp only [variantNames, List.mem_cons, List.not_mem_nil, or_false] at h
  rcases h with rfl | rfl | rfl | rfl | rfl | rfl | rfl <;>
    exact Reader.Begins.gaps ⟨_, _, rfl, by decide⟩ rest

variable {reading : Reading}

/-- A variant is restored if what it holds is restored behind its name. -/
theorem restores_variant {name : String} {payload : List Char} {d : Diagram} {n : Nat}
    (hname : name ∈ variantNames) (hn : d.readNesting = n + 2)
    (h : ∀ budget, Reader.Restores (namedReader reading budget name) (n ≤ budget)
      ('(' :: (payload ++ [')'])) d)
    (budget : Nat) :
    Reader.Restores (reader reading budget) (d.readNesting ≤ budget)
      (Form.variant name payload) d := by
  intro rest
  have hform : Form.variant name payload ++ rest =
      name.toList ++ ('(' :: (payload ++ [')']) ++ rest) := by simp [Form.variant]
  rw [hform, hn]
  -- the name takes one from the budget, and what it announces the other
  match budget with
  | 0 => exact .inr ⟨by omega, _, rfl, rfl⟩
  | 1 =>
      refine .inr ⟨by omega, ?_⟩
      rw [reader_one, Reader.bind_of_ok (gaps_of_mem hname _)]
      exact ⟨_, rfl, rfl⟩
  | budget + 2 =>
      rw [reader_add_two]
      apply Reader.Ends.bind_of_ok (gaps_of_mem hname _)
      apply Reader.Ends.bind_of_ok (ident_of_mem hname _)
      exact (h budget rest).congr (by omega)

/-- A text in parentheses is read back. -/
theorem restores_text (text : String) (budget : Nat) :
    Reader.Restores (Reader.payload Reader.string) (0 ≤ budget)
      ('(' :: (Form.string text ++ [')'])) text :=
  ((Reader.restores_string text).payload (Reader.begins_string text)).congr
    (iff_of_true trivial (Nat.zero_le budget))

/-- An element is read back with two levels more than it takes on its own. -/
theorem restores_elementReader {d : Diagram} {form : List Char}
    (h : ∀ budget, Reader.Restores (reader reading budget) (d.readNesting ≤ budget) form d)
    (budget : Nat) :
    Reader.Restores (elementReader reading budget) (d.readNesting + 2 ≤ budget) form d := by
  intro rest
  have htwo := two_le_readNesting d
  match budget with
  | 0 => exact .inr ⟨by omega, _, rfl, rfl⟩
  | 1 => exact .inr ⟨by omega, _, rfl, rfl⟩
  | budget + 2 => exact (h budget rest).congr (by omega)

/-- The diagrams in a list are restored if each of them is. -/
theorem restores_elements {ds : List Diagram} (layout : Layout)
    (h : ∀ d ∈ ds, ∀ layout budget,
      Reader.Restores (reader reading budget) (d.readNesting ≤ budget) (ronChars layout d) d)
    (budget : Nat) :
    Reader.Restores (Reader.payload (Reader.list budget (elementReader reading budget)))
      (Nesting.list (readNestingEach ds) ≤ budget)
      ('(' :: (Form.list layout (ronCharsEach layout.inner ds) ++ [')'])) ds := by
  have hlist := Reader.restores_list
    (fun d hd => restores_elementReader (h d hd layout.inner) budget)
    (fun d _ => begins_ronChars layout.inner d) layout budget
  rw [ronCharsEach_eq_map]
  apply (hlist.payload (Reader.begins_list layout _)).congr
  rw [Nesting.list_le_iff, readNestingEach_eq_map, List.forall_mem_map]

/-! ## Diagrams -/

/-- A stored diagram is read as itself if the reader keeps the choices in it. -/
theorem restores_reader {d : Diagram}
    (h : d.EachChoice fun members => reading.choice members = .ok (.choice members))
    (layout : Layout) (budget : Nat) :
    Reader.Restores (reader reading budget) (d.readNesting ≤ budget) (ronChars layout d) d := by
  induction h generalizing layout budget with
  | terminal text =>
      refine restores_variant (by decide) rfl (fun budget => ?_) budget
      rw [namedReader_terminal]
      exact (restores_text text budget).made _
  | nonTerminal name =>
      refine restores_variant (by decide) rfl (fun budget => ?_) budget
      rw [namedReader_nonTerminal]
      exact (restores_text name budget).made _
  | sequence _ ih =>
      refine restores_variant (by decide) rfl (fun budget => ?_) budget
      rw [namedReader_sequence]
      exact (restores_elements layout ih budget).made _
  | choice hmembers _ ih =>
      refine restores_variant (by decide) rfl (fun budget => ?_) budget
      rw [namedReader_choice]
      -- the members are read back, and the choice of them is what was written
      intro rest
      refine (restores_elements layout ih budget rest).bind_ok ?_
      rw [hmembers]
      rfl
  | optional _ ih =>
      refine restores_variant (by decide) rfl (fun budget => ?_) budget
      rw [namedReader_optional]
      exact ((ih layout budget).payload (begins_ronChars layout _)).made _
  | zeroOrMore _ ih =>
      refine restores_variant (by decide) rfl (fun budget => ?_) budget
      rw [namedReader_zeroOrMore]
      exact ((ih layout budget).payload (begins_ronChars layout _)).made _
  | oneOrMore _ ih =>
      refine restores_variant (by decide) rfl (fun budget => ?_) budget
      rw [namedReader_oneOrMore]
      exact ((ih layout budget).payload (begins_ronChars layout _)).made _

/-- What is written is the text of the diagram. -/
theorem toRon_eq_ok {d : Diagram} {layout : Layout} {s : String} (h : d.toRon layout = .ok s) :
    s = String.ofList (ronChars layout d) := by
  unfold toRon at h
  split at h
  · exact (Except.ok.inj h).symm
  · cases h

/-- A diagram that is written with indented lines and read as it is written is restored, or else it
is nested too deeply for the reader, which says so. -/
theorem ofRon_toRon_indented {d : Diagram} {s : String} (h : d.toRon (.indented 0) = .ok s) :
    (d.readNesting ≤ nestingLimit ∧ ofRon .plain s = .ok d) ∨
      (¬ d.readNesting ≤ nestingLimit ∧
        ∃ failure, ofRon .plain s = .error failure ∧ failure.error = .exceededRecursionLimit) := by
  have hkept : d.EachChoice fun members => Reading.plain.choice members = .ok (.choice members) :=
    eachChoice_of_forall (fun _ => rfl) d
  rw [toRon_eq_ok h]
  exact (restores_reader hkept (.indented 0) nestingLimit).run (begins_ronChars _ d)

/-- Quotes, backslashes, line breaks, a combining mark and choices between less than two members are
restored. -/
theorem ofRon_toRon_indented_row : ∃ s,
    toRon (.indented 0) (.sequence [.terminal "\"\\\n\x00e\u0301é", .choice [],
      .optional (.choice [.nonTerminal "u\u0301"])]) = .ok s ∧
    ofRon .plain s = .ok (.sequence [.terminal "\"\\\n\x00e\u0301é", .choice [],
      .optional (.choice [.nonTerminal "u\u0301"])]) := by
  have hwritten : toRon (.indented 0) (.sequence [.terminal "\"\\\n\x00e\u0301é", .choice [],
      .optional (.choice [.nonTerminal "u\u0301"])]) = .ok _ := if_pos (by decide +kernel)
  rcases ofRon_toRon_indented hwritten with ⟨-, hread⟩ | ⟨hdeep, -⟩
  · exact ⟨_, hwritten, hread⟩
  · exact absurd (by decide +kernel) hdeep

end Railroad.Diagram
