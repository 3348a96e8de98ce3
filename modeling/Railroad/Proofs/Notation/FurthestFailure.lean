import Railroad.Proofs.Ascending
import Railroad.Proofs.Notation.CheckedReading
set_option autoImplicit false

/-!
# What is kept of the failures

A text is blamed at its furthest failure, and to know that one in the end it is enough to keep the
furthest by now with all that was looked for there (`Furthest`). A failure further on replaces what
was kept, one at the same offset adds to it, and any other one changes nothing (`Furthest.note`).
Nothing is taken back when a rule is given up, and so what is kept sums up all failures so far,
whichever rules they belong to (`Furthest.sums_after`). It is all that the error of a text consists
of (`furthest_of_parse_error`).
-/

namespace Railroad.Notation

/-! ## The order of expectations -/

/-- The text of an expectation, which only a fixed piece of text has. -/
def Expected.text : Expected → String
  | .literal text => text
  | _ => ""

/-- Expectations are in the order of their kinds, and then of their texts. -/
theorem Expected.compare_eq_compareLex :
    Expected.compare = compareLex (compareOn Expected.rank) (compareOn Expected.text) := by
  funext a b
  -- the kinds differ and decide, or they are the same and only pieces of text have more to them
  cases a <;> cases b <;> simp [compare, compareLex, compareOn, rank, text] <;> rfl

instance : Std.TransCmp Expected.compare := by
  rw [Expected.compare_eq_compareLex]
  infer_instance

/-! ## One failure after another -/

/-- The greatest offset of a failure by now, and what was looked for there in vain. -/
structure Furthest where
  offset : Nat
  expected : List Expected
  deriving DecidableEq, Repr

namespace Furthest

/-- Nothing has failed yet. -/
def start : Furthest := ⟨0, []⟩

/-- What is left of what was kept when a failure lies at an offset: nothing, if the offset is
further on. -/
def advance (kept : Furthest) (offset : Nat) : Furthest :=
  if kept.offset < offset then ⟨offset, []⟩ else kept

/-- One failure more. It counts if no other one lies further on by now. -/
def note (kept : Furthest) (offset : Nat) (expected : Expected) : Furthest :=
  let reached := kept.advance offset
  if offset = reached.offset then
    { reached with expected := Ascending.insert Expected.compare expected reached.expected }
  else reached

/-- What is kept after some failures, which are noted one after the other. -/
def after (failures : List (Nat × Expected)) : Furthest :=
  failures.foldl (fun kept failure => kept.note failure.1 failure.2) start

variable {kept : Furthest} {failures : List (Nat × Expected)} {offset : Nat} {expected : Expected}

/-- A failure that is further on replaces all that is kept. -/
theorem note_of_lt (h : kept.offset < offset) :
    kept.note offset expected = ⟨offset, [expected]⟩ := by
  simp [note, advance, h, Ascending.insert]

/-- A failure at the same offset is added to what is kept, in its place. -/
theorem note_offset : kept.note kept.offset expected =
    ⟨kept.offset, Ascending.insert Expected.compare expected kept.expected⟩ := by
  simp [note, advance]

/-- A failure that is less far on is not kept. -/
theorem note_of_gt (h : offset < kept.offset) : kept.note offset expected = kept := by
  have hle : ¬ kept.offset < offset := Nat.not_lt_of_gt h
  simp [note, advance, hle, Nat.ne_of_lt h]

/-- The offset that is kept only moves forwards. -/
theorem offset_note : (kept.note offset expected).offset = max kept.offset offset := by
  rcases Nat.lt_trichotomy kept.offset offset with hlt | rfl | hgt
  · rw [note_of_lt hlt, Nat.max_eq_right (Nat.le_of_lt hlt)]
  · rw [note_offset, Nat.max_self]
  · rw [note_of_gt hgt, Nat.max_eq_left (Nat.le_of_lt hgt)]

/-- Failures are noted one after the other. -/
theorem after_concat (failures : List (Nat × Expected)) (offset : Nat) (expected : Expected) :
    after (failures ++ [(offset, expected)]) = (after failures).note offset expected := by
  rw [after, List.foldl_append]
  rfl

/-- What is kept sums up some failures: none of them lies further on, one lies there unless there is
none at all, and what was looked for there in vain is listed in order. -/
structure Sums (failures : List (Nat × Expected)) (kept : Furthest) : Prop where
  le_offset : ∀ failure ∈ failures, failure.1 ≤ kept.offset
  reached : kept = start ∨ ∃ expected, (kept.offset, expected) ∈ failures
  ascending : Ascending.Strict Expected.compare kept.expected
  mem_expected : ∀ expected, expected ∈ kept.expected ↔ (kept.offset, expected) ∈ failures

/-- Before the first failure nothing is kept. -/
theorem sums_start : start.Sums [] where
  le_offset := List.forall_mem_nil _
  reached := .inl rfl
  ascending := .nil
  mem_expected _ := by simp [start]

/-- With one failure more, what is kept sums up one failure more. -/
theorem Sums.note (h : kept.Sums failures) (offset : Nat) (expected : Expected) :
    (kept.note offset expected).Sums (failures ++ [(offset, expected)]) := by
  rcases Nat.lt_trichotomy kept.offset offset with hlt | rfl | hgt
  · -- all failures so far lie in front of the new one
    have hfront : ∀ x, (offset, x) ∉ failures :=
      fun x hx => Nat.not_lt_of_ge (h.le_offset _ hx) hlt
    have hle : ∀ failure ∈ failures, failure.1 ≤ offset :=
      fun failure hf => Nat.le_trans (h.le_offset failure hf) (Nat.le_of_lt hlt)
    rw [note_of_lt hlt]
    exact ⟨by simpa [or_imp, forall_and] using hle, .inr ⟨expected, by simp⟩,
      List.pairwise_singleton _ _, by simp [hfront]⟩
  · rw [note_offset]
    exact ⟨by simpa [or_imp, forall_and] using h.le_offset, .inr ⟨expected, by simp⟩,
      Ascending.strict_insert expected h.ascending,
      by simp [Ascending.mem_insert, h.mem_expected, or_comm]⟩
  · -- a failure lies further on than the new one, so what was kept is not the start
    have hne : kept ≠ start := by
      rintro rfl
      exact Nat.not_lt_zero _ hgt
    obtain ⟨x, hx⟩ := h.reached.resolve_left hne
    rw [note_of_gt hgt]
    exact ⟨by simpa [or_imp, forall_and, Nat.le_of_lt hgt] using h.le_offset,
      .inr ⟨x, List.mem_append_left _ hx⟩, h.ascending, by simp [h.mem_expected, Nat.ne_of_gt hgt]⟩

/-- After any failures, what is kept sums them up. -/
theorem sums_after (failures : List (Nat × Expected)) : (after failures).Sums failures := by
  induction failures using List.reverseRecOn with
  | nil => exact sums_start
  | append_singleton failures failure ih =>
      rw [after_concat]
      exact ih.note failure.1 failure.2

/-- What is kept in the end is the greatest offset, by induction from the last failure. -/
theorem offset_after (failures : List (Nat × Expected)) :
    (after failures).offset = (failures.map Prod.fst).foldl max 0 := by
  have hstep : ∀ (kept : Furthest) (failure : Nat × Expected),
      max kept.offset failure.1 = (kept.note failure.1 failure.2).offset :=
        fun _ _ => offset_note.symm
  rw [List.foldl_map]
  exact (List.foldl_hom Furthest.offset hstep).symm

/-- What is kept after some events is what the error says that is made of them all. -/
theorem after_failures (events : List Event) : after (Event.failures events) =
    ⟨Event.furthest events, Event.expectedAt (Event.furthest events) events⟩ := by
  have hoffset : (after (Event.failures events)).offset = Event.furthest events := offset_after _
  have hsums := sums_after (Event.failures events)
  have hexpected : (after (Event.failures events)).expected =
      Event.expectedAt (Event.furthest events) events := by
    refine hsums.ascending.eq_of_mem_iff (Ascending.strict_ofList _) fun expected => ?_
    rw [hsums.mem_expected, hoffset, Event.mem_failures]
    exact Event.mem_expectedAt.symm
  rw [← hexpected, ← hoffset]

/-- What the events of a run are summed up to satisfies the same conditions as what is kept step by
step. -/
theorem sums_failures (events : List Event) :
    Sums (Event.failures events)
      ⟨Event.furthest events, Event.expectedAt (Event.furthest events) events⟩ := by
  rw [← after_failures]
  exact sums_after _

end Furthest

/-! ## Whole texts -/

/-- A text on which the rules fail is read to its end without a fault, and all events of the reading
are noted. -/
theorem Checked.document_of_fails {text : List Char}
    (h : (Notation.document (Notation.item maxNesting)).Fails ⟨text, 0⟩) :
    Checked.document (Checked.item (maxNesting + 1)) text ⟨[], 0, none⟩ 0 =
      .ok (none, ⟨(run maxNesting text).events, 0, none⟩) := by
  have hdocument : Tracks 0 0 true (Checked.document (Checked.item (maxNesting + 1)))
      (Notation.document (Notation.item maxNesting)) :=
    tracks_document (tracks_item maxNesting 0 (Nat.zero_add _))
  obtain ⟨result, notes, hrun, hf⟩ :=
    hdocument (Cursor.In.start text) (Nat.le_refl 0) ⟨[], 0, none⟩ rfl
  obtain ⟨rfl, rfl⟩ := hf.failed (.inl rfl) h
  exact hrun

/-- A text that is not read for another reason than its nesting is blamed at its furthest failure.
What is noted when it has been read to its end is every failure of any rule, also of the rules that
were given up and in layout that was skipped. The position of the error is the greatest offset of a
failure, all that was looked for there in vain is listed in order, nothing else is, and keeping the
furthest failure on the way ends with the same. -/
theorem furthest_of_parse_error {text : String} {e : SyntaxError} (h : parse text = .error e)
    (hcause : e.cause ≠ .nestedTooDeeply) :
    ∃ notes : Checked.Notes,
      Checked.document (Checked.item (maxNesting + 1)) text.toList ⟨[], 0, none⟩ 0 =
        .ok (none, notes) ∧
      notes.events = (run maxNesting text.toList).events ∧
      (∃ expected, (e.position, expected) ∈ Event.failures notes.events) ∧
      (∀ failure ∈ Event.failures notes.events, failure.1 ≤ e.position) ∧
      Ascending.Strict Expected.compare e.expected ∧
      (∀ expected, expected ∈ e.expected ↔ (e.position, expected) ∈ Event.failures notes.events) ∧
      Furthest.after (Event.failures notes.events) = ⟨e.position, e.expected⟩ := by
  obtain ⟨hfails, rfl⟩ := fails_of_parse_error h hcause
  obtain ⟨_, _, hfailed⟩ := blames_document (blames_item maxNesting) _ hfails
  obtain ⟨expected, hfurthest⟩ := Event.exists_failed_furthest hfailed
  -- the position and the list of the error are by definition those of the furthest failure
  have hsums := Furthest.sums_failures (run maxNesting text.toList).events
  exact ⟨_, Checked.document_of_fails hfails, rfl, ⟨expected, Event.mem_failures.2 hfurthest⟩,
    hsums.le_offset, hsums.ascending, hsums.mem_expected, Furthest.after_failures _⟩

/-- Where a comment does not end, the failure lies in layout, which may be missing, and so all rules
around it go on. What they miss lies in front of the comment. -/
theorem furthest_of_parse_error_comment : ∃ e notes, parse "A ::= B /* x" = .error e ∧
    e.cause = .prematureEnd ∧ e.position = 12 ∧ e.expected = [.literal "*/"] ∧
    Checked.document (Checked.item (maxNesting + 1)) "A ::= B /* x".toList ⟨[], 0, none⟩ 0 =
      .ok (none, notes) ∧
    (12, .literal "*/") ∈ Event.failures notes.events ∧
    (∀ failure ∈ Event.failures notes.events, failure.1 ≤ 12) ∧
    Furthest.after (Event.failures notes.events) = ⟨12, [.literal "*/"]⟩ := by
  have hreport : ((parse "A ::= B /* x").map fun _ => ()) =
      .error ⟨.prematureEnd, .point 12, [.literal "*/"]⟩ := by decide +kernel
  cases h : parse "A ::= B /* x" with
  | ok v =>
      rw [h] at hreport
      cases hreport
  | error e =>
      rw [h] at hreport
      obtain rfl : e = ⟨.prematureEnd, .point 12, [.literal "*/"]⟩ := Except.error.inj hreport
      obtain ⟨notes, hrun, -, -, hfront, -, hexpected, hafter⟩ := furthest_of_parse_error h nofun
      exact ⟨_, notes, rfl, rfl, rfl, rfl, hrun, (hexpected _).1 List.mem_cons_self, hfront, hafter⟩

end Railroad.Notation
