import Railroad.Proofs.Notation.ErrorReport
import Railroad.Proofs.Notation.TakenText
set_option autoImplicit false

/-!
# No reading has a fault

The rules from items to documents are read at byte offsets without faults because all rules that
they are made of are. A choice may stand in a group one level deeper, and the levels end no sooner
than the groups that may be open, so that a level that does not exist is never asked for
(`tracks_item`). Where a group is refused, nothing is read in the end, since the text would have to
belong to the language (`not_read_of_parse_eq_error`), and a text that is not read is blamed between
two of its characters. So every text is read to an end, and what is said of it is its tree or its
error (`parse_toList`).
-/

namespace Railroad.Notation.Checked

variable {n lo : Nat}

/-! ## From groups to documents -/

section Rules

variable {group : Reader Choice} {groupRule : Rule Choice} {primary : Reader Primary}
  {primaryRule : Rule Primary} {item : Reader Item} {itemRule : Rule Item} {choice : Reader Choice}
  {choiceRule : Rule Choice}

/-- The five kinds of what an item consists of are attempted in the same order, and a group is
tracked by assumption. -/
theorem tracks_primary (h : Tracks n 0 true group groupRule) :
    Tracks n lo true (Checked.primary group) (Notation.primary groupRule) := by
  refine .part (.orElse ?_ (.orElse ?_ (.orElse ?_ (.orElse ?_ ?_)))) (.inl rfl)
  · exact tracks_name.map _
  · exact tracks_stringLiteral.map _
  · exact tracks_charCode.map _
  · exact tracks_charClass.map _
  · exact h.anywhere.map _

/-- The mark of an item is a single byte behind what it repeats. -/
theorem tracks_itemOf (h : Tracks n 0 true primary primaryRule) :
    Tracks n lo true (Checked.itemOf primary) (Notation.itemOf primaryRule) := by
  refine .part (.here_bind fun start => ?_) (.inl rfl)
  refine .bind_strict h.anywhere fun body => ?_
  refine .bind (.perhaps (.charFor fun _ _ => utf8Size_of_ofMark?)) fun mark => ?_
  exact .spanFrom_bind (Nat.le_refl _) fun _ => .pure _

/-- A difference goes on where its left side ends, with a span that begins at its start. -/
theorem tracks_differenceFrom (h : Tracks n 0 true item itemRule) {start : Nat}
    (hstart : start ≤ lo) (left : Item) :
    Tracks n lo false (Checked.differenceFrom item start left)
      (Notation.differenceFrom itemRule start left) := by
  refine .bind (tracks_skip false) fun _ => ?_
  refine .bind (.literal (by decide)) fun _ => ?_
  refine .bind (tracks_skip false) fun _ => ?_
  refine .bind h.anywhere fun right => ?_
  exact .spanFrom_bind hstart fun _ => .pure _

theorem tracks_sequenceFrom (h : Tracks n 0 true item itemRule) {start : Nat} (hstart : start ≤ lo)
    (first : Item) :
    Tracks n lo false (Checked.sequenceFrom item start first)
      (Notation.sequenceFrom itemRule start first) := by
  have hspaced : Tracks n lo true
      (do
        Checked.space
        item)
      (do
        Notation.space
        itemRule) := .bind_strict tracks_space fun _ => h.anywhere.lax
  refine .bind (.many hspaced) fun more => ?_
  exact .spanFrom_bind hstart fun _ => .pure _

/-- A branch is a difference if a dash follows its first item, and a sequence if not. -/
theorem tracks_branch (h : Tracks n 0 true item itemRule) :
    Tracks n lo true (Checked.branch item) (Notation.branch itemRule) := by
  refine .part (.here_bind fun start => ?_) (.inl rfl)
  refine .bind_strict h.anywhere fun first => ?_
  exact .orElse (tracks_differenceFrom h (Nat.le_refl _) first)
    (tracks_sequenceFrom h (Nat.le_refl _) first)

/-- Branches are tracked one by one, each with the bar in front of it. -/
theorem tracks_choice (h : Tracks n 0 true item itemRule) :
    Tracks n lo true (Checked.choice item) (Notation.choice itemRule) := by
  refine .part (.here_bind fun start => ?_) (.inl rfl)
  refine .bind_strict (tracks_branch h) fun first => ?_
  -- each round of the repetition begins with layout that may be empty, and takes the bar
  have hbarred : Tracks n start true
      (do
        Checked.skip false
        Checked.literal "|"
        Checked.skip false
        Checked.branch item)
      (do
        Notation.skip false
        Rule.literal "|"
        Notation.skip false
        Notation.branch itemRule) :=
    .bind (tracks_skip false) fun _ => .bind (.literal (by decide)) fun _ =>
      .bind (tracks_skip false) fun _ => tracks_branch h
  refine .bind (.many hbarred) fun more => ?_
  exact .spanFrom_bind (Nat.le_refl _) fun _ => .pure _

/-- Where fewer groups are open than may be, the choice in a group is read with one group more
open. -/
theorem tracks_group (hn : n < maxNesting) (h : Tracks (n + 1) 0 true choice choiceRule) :
    Tracks n lo true (Checked.group choice) (Notation.group choiceRule) := by
  refine .here_bind fun start => ?_
  refine .bind_strict (.literal (by decide)) fun _ => .lax (.enter hn (.part ?_ (.inl rfl)))
  refine .bind (tracks_skip false) fun _ => ?_
  refine .bind_strict h.anywhere fun within => ?_
  refine .bind (tracks_skip false) fun _ => ?_
  exact .bind (.literal (by decide)) fun _ => .pure within

/-- Where as many groups are open as may be, what a group would be read with does not matter. -/
theorem tracks_refusedGroup : Tracks maxNesting lo true (Checked.group choice) refusedGroup := by
  refine .here_bind fun start => ?_
  exact .bind_strict (.literal (by decide)) fun _ => .refuse rfl

end Rules

/-- Where `n` groups are open, the levels of an item last as long as groups may be entered. -/
theorem tracks_item (depth n : Nat) (hn : n + depth = maxNesting) :
    Tracks n 0 true (Checked.item (depth + 1)) (Notation.item depth) := by
  -- each group that is entered is one more that is open, and leaves one level less
  induction depth generalizing n with
  | zero =>
      obtain rfl : n = maxNesting := hn
      exact tracks_itemOf (tracks_primary tracks_refusedGroup)
  | succ depth ih =>
      have hinner : Tracks (n + 1) 0 true (Checked.item (depth + 1)) (Notation.item depth) :=
        ih (n + 1) (by omega)
      exact tracks_itemOf (tracks_primary (tracks_group (by omega) (tracks_choice hinner)))

section Documents

variable {item : Reader Item} {itemRule : Rule Item}

/-- Whether a line is over is only looked at, and nothing is taken. -/
theorem tracks_lineIsOver : Tracks n lo false Checked.lineIsOver Notation.lineIsOver := by
  refine .lookahead (s := false) ?_
  refine .bind (tracks_skip false) fun _ => .orElse .atEnd ?_
  exact .bind (.charWhere _) fun _ => .pure ()

/-- A link is a definition only where the line is over behind it. Otherwise the text is read again
from the start of the link. -/
theorem tracks_definition (h : Tracks n 0 true item itemRule) :
    Tracks n lo true (Checked.definition item) (Notation.definition itemRule) := by
  refine .part (.orElse ?_ ?_) (.inl rfl)
  · exact .bind_strict tracks_link fun _ => .bind tracks_lineIsOver fun _ => .pure _
  · exact (tracks_choice h).map _

/-- A production begins with its name, so that it takes something. -/
theorem tracks_production (h : Tracks n 0 true item itemRule) :
    Tracks n lo true (Checked.production item) (Notation.production itemRule) := by
  refine .part (.bind (tracks_skip false) fun _ => .here_bind fun start => ?_) (.inl rfl)
  refine .bind_strict tracks_name fun defined => ?_
  refine .bind (tracks_skip false) fun _ => ?_
  refine .bind (.literal (by decide)) fun _ => ?_
  refine .bind (tracks_skip false) fun _ => ?_
  refine .bind (tracks_definition h) fun meaning => ?_
  exact .spanFrom_bind (Nat.le_refl _) fun _ => .pure _

/-- Productions are tracked one by one, each with the line break in front of it, up to the end of
the text. -/
theorem tracks_document (h : Tracks n 0 true item itemRule) :
    Tracks n lo true (Checked.document item) (Notation.document itemRule) := by
  refine .part (.bind (tracks_skip true) fun _ => ?_) (.inl rfl)
  refine .bind_strict (tracks_production h) fun first => ?_
  -- the line break makes each round of the repetition take something
  have hseparated : Tracks n lo true
      (do
        Checked.separator
        Checked.production item)
      (do
        Notation.separator
        Notation.production itemRule) :=
    .bind_strict tracks_separator fun _ => (tracks_production h).lax
  refine .bind (.many hseparated) fun more => ?_
  refine .bind (tracks_skip true) fun _ => ?_
  exact .bind tracks_endOfText fun _ => .pure _

end Documents

/-! ## Whole texts -/

/-- A furthest failure between two characters is reported without a fault. -/
theorem errorOf_of_furthest {src before : List Char} {notes : Notes} (hnone : notes.refused = none)
    (hbefore : before <+: src) (h : Event.furthest notes.events = Text.byteLength before) :
    errorOf src notes = .ok (.ofEvents src notes.events) := by
  obtain ⟨after, rfl⟩ := hbefore
  -- the furthest failure lies behind a beginning of the text, so that it is a character boundary
  have hrest : restAt (before ++ after) (Event.furthest notes.events) = .ok after := by
    rw [restAt, h, Text.dropBytes?_byteLength_append]
  have hfound : Text.charAt? (Event.furthest notes.events) (before ++ after) = after.head? := by
    rw [h, Text.charAt?_byteLength_append]
  have hspan : spanBetween (Event.furthest notes.events) (Event.furthest notes.events) =
      .ok (.point (Event.furthest notes.events)) := by
    rw [spanBetween, Span.ofBounds, if_neg (Nat.lt_irrefl _)]
    rfl
  unfold errorOf SyntaxError.ofEvents
  simp only [hnone, hrest, hfound, hspan, Bind.bind, Except.bind]
  -- whether a character is left decides what the error says was found
  cases after <;> rfl

/-- A refused group is reported at its parenthesis without a fault. -/
theorem errorOf_of_refused {src : List Char} {notes : Notes} {offset : Nat}
    (h : notes.refused = some offset) : errorOf src notes = .ok (.tooDeep offset) := by
  have hspan : spanBetween offset (offset + 1) = .ok ⟨offset, offset + 1⟩ := by
    rw [spanBetween, Span.ofBounds, if_neg (by omega)]
  unfold errorOf
  simp only [h, hspan]
  rfl

/-- Without a tree there is an error. -/
theorem parse_of_not_read {src : List Char} {notes : Notes} {error : SyntaxError}
    (hrun : Checked.document (Checked.item (maxNesting + 1)) src ⟨[], 0, none⟩ 0 =
      .ok (none, notes))
    (herror : errorOf src notes = .ok error) : Checked.parse src = .ok (.error error) := by
  have hparse : Checked.parse src = (do
      let error ← errorOf src notes
      return .error error) := by
    rw [Checked.parse, hrun]
    rfl
  rw [hparse, herror]
  rfl

/-- A text in which a group is refused is not read, although the rules around the group go on. -/
theorem not_read_of_parse_eq_error {text : String} {error : SyntaxError}
    {result : Option (Document × Nat)} {notes : Notes} (herror : Notation.parse text = .error error)
    (hrun : Checked.document (Checked.item (maxNesting + 1)) text.toList ⟨[], 0, none⟩ 0 =
      .ok (result, notes)) : result = none := by
  cases result with
  | none => rfl
  | some found =>
      -- what is read belongs to the language, and so it would have been read without a refusal
      obtain ⟨tree, hspelled⟩ := Document.exists_spelled_iff.2 (mem_document_of_matched hrun)
      rw [parse_eq_ok_iff.2 hspelled] at herror
      cases herror

/-- Every text is read to an end without a fault: no rule is applied, no text is cut and nothing is
blamed elsewhere than between two characters, no span ends before it starts, all rules take
something that have to, and all loops end. What is said of the text is its tree or its error. -/
theorem parse_toList (text : String) : Checked.parse text.toList = .ok (Notation.parse text) := by
  have hdocument : Tracks 0 0 true (Checked.document (Checked.item (maxNesting + 1)))
      (Notation.document (Notation.item maxNesting)) :=
    tracks_document (tracks_item maxNesting 0 (Nat.zero_add _))
  obtain ⟨result, notes, hrun, hf⟩ :=
    hdocument (Cursor.In.start text.toList) (Nat.le_refl 0) ⟨[], 0, none⟩ rfl
  rcases Rule.attempt_cases (Notation.document (Notation.item maxNesting)) ⟨text.toList, 0⟩ with
    ⟨tree, d, hm⟩ | hfails | ⟨offset, hdeep⟩
  · have houtcome : (run maxNesting text.toList).outcome = .matched tree d := hm
    obtain ⟨-, rfl, -⟩ := hf.matched (.inl rfl) tree d hm
    rw [Notation.parse, conclude, houtcome, Checked.parse, hrun]
    rfl
  · have houtcome : (run maxNesting text.toList).outcome = .mismatch := hfails
    obtain ⟨rfl, rfl⟩ := hf.failed (.inl rfl) hfails
    -- something was missed, and the furthest place where it was lies in the text
    obtain ⟨_, _, hfailed⟩ := blames_document (blames_item maxNesting) _ hfails
    obtain ⟨expected, hfurthest⟩ := Event.exists_failed_furthest hfailed
    obtain ⟨earlier, later, hevents⟩ := List.append_of_mem hfurthest
    obtain ⟨before, hbefore, hlength, -⟩ := leadsOn_of_failed hevents
    rw [Notation.parse, conclude, houtcome]
    exact parse_of_not_read hrun (errorOf_of_furthest rfl hbefore hlength)
  · have houtcome : (run maxNesting text.toList).outcome = .tooDeep offset := hdeep
    have hparse : Notation.parse text = .error (.tooDeep offset) := by
      rw [Notation.parse, conclude, houtcome]
    obtain rfl := not_read_of_parse_eq_error hparse hrun
    rw [hparse]
    exact parse_of_not_read hrun (errorOf_of_refused (hf.tooDeep rfl offset hdeep))

end Railroad.Notation.Checked
