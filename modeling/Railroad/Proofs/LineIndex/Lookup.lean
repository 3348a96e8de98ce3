import Railroad.Proofs.LineIndex.Feeding
import Railroad.Proofs.SourceText
import Railroad.Proofs.Text.Boundary
set_option autoImplicit false

/-!
# Looking up places and lines

A table of a text finds the line and the column of an offset, whichever text it is handed to count
the characters in, and answers as the line index does (`lineColumn?_ofText`). The handed text may be
another one of the same length. Then a line may begin within one of its characters, but behind a
slice that was found the text can always be cut (`columnOf_of_slice?`). In the text that was fed,
the offsets with an answer are those of its places (`LineIndex.lineColumn?_ofText_eq_some_iff`).

The lines that a span touches are found from its first byte and its last one (`Span.firstByte`,
`Span.lastByte`), also when the span goes beyond the text (`lineBounds_ofText`).
-/

namespace Railroad

open Text

namespace LineIndex

variable {text src : List Char} {b line column : Nat}

/-- A line and a column are those of a place in the text, which is between two of its characters. -/
theorem lineColumn?_ofText_eq_some_iff : (ofText text).lineColumn? text b = some (line, column) ↔
    ∃ place : Place, place.before ++ place.after = text ∧ place.offset = b ∧ line = place.line ∧
      column = place.column := by
  constructor
  · intro h
    obtain ⟨_, -, hnumbered⟩ := Option.bind_eq_some_iff.1 h
    obtain ⟨_, -, hbegun⟩ := Option.bind_eq_some_iff.1 hnumbered
    obtain ⟨_, -, hcut⟩ := Option.bind_eq_some_iff.1 hbegun
    obtain ⟨front, hslice, -⟩ := Option.bind_eq_some_iff.1 hcut
    -- the slice in front of the offset is what stands in front of the place in its line
    obtain ⟨earlier, after, rfl, -, rfl⟩ := slice?_eq_some_iff.1 hslice
    rw [lineColumn?_ofText, Option.some.injEq, Prod.mk.injEq] at h
    exact ⟨⟨earlier ++ front, after⟩, rfl, rfl, h.1.symm, h.2.symm⟩
  · rintro ⟨place, rfl, rfl, rfl, rfl⟩
    exact lineColumn?_ofText place.before place.after

end LineIndex

namespace LineTable

variable {text src front : List Char} {b start : Nat} {span : Span}

/-! ## Line and column -/

/-- A table knows where a line begins just if the index does. -/
theorem lineStart?_ofText (text : List Char) (n : Nat) :
    (ofText text).lineStart? n = .ok ((LineIndex.ofText text).lineStart? n) := by
  rw [lineStart?, LineIndex.lineStart?]
  by_cases hzero : n = 0
  · rw [if_pos (.inl hzero), if_pos hzero]
    rfl
  · rw [if_neg hzero]
    -- lines are counted from 1, and entries from 0
    by_cases hmore : (ofText text).starts.length < n
    · have hnone : (LineIndex.ofText text).starts[n - 1]? = none :=
        List.getElem?_eq_none (Nat.le_sub_one_of_lt hmore)
      rw [if_pos (.inr hmore), hnone]
      rfl
    · obtain ⟨entry, hentry⟩ : ∃ entry, (ofText text).starts[n - 1]? = some entry :=
        ⟨_, List.getElem?_eq_getElem (by omega)⟩
      rw [if_neg (by simp [hzero, hmore]), minus_of_le (by omega), ok_bind,
        entryAt_of_getElem? hentry, ok_bind]
      exact congrArg Except.ok hentry.symm

/-- Behind a slice of a text, the text can be cut. -/
theorem columnOf_of_slice? (h : slice? start b src = some front) :
    ∃ after, dropBytes? b src = some after ∧
      columnOf src b front =
        .ok (if LineIndex.splitsLineBreak front after then front.length
          else front.length + 1) := by
  obtain ⟨earlier, after, rfl, -, rfl⟩ := slice?_eq_some_iff.1 h
  have hrest := dropBytes?_byteLength_append (earlier ++ front) after
  refine ⟨after, hrest, ?_⟩
  rw [columnOf]
  -- the column is one less only between a carriage return and its line feed
  by_cases hreturn : front.getLast? = some '\r'
  · rw [if_pos hreturn, restAt, hrest, ok_bind]
    by_cases hbreak : after.head? = some '\n'
    · rw [if_pos hbreak, minus_of_le (Nat.le_add_left 1 _),
        if_pos (by simp [LineIndex.splitsLineBreak, *])]
      rfl
    · rw [if_neg hbreak, if_neg (by simp [LineIndex.splitsLineBreak, *])]
      rfl
  · rw [if_neg hreturn, if_neg (by simp [LineIndex.splitsLineBreak, *])]
    rfl

/-- A table and the index give the same line and column, also in a text that was not fed. -/
theorem lineColumn?_ofText (text src : List Char) (b : Nat) :
    (ofText text).lineColumn? src b = .ok ((LineIndex.ofText text).lineColumn? src b) := by
  rw [lineColumn?, length_ofText, ok_bind]
  simp only [lineNumber?_ofText, lineStart?_ofText, ok_bind]
  rw [LineIndex.lineColumn?, LineIndex.length_ofText]
  by_cases hlength : byteLength src = byteLength text
  · by_cases hb : b ≤ byteLength text
    · rw [if_neg (by omega), guard, if_pos hlength]
      -- each step of the index that has no answer ends the lookup in the table
      cases hline : (LineIndex.ofText text).lineNumber? b with
      | none => rfl
      | some line =>
          simp only [Option.bind_eq_bind, Option.bind_some]
          cases hstart : (LineIndex.ofText text).lineStart? line with
          | none => rfl
          | some start =>
              simp only [Option.bind_some]
              cases hslice : slice? start b src with
              | none => rfl
              | some front =>
                  obtain ⟨after, hafter, hcolumn⟩ := columnOf_of_slice? hslice
                  simp only [hcolumn, hafter, ok_bind, Option.bind_some]
                  rfl
    · rw [if_pos (.inl (Nat.lt_of_not_le hb)), LineIndex.lineNumber?_eq, if_neg hb, guard,
        if_pos hlength]
      rfl
  · rw [if_pos (.inr hlength), guard, if_neg hlength]
    rfl

/-! ## Lines of a span -/

theorem startOfLine_ofText (hb : b ≤ byteLength text) :
    (ofText text).startOfLine b = .ok ((LineIndex.ofText text).startOfLine b) := by
  obtain ⟨earlier, later, hsplit⟩ := exists_splitAt text b
  have hsome := List.length_pos_iff.2 hsplit.ne_nil
  have hentry : (ofText text).starts[earlier.length - 1]? =
      some ((LineIndex.ofText text).startOfLine b) := by
    have hstarts : (ofText text).starts = earlier ++ later := hsplit.eq
    rw [hsplit.startOfLine_eq, List.getLast?_eq_getElem?, hstarts,
      List.getElem?_append_left (by omega)]
  rw [startOfLine, lineNumber?_ofText, ok_bind, hsplit.lineNumber?_eq hb, Option.getD_some,
    minus_of_le hsome, ok_bind]
  exact entryAt_of_getElem? hentry

theorem endOfLine_ofText (hb : b ≤ byteLength text) :
    (ofText text).endOfLine b = .ok ((LineIndex.ofText text).endOfLine b) := by
  obtain ⟨earlier, later, hsplit⟩ := exists_splitAt text b
  have hstarts : (ofText text).starts = earlier ++ later := hsplit.eq
  rw [endOfLine, lineNumber?_ofText, ok_bind, hsplit.lineNumber?_eq hb, Option.getD_some,
    LineIndex.endOfLine, hsplit.find?_eq, hstarts, List.length_append]
  cases later with
  | nil =>
      rw [if_neg (by simp), length_ofText, ← LineIndex.length_ofText]
      rfl
  | cons next later =>
      have hnext : entryAt (earlier ++ next :: later) earlier.length = .ok next :=
        entryAt_of_getElem? (by simp)
      have hpos := hsplit.lt next List.mem_cons_self
      rw [if_pos (by simp), hnext, ok_bind]
      exact minus_of_le (by omega)

theorem lastOffset_of_le (h : span.start ≤ span.stop) (length : Nat) :
    lastOffset span length = .ok (span.lastByte length) := by
  rw [lastOffset, minus_of_le h, ok_bind, Span.lastByte]
  by_cases hempty : span.stop - span.start = 0
  · rw [if_pos hempty, if_pos (by simpa [Span.isEmpty, Span.length] using hempty)]
    rfl
  · have hsome : 1 ≤ span.stop := by omega
    rw [if_neg hempty, minus_of_le hsome,
      if_neg (by simpa [Span.isEmpty, Span.length] using hempty)]
    rfl

/-- The lines of a span are the same in a table and in the index. -/
theorem lineBounds_ofText (text : List Char) (h : span.start ≤ span.stop) :
    (ofText text).lineBounds span = .ok ((LineIndex.ofText text).lineBounds span) := by
  rw [lineBounds, length_ofText, ok_bind, lastOffset_of_le h, ok_bind,
    startOfLine_ofText (Nat.min_le_right _ _),
    ok_bind, endOfLine_ofText (span.lastByte_le _), ok_bind, LineIndex.lineBounds_ofText]
  rfl

/-- A line and a column are found for each offset of the fed text that is on a character boundary,
and for no other one. They are those of the place there. Asked about another text, a table has no
answer if the text is longer or shorter than the one that was fed, and whatever the text is, nothing
goes wrong. -/
theorem lineColumn?_of_feedEach (pieces : List (List Char)) (b : Nat) :
    ∃ table, empty.feedEach pieces = .ok table ∧
      (∀ text, ∃ answer, table.lineColumn? text b = .ok answer ∧
        (byteLength text ≠ byteLength pieces.flatten → answer = none) ∧
        (pieces.foldl LineIndex.feed .empty).lineColumn? text b = answer) ∧
      ((∃ found, table.lineColumn? pieces.flatten b = .ok (some found)) ↔
        b ≤ byteLength pieces.flatten ∧ IsBoundary b pieces.flatten) ∧
      ∀ line column, table.lineColumn? pieces.flatten b = .ok (some (line, column)) →
        ∃ place : Place, place.before ++ place.after = pieces.flatten ∧ place.offset = b ∧
          line = place.line ∧ column = place.column ∧ 1 ≤ column := by
  refine ⟨ofText pieces.flatten, feedEach_empty pieces,
    fun text => ⟨_, lineColumn?_ofText _ text b, ?_, ?_⟩, ?_, ?_⟩
  · intro hlength
    rw [LineIndex.lineColumn?, LineIndex.length_ofText, guard, if_neg hlength]
    rfl
  · rw [foldl_feed_empty]
  · rw [lineColumn?_ofText]
    constructor
    · rintro ⟨⟨line, column⟩, h⟩
      obtain ⟨place, hplace, rfl, -, -⟩ :=
        LineIndex.lineColumn?_ofText_eq_some_iff.1 (Except.ok.inj h)
      refine ⟨?_, place.before, place.after, hplace.symm, rfl⟩
      rw [← hplace, byteLength_append]
      exact Nat.le_add_right _ _
    · rintro ⟨-, before, after, hsplit, hb⟩
      exact ⟨_, congrArg Except.ok
        (LineIndex.lineColumn?_ofText_eq_some_iff.2 ⟨⟨before, after⟩, hsplit.symm, hb.symm, rfl,
          rfl⟩)⟩
  · intro line column h
    rw [lineColumn?_ofText] at h
    obtain ⟨place, hplace, hoffset, hline, rfl⟩ :=
      LineIndex.lineColumn?_ofText_eq_some_iff.1 (Except.ok.inj h)
    exact ⟨place, hplace, hoffset, hline, rfl, place.column_pos⟩

/-- The lines that a span touches begin behind the last line break in front of its first byte, and
they end in front of the first line break that is not in front of its last byte. Neither end has to
be on a character boundary or in the text. -/
theorem lineBounds_of_feedEach (pieces : List (List Char)) (span : Span)
    (h : span.start ≤ span.stop) :
    ∃ table start stop, empty.feedEach pieces = .ok table ∧
      table.lineBounds span = .ok (start, stop) ∧
      start ≤ stop ∧ stop ≤ byteLength pieces.flatten ∧
      IsGreatest {n | n = 0 ∨ ∃ m < span.firstByte (byteLength pieces.flatten),
        BreakAt m pieces.flatten ∧ n = m + 1} start ∧
      IsLeast {n | n = byteLength pieces.flatten ∨ span.lastByte (byteLength pieces.flatten) ≤ n ∧
        BreakAt n pieces.flatten} stop ∧
      (pieces.foldl LineIndex.feed .empty).lineBounds span = (start, stop) := by
  obtain ⟨_, _, hfirst⟩ := exists_splitAt pieces.flatten
      (span.firstByte (byteLength pieces.flatten))
  obtain ⟨_, _, hlast⟩ := exists_splitAt pieces.flatten (span.lastByte (byteLength pieces.flatten))
  have hstart := hfirst.isGreatest_startOfLine
  have hstop := hlast.isLeast_endOfLine
  have hordered : (LineIndex.ofText pieces.flatten).startOfLine
      (span.firstByte (byteLength pieces.flatten)) ≤
      (LineIndex.ofText pieces.flatten).endOfLine (span.lastByte (byteLength pieces.flatten)) :=
    calc
      _ ≤ span.firstByte (byteLength pieces.flatten) := hfirst.startOfLine_le
      _ ≤ span.lastByte (byteLength pieces.flatten) := Span.firstByte_le_lastByte h _
      _ ≤ _ := hlast.le_endOfLine (span.lastByte_le _)
  refine ⟨ofText pieces.flatten, _, _, feedEach_empty pieces, ?_, hordered, hstop.2 (.inl rfl),
    hstart, hstop, ?_⟩
  · rw [lineBounds_ofText _ h, LineIndex.lineBounds_ofText]
  · rw [foldl_feed_empty, LineIndex.lineBounds_ofText]

/-- A span may end within a character, and it touches the line that its first byte ends. -/
theorem lineBounds_of_feedEach_cut :
    ∃ table, empty.feedEach ["a\r".toList, "\n♠b\n".toList] = .ok table ∧
    table.lineBounds ⟨2, 5⟩ = .ok (0, 7) ∧ BreakAt 7 "a\r\n♠b\n".toList := by
  have hrange : (⟨2, 5⟩ : Span).start ≤ (⟨2, 5⟩ : Span).stop := by decide
  obtain ⟨table, start, stop, hfed, hbounds, -, -, -, hstop, hindex⟩ :=
    lineBounds_of_feedEach ["a\r".toList, "\n♠b\n".toList] ⟨2, 5⟩ hrange
  have hevaluated : (["a\r".toList, "\n♠b\n".toList].foldl LineIndex.feed .empty).lineBounds
      ⟨2, 5⟩ = (0, 7) := by
    decide
  obtain ⟨rfl, rfl⟩ := Prod.mk.inj (hindex.symm.trans hevaluated)
  exact ⟨table, hfed, hbounds, by decide⟩

end LineTable

end Railroad
