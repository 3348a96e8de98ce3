import Railroad.Proofs.Diagram.Drawable
import Railroad.Proofs.Notation.ErrorPlace
import Railroad.Proofs.SourceText
set_option autoImplicit false

/-!
# Errors can be shown

A text without a grammar is not read, because every tree that is read can be drawn. The error marks
a place of the text, so it can be reported on as all such places are
(`Grammar.report?_of_read_error`).
-/

namespace Railroad.Grammar

/-- An error marks a place of the text. -/
theorem exists_place_of_read_error {text : String} {e : GrammarError} (h : read text = .error e) :
    ∃ place : Place, place.before ++ place.after = text.toList ∧ place.MarkedBy e.span := by
  obtain ⟨error, hparse, rfl⟩ := parse_eq_error_of_read h
  obtain ⟨before, after, htext, hspan⟩ := Notation.exists_place_of_parse_error hparse
  exact ⟨⟨before, after⟩, htext.symm, hspan⟩

/-- Every error is reported with the line and the column at which it begins, and with that line,
which is a single one, quoted above a mark and the message. -/
theorem report?_of_read_error {text : String} {e : GrammarError} (h : read text = .error e)
    (path : String) :
    ∃ place : Place, place.before ++ place.after = text.toList ∧ e.span.start = place.offset ∧
      0 < place.line ∧ 0 < place.column ∧ '\n' ∉ place.quoted ∧
      SourceText.report? ⟨path, text⟩ e.span e.message = some (place.report path e.message) := by
  obtain ⟨place, htext, hmarked⟩ := exists_place_of_read_error h
  have hsource : (SourceText.mk path text).chars = place.before ++ place.after := htext.symm
  exact ⟨place, htext, hmarked.start_eq, Nat.succ_pos _, place.column_pos, place.notMem_quoted,
    place.report?_of_markedBy hsource hmarked e.message⟩

/-- An error is reported in the second line of a text, behind a character that is two columns
wide. -/
theorem report?_of_read_error_wide : ∃ (e : GrammarError) (place : Place),
    read "A ::= B\r\nC ::= '字' ?" = .error e ∧
    place.before = "A ::= B\r\nC ::= '字' ".toList ∧ place.after = ['?'] ∧
    (place.line, place.column, place.indent) = (2, 11, 14) ∧ place.quoted = "C ::= '字' ?".toList ∧
    SourceText.report? ⟨"g", "A ::= B\r\nC ::= '字' ?"⟩ e.span e.message =
      some (place.report "g" e.message) := by
  have hstart : (((read "A ::= B\r\nC ::= '字' ?").map fun _ => ()).mapError fun e => e.span.start) =
      .error 21 := by decide +kernel
  cases hread : read "A ::= B\r\nC ::= '字' ?" with
  | ok grammar =>
      rw [hread] at hstart
      cases hstart
  | error e =>
      rw [hread] at hstart
      obtain ⟨⟨before, after⟩, htext, hoffset, -, -, -, hreport⟩ := report?_of_read_error hread "g"
      have hlength : Text.byteLength before = 21 := hoffset.symm.trans (Except.error.inj hstart)
      obtain rfl : before = "A ::= B\r\nC ::= '字' ".toList :=
        Text.eq_of_byteLength_eq ⟨after, htext⟩ ⟨['?'], by decide⟩ (hlength.trans (by decide))
      obtain rfl : after = ['?'] := List.append_cancel_left htext
      exact ⟨e, _, rfl, rfl, rfl, by decide +kernel, by decide +kernel, hreport⟩

end Railroad.Grammar
