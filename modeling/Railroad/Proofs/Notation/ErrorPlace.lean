import Railroad.Proofs.Notation.ErrorReport
import Railroad.Proofs.Notation.Nesting
set_option autoImplicit false

/-!
# Errors lie between characters

Whatever the reason for which a text is not read, the error is about a place between two characters
of the text or at one of its ends: the place itself, or the parenthesis that begins there
(`exists_place_of_parse_error`).
-/

namespace Railroad.Notation

/-- A group is refused where its parenthesis stands. -/
theorem exists_place_of_tooDeep {text : List Char} {offset : Nat}
    (h : (run maxNesting text).outcome = .tooDeep offset) :
    ∃ before rest, text = before ++ '(' :: rest ∧ offset = Text.byteLength before := by
  obtain ⟨horderly, hcut⟩ := (congruence_cut (Nat.zero_le maxNesting)).document
    (cut_item maxNesting maxNesting 0 (Nat.zero_add _)) ⟨text, 0⟩
  rcases hcut with ⟨-, hsame⟩ | ⟨earlier, refused, later, hevents, -, -, hrefused⟩
  · -- nothing is refused without the limit
    rw [run, hsame] at h
    exact absurd h (horderly.ne_tooDeep offset)
  · rw [run, hrefused] at h
    obtain rfl := Outcome.tooDeep.inj h
    obtain ⟨before, rest, htext, hoffset⟩ := horderly.shows refused (by rw [hevents]; simp)
    exact ⟨before, rest, htext, hoffset.trans (Nat.zero_add _)⟩

/-- A text that is not read is blamed between two characters or at one of its ends, or at a
parenthesis. -/
theorem exists_place_of_parse_error {text : String} {e : SyntaxError} (h : parse text = .error e) :
    ∃ before after, text.toList = before ++ after ∧
      (e.span = .point (Text.byteLength before) ∨
        e.span = ⟨Text.byteLength before, Text.byteLength before + 1⟩ ∧
          ∃ rest, after = '(' :: rest) := by
  unfold parse conclude at h
  split at h
  · cases h
  next hfails =>
    -- the furthest failure is one of the failures, and what lies in front of any failure is known
    obtain rfl := Except.error.inj h
    obtain ⟨_, _, hfailed⟩ := blames_document (blames_item maxNesting) _ hfails
    obtain ⟨expected, hfurthest⟩ := Event.exists_failed_furthest hfailed
    obtain ⟨earlier, later, hevents⟩ := List.append_of_mem hfurthest
    obtain ⟨before, ⟨after, htext⟩, hlength, -⟩ := leadsOn_of_failed hevents
    exact ⟨before, after, htext.symm, .inl (congrArg Span.point hlength)⟩
  next offset hrefused =>
    obtain rfl := Except.error.inj h
    obtain ⟨before, rest, htext, rfl⟩ := exists_place_of_tooDeep hrefused
    exact ⟨before, '(' :: rest, htext, .inr ⟨rfl, rest, rfl⟩⟩

end Railroad.Notation
