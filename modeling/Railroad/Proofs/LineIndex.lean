import Mathlib.Data.List.DropRight
import Railroad.LineIndex
import Railroad.Proofs.Text.Slice
set_option autoImplicit false

/-!
# Places in an indexed text

A place in a text is given by what stands in front of it and what stands behind it. The index of the
text is cut at the place as well (`SplitAt`): the lines that begin in front of it or there, and
those that begin behind it (`splitAt_place`). So the index knows the line of the place
(`lineNumber?_ofText`), where that line begins (`startOfLine_ofText`) and ends (`endOfLine_ofText`),
and its column (`lineColumn?_ofText`). The lines that a span touches are those of its first byte and
of its last one (`lineBounds_ofText`), with all lines between.
-/

namespace Railroad

namespace LineIndex

variable {base n : Nat} {cs : List Char}

/-! ## Starts of lines -/

/-- Without a line break there is no further line. -/
theorem startsFrom_of_notMem (h : '\n' ∉ cs) (base : Nat) : startsFrom base cs = [] := by
  induction cs generalizing base with
  | nil => rfl
  | cons c cs ih =>
      have hc : c ≠ '\n' := (List.ne_of_not_mem_cons h).symm
      rw [startsFrom, if_neg hc, ih (List.not_mem_of_not_mem_cons h)]

/-- There are as many further lines as line breaks. -/
theorem length_startsFrom (base : Nat) (cs : List Char) :
    (startsFrom base cs).length = cs.count '\n' := by
  induction cs generalizing base with
  | nil => rfl
  | cons c cs ih =>
      rw [startsFrom, List.count_cons]
      by_cases hc : c = '\n' <;> simp [hc, ih]

/-- Lines that begin behind a line break of a text begin behind `base`, but not behind the text. -/
theorem bounds_of_mem_startsFrom (h : n ∈ startsFrom base cs) :
    base < n ∧ n ≤ base + Text.byteLength cs := by
  induction cs generalizing base with
  | nil => simp [startsFrom] at h
  | cons c cs ih =>
      have hsize := c.utf8Size_pos
      rw [startsFrom] at h
      rw [Text.byteLength_cons]
      split at h
      next hc =>
        -- behind a line break, whose size is one byte
        obtain rfl := hc
        have hbreak : Char.utf8Size '\n' = 1 := rfl
        rcases List.mem_cons.1 h with rfl | h
        · omega
        · obtain ⟨hlow, hhigh⟩ := ih h
          omega
      next =>
        obtain ⟨hlow, hhigh⟩ := ih h
        omega

/-- The last line of a text begins behind the last line break, or where the text begins. -/
theorem getLast?_startsFrom (base : Nat) (cs : List Char) :
    (base :: startsFrom base cs).getLast? =
      some (base + Text.byteLength (cs.rdropWhile (· != '\n'))) := by
  -- from its end the text is cut down to its last line break
  induction cs using List.reverseRecOn with
  | nil => rfl
  | append_singleton cs c ih =>
      rw [startsFrom_append]
      by_cases hc : c = '\n'
      · have hbreak : startsFrom (base + Text.byteLength cs) ['\n'] =
            [base + Text.byteLength (cs ++ ['\n'])] := by
          rw [Text.byteLength_append]
          rfl
        rw [hc, hbreak, List.rdropWhile_concat_neg _ _ _ (by simp), ← List.cons_append,
          List.getLast?_concat]
      · have hsame : startsFrom (base + Text.byteLength cs) [c] = [] :=
          startsFrom_of_notMem (by simpa using Ne.symm hc) _
        rw [hsame, List.append_nil, ih, List.rdropWhile_concat_pos _ _ _ (by simpa using hc)]

/-- The first line break of a text ends the line in which the text begins. -/
theorem head?_startsFrom (base : Nat) (cs : List Char) :
    (startsFrom base cs).head? = if '\n' ∈ cs then
      some (base + Text.byteLength (cs.takeWhile (· != '\n')) + 1) else none := by
  induction cs generalizing base with
  | nil => rfl
  | cons c cs ih =>
      by_cases hc : c = '\n'
      · simp [startsFrom, hc]
      · simp [startsFrom, hc, ih, Ne.symm hc, Nat.add_assoc]

/-! ## Starts divided at an offset -/

/-- The starts of lines, divided into those that are not behind an offset and those that are. -/
structure SplitAt (starts : List Nat) (b : Nat) (earlier later : List Nat) : Prop where
  eq : starts = earlier ++ later
  le : ∀ n ∈ earlier, n ≤ b
  lt : ∀ n ∈ later, b < n

namespace SplitAt

variable {b : Nat} {earlier later starts : List Nat} (h : SplitAt starts b earlier later)

include h

/-- The starts up to an offset are counted, -/
theorem countP_eq : starts.countP (· ≤ b) = earlier.length := by
  have hearlier : earlier.countP (· ≤ b) = earlier.length :=
    List.countP_eq_length.2 fun n hn => decide_eq_true (h.le n hn)
  have hlater : later.countP (· ≤ b) = 0 :=
    List.countP_eq_zero.2 fun n hn => by simpa using h.lt n hn
  rw [h.eq, List.countP_append, hearlier, hlater, Nat.add_zero]

/-- they are taken from the front, -/
theorem takeWhile_eq : starts.takeWhile (· ≤ b) = earlier := by
  have hlater : later.takeWhile (· ≤ b) = [] := by
    cases later with
    | nil => rfl
    | cons n later => exact List.takeWhile_cons_of_neg (by simpa using h.lt n List.mem_cons_self)
  rw [h.eq, List.takeWhile_append_of_pos, hlater, List.append_nil]
  exact fun n hn => decide_eq_true (h.le n hn)

/-- and the next line begins at the first of the others. -/
theorem find?_eq : starts.find? (b < ·) = later.head? := by
  have hearlier : earlier.find? (b < ·) = none :=
    List.find?_eq_none.2 fun n hn => by simpa using h.le n hn
  rw [h.eq, List.find?_append, hearlier, Option.none_or]
  cases later with
  | nil => rfl
  | cons n later => exact List.find?_cons_of_pos (by simpa using h.lt n List.mem_cons_self)

end SplitAt

/-! ## The index cut at a place -/

variable (before after : List Char)

/-- The lines of a text that begin in front of a place or there come first, and then those that
begin behind it. -/
theorem starts_ofText_append : (ofText (before ++ after)).starts =
    (0 :: startsFrom 0 before) ++ startsFrom (Text.byteLength before) after := by
  show [0] ++ startsFrom 0 (before ++ after) = _
  rw [startsFrom_append, Nat.zero_add]
  rfl

theorem length_ofText (text : List Char) : (ofText text).length = Text.byteLength text :=
  Nat.zero_add _

theorem byteLength_le_length_ofText :
    Text.byteLength before ≤ (ofText (before ++ after)).length := by
  rw [length_ofText, Text.byteLength_append]
  exact Nat.le_add_right _ _

theorem le_of_mem_starts_before (h : n ∈ 0 :: startsFrom 0 before) :
    n ≤ Text.byteLength before := by
  rcases List.mem_cons.1 h with rfl | h
  · exact Nat.zero_le _
  · obtain ⟨-, hhigh⟩ := bounds_of_mem_startsFrom h
    omega

/-- The starts are divided at the offset of a place as the text is divided at the place. -/
theorem splitAt_place : SplitAt (ofText (before ++ after)).starts (Text.byteLength before)
    (0 :: startsFrom 0 before) (startsFrom (Text.byteLength before) after) where
  eq := starts_ofText_append before after
  le := fun _ => le_of_mem_starts_before before
  lt := fun _ hn => (bounds_of_mem_startsFrom hn).1

/-- The line of a place is counted by the line breaks in front of it. -/
theorem lineNumber?_ofText : (ofText (before ++ after)).lineNumber? (Text.byteLength before) =
    some (before.count '\n' + 1) := by
  rw [lineNumber?, if_pos (byteLength_le_length_ofText before after),
    (splitAt_place before after).countP_eq, List.length_cons, length_startsFrom]

theorem lineStart?_ofText : (ofText (before ++ after)).lineStart? (before.count '\n' + 1) =
    some (Text.byteLength (before.rdropWhile (· != '\n'))) := by
  -- the line of the place is the last one that begins in front of it or there
  have hlast := getLast?_startsFrom 0 before
  rw [List.getLast?_eq_getElem?, List.length_cons, length_startsFrom, Nat.zero_add] at hlast
  rw [lineStart?, if_neg (Nat.succ_ne_zero _), starts_ofText_append, List.getElem?_append_left,
    hlast]
  rw [List.length_cons, length_startsFrom]
  exact Nat.sub_one_lt (Nat.succ_ne_zero _)

/-- The line of a place begins behind the last line break in front of the place. -/
theorem startOfLine_ofText : (ofText (before ++ after)).startOfLine (Text.byteLength before) =
    Text.byteLength (before.rdropWhile (· != '\n')) := by
  rw [startOfLine, (splitAt_place before after).takeWhile_eq, getLast?_startsFrom, Nat.zero_add,
    Option.getD_some]

/-- The line of a place ends in front of the first line break behind the place. -/
theorem endOfLine_ofText : (ofText (before ++ after)).endOfLine (Text.byteLength before) =
    Text.byteLength before + Text.byteLength (after.takeWhile (· != '\n')) := by
  rw [endOfLine, (splitAt_place before after).find?_eq, head?_startsFrom, length_ofText]
  by_cases hbreak : '\n' ∈ after
  · rw [if_pos hbreak]
    rfl
  -- in the last line everything behind the place belongs to it
  · have hline : after.takeWhile (· != '\n') = after := by
      apply List.takeWhile_eq_self_iff.2
      rintro c hc
      simpa using ne_of_mem_of_not_mem hc hbreak
    rw [if_neg hbreak, hline, Text.byteLength_append]

/-- What a place has in front of it in its own line ends like what it has in front of it, as far as
carriage returns are concerned. -/
theorem splitsLineBreak_rtakeWhile :
    splitsLineBreak (before.rtakeWhile (· != '\n')) after = splitsLineBreak before after := by
  induction before using List.reverseRecOn with
  | nil => rfl
  | append_singleton before c _ =>
      by_cases hc : c = '\n'
      · rw [hc, List.rtakeWhile_concat_neg _ _ _ (by simp)]
        simp [splitsLineBreak]
      · rw [List.rtakeWhile_concat_pos _ _ _ (by simpa using hc)]
        simp [splitsLineBreak]

/-- The column of a place counts the characters in front of it in its line, but not the carriage
return of a line break that the place is in. -/
theorem lineColumn?_ofText :
    (ofText (before ++ after)).lineColumn? (before ++ after) (Text.byteLength before) =
      some (before.count '\n' + 1,
        if splitsLineBreak before after then (before.rtakeWhile (· != '\n')).length
        else (before.rtakeWhile (· != '\n')).length + 1) := by
  have hslice :
      Text.slice? (Text.byteLength (before.rdropWhile (· != '\n'))) (Text.byteLength before)
        (before ++ after) = some (before.rtakeWhile (· != '\n')) := by
    apply Text.slice?_eq_some_iff.2
    refine ⟨_, after, ?_, rfl, ?_⟩ <;> rw [List.rdropWhile_append_rtakeWhile]
  have hlength : Text.byteLength (before ++ after) = (ofText (before ++ after)).length :=
    (length_ofText _).symm
  rw [lineColumn?, guard, if_pos hlength, lineNumber?_ofText]
  simp only [Option.pure_def, Option.bind_eq_bind, Option.bind_some, lineStart?_ofText, hslice,
    Text.dropBytes?_byteLength_append, splitsLineBreak_rtakeWhile]

end LineIndex

/-! ## Lines of a span -/

namespace Span

/-- The offset of the first byte of a span in a text with `length` bytes. -/
def firstByte (span : Span) (length : Nat) : Nat := min span.start length

/-- The offset of the last byte of a span in a text with `length` bytes. An empty span has it where
it begins. -/
def lastByte (span : Span) (length : Nat) : Nat :=
  if span.isEmpty then span.firstByte length else min (span.stop - 1) length

variable {span : Span}

/-- The last byte of a span is not in front of its first one. -/
theorem firstByte_le_lastByte (h : span.start ≤ span.stop) (length : Nat) :
    span.firstByte length ≤ span.lastByte length := by
  rw [lastByte]
  split
  next => exact Nat.le_refl _
  next hempty =>
    have hlength : span.stop - span.start ≠ 0 := by simpa [isEmpty, Span.length] using hempty
    rw [firstByte]
    omega

theorem lastByte_le (span : Span) (length : Nat) : span.lastByte length ≤ length := by
  rw [lastByte, firstByte]
  split <;> exact Nat.min_le_right _ _

end Span

/-- The lines of a span are those from the line of its first byte to that of its last one. -/
theorem LineIndex.lineBounds_ofText (text : List Char) (span : Span) :
    (ofText text).lineBounds span =
    ((ofText text).startOfLine (span.firstByte (Text.byteLength text)),
      (ofText text).endOfLine (span.lastByte (Text.byteLength text))) := by
  rw [lineBounds, length_ofText]
  rfl

end Railroad
