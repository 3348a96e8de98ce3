import Railroad.Proofs.LineIndex.Lookup
import Railroad.Proofs.SourceText.Lines
set_option autoImplicit false

/-!
# Underlining at byte offsets

Messages about a text once more, now as they are put together from the whole text and a line table.
What stands in front of a span in a quoted line, and what is inside the span, is cut out of the text
at byte offsets, and the table is asked for the number of every line. A text that is cut beyond its
end, within a character or in the wrong order is a fault, and so is whatever goes wrong with the
table.

A line stands in the text where the lines in front of it end, so that it makes no difference whether
the line or the text is cut (`quoteLineAt_toOption`), and each line begins behind the line break of
the one before (`quoteLinesAt_toOption`). In the end the same is shown, and there is a fault just
where quoting fails (`underlineAt_toOption`, `reportAt_toOption`).
-/

namespace Railroad.SourceText

open LineTable (Fault)

variable {source : SourceText} {span : Span} {mark : Char} {earlier later line : List Char}
  {texts : List (List Char)}

/-! ## Definitions -/

/-- The text between two offsets. -/
def textBetween (text : List Char) (start stop : Nat) : Except Fault (List Char) := do
  let rest ← LineTable.restAt text start
  let size ← LineTable.minus stop start
  match Text.takeBytes? size rest with
  | some taken => return taken
  | none => throw (.misplaced stop)

/-- The line table of the text. -/
def lineTable (source : SourceText) : Except Fault LineTable := LineTable.empty.feed source.chars

/-- A message with the place it is about. A span that starts nowhere in the text is placed at line
and column 0. -/
def locateAt (source : SourceText) (message : String) (span : Span) : Except Fault String := do
  let table ← source.lineTable
  let place ← table.lineColumn? source.chars span.start
  let (line, column) := place.getD (0, 0)
  return message ++ " at " ++ source.path ++ ":" ++ toString line ++ ":" ++ toString column

/-- One quoted line of a text, which begins at offset `start` of the text, and the marks below
it. -/
def quoteLineAt (table : LineTable) (text : List Char) (span : Span) (mark : Char) (start : Nat)
    (line : List Char) : Except Fault (List Char) := do
  let stop := start + Text.byteLength line
  let markStart := clamp span.start start stop
  let markStop := clamp span.stop markStart stop
  let number ← table.lineNumber? start
  let gutter := (toString (number.getD 0)).toList ++ ['|', ' ']
  let before ← textBetween text start markStart
  let marked ← textBetween text markStart markStop
  return gutter ++ line ++ ['\n'] ++
    List.replicate (gutter.length + Text.width before) ' ' ++
    List.replicate (max (Text.width marked) 1) mark

/-- Quoted lines of a text one below the other, the first of which begins at offset `start`. -/
def quoteLinesAt (table : LineTable) (text : List Char) (span : Span) (mark : Char) :
    Nat → List (List Char) → Except Fault (List Char)
  | _, [] => return []
  | start, [line] => quoteLineAt table text span mark start (withoutReturn line)
  | start, line :: rest => do
      let quoted ← quoteLineAt table text span mark start (withoutReturn line)
      let more ← quoteLinesAt table text span mark (start + Text.byteLength line + 1) rest
      return quoted ++ ['\n'] ++ more

/-- The lines that a span touches, with the span underlined by a mark and a message after the last
mark. -/
def underlineAt (source : SourceText) (span : Span) (message : String) (mark : Char) :
    Except Fault String := do
  let table ← source.lineTable
  let (start, stop) ← table.lineBounds span
  let touched ← textBetween source.chars start stop
  let quoted ← quoteLinesAt table source.chars span mark start (linesOf touched)
  return String.ofList (quoted ++ [' '] ++ message.toList)

/-- A message about a span: its place, and below it the lines it touches. -/
def reportAt (source : SourceText) (span : Span) (message : String) : Except Fault String := do
  let located ← source.locateAt "Error" span
  let quoted ← source.underlineAt span message '^'
  return located ++ "\n" ++ quoted

/-! ## Slices and tables -/

/-- The text between two offsets is the slice at these offsets. -/
theorem textBetween_toOption (text : List Char) (start stop : Nat) :
    (textBetween text start stop).toOption = Text.slice? start stop text := by
  rw [textBetween, LineTable.restAt, LineTable.minus, Text.slice?]
  by_cases hle : start ≤ stop
  · rw [if_pos hle, if_pos hle]
    cases Text.dropBytes? start text with
    | none => rfl
    | some rest =>
        simp only [ok_bind, Option.bind_some]
        cases Text.takeBytes? (stop - start) rest <;> rfl
  · rw [if_neg hle, if_neg hle]
    cases Text.dropBytes? start text <;> rfl

theorem lineTable_eq (source : SourceText) : source.lineTable = .ok (.ofText source.chars) :=
  LineTable.feed_ofText [] source.chars

/-- A message is placed with a table as it is with the index. -/
theorem locateAt_eq (source : SourceText) (message : String) (span : Span) :
    source.locateAt message span = .ok (source.locate message (some span)) := by
  rw [locateAt, lineTable_eq, ok_bind, LineTable.lineColumn?_ofText, ok_bind]
  rfl

/-! ## Lines of the text -/

section Lines

variable {src : List Char}

/-- A line is cut where the text is, since it stands in the text behind what is in front of it. -/
theorem quoteLineAt_toOption (hsrc : src = earlier ++ line ++ later) (span : Span) (mark : Char) :
    (quoteLineAt (.ofText src) src span mark (Text.byteLength earlier) line).toOption =
      quoteLine? (.ofText src) span mark (Text.byteLength earlier) line := by
  rw [quoteLineAt, quoteLine?, LineTable.lineNumber?_ofText]
  -- the ends of the marks lie in the line, and are counted from where it begins
  obtain ⟨m, hm⟩ : ∃ m, clamp span.start (Text.byteLength earlier)
      (Text.byteLength earlier + Text.byteLength line) = Text.byteLength earlier + m :=
    Nat.exists_eq_add_of_le (Nat.le_max_left _ _)
  obtain ⟨n, hn⟩ : ∃ n, clamp span.stop (Text.byteLength earlier + m)
      (Text.byteLength earlier + Text.byteLength line) = Text.byteLength earlier + n := by
    apply Nat.exists_eq_add_of_le
    rw [clamp]
    omega
  have hmLe : m ≤ Text.byteLength line := by
    rw [clamp] at hm
    omega
  have hnLe : n ≤ Text.byteLength line := by
    rw [clamp] at hn
    omega
  have hfront : Text.slice? (Text.byteLength earlier) (Text.byteLength earlier + m) src =
      Text.slice? 0 m line := by
    rw [hsrc, ← Text.slice?_within hmLe earlier later, Nat.add_zero]
  have hmarked : Text.slice? (Text.byteLength earlier + m) (Text.byteLength earlier + n) src =
      Text.slice? m n line := by
    rw [hsrc]
    exact Text.slice?_within hnLe earlier later
  simp only [hm, hn, ok_bind, toOption_bind, textBetween_toOption, hfront, hmarked,
    Nat.add_sub_cancel_left]
  rfl

/-- The carriage return at the end of a line stands in the text, but is not quoted. -/
theorem quoteLineAt_withoutReturn (hsrc : src = earlier ++ line ++ later) (span : Span)
    (mark : Char) :
    (quoteLineAt (.ofText src) src span mark (Text.byteLength earlier)
      (withoutReturn line)).toOption =
      quoteLine? (.ofText src) span mark (Text.byteLength earlier) (withoutReturn line) := by
  rcases withoutReturn_eq_or line with hsame | hreturn
  · rw [hsame]
    exact quoteLineAt_toOption hsrc span mark
  -- the carriage return belongs to what follows the quoted line
  · rw [hreturn, ← List.append_assoc, List.append_assoc] at hsrc
    exact quoteLineAt_toOption hsrc span mark

/-- Lines are quoted one after the other, each behind the line break of the one before it. -/
theorem quoteLinesAt_toOption (hsrc : src = earlier ++ joined texts ++ later) (span : Span)
    (mark : Char) :
    (quoteLinesAt (.ofText src) src span mark (Text.byteLength earlier) texts).toOption =
      quoteLines? (.ofText src) span mark (Text.byteLength earlier) texts := by
  induction texts generalizing earlier with
  | nil => rfl
  | cons text texts ih =>
      cases texts with
      | nil =>
          rw [joined, List.intercalate_singleton] at hsrc
          exact quoteLineAt_withoutReturn hsrc span mark
      | cons next texts =>
          rw [joined_cons_cons] at hsrc
          -- the first line stands behind the earlier text, and the others behind its line break
          have hline : src = earlier ++ text ++ (['\n'] ++ joined (next :: texts) ++ later) := by
            simpa using hsrc
          have hbehind : src = earlier ++ text ++ ['\n'] ++ joined (next :: texts) ++ later := by
            simpa using hsrc
          have hfirst := quoteLineAt_withoutReturn hline span mark
          have hrest := ih hbehind
          rw [Text.byteLength_append, Text.byteLength_append] at hrest
          -- the last line has its own equation, and this is the other one
          have hlines : quoteLinesAt (.ofText src) src span mark (Text.byteLength earlier)
              (text :: next :: texts) = (do
                let quoted ← quoteLineAt (.ofText src) src span mark (Text.byteLength earlier)
                  (withoutReturn text)
                let more ← quoteLinesAt (.ofText src) src span mark
                  (Text.byteLength earlier + Text.byteLength text + 1) (next :: texts)
                return quoted ++ ['\n'] ++ more) := rfl
          rw [hlines, quoteLines?_cons_cons, toOption_bind, hfirst]
          simp only [toOption_bind]
          have hbreak : Text.byteLength ['\n'] = 1 := rfl
          rw [hbreak] at hrest
          rw [hrest]
          rfl

/-- What is cut out of a text is quoted line by line, from the offset where it begins. -/
theorem quoteLinesAt_of_slice? {start stop : Nat} {touched : List Char}
    (h : Text.slice? start stop src = some touched) (span : Span) (mark : Char) :
    (quoteLinesAt (.ofText src) src span mark start (linesOf touched)).toOption =
      quoteLines? (.ofText src) span mark start (linesOf touched) := by
  obtain ⟨before, after, hsrc, rfl, -⟩ := Text.slice?_eq_some_iff.1 h
  have hjoined : joined (linesOf touched) = touched := by
    rw [linesOf_eq_splitOn, joined_splitOn]
  rw [← hjoined] at hsrc
  exact quoteLinesAt_toOption hsrc span mark

end Lines

/-! ## Messages -/

/-- Underlining at byte offsets shows what underlining shows, and has a fault just where it
fails. -/
theorem underlineAt_toOption (source : SourceText) (h : span.start ≤ span.stop) (message : String)
    (mark : Char) :
    (source.underlineAt span message mark).toOption = source.underline? span message mark := by
  rw [underlineAt, underline?, lineTable_eq, ok_bind, LineTable.lineBounds_ofText _ h, ok_bind]
  simp only [toOption_bind, textBetween_toOption]
  apply Option.bind_congr
  intro touched htouched
  rw [quoteLinesAt_of_slice? htouched]
  rfl

/-- A report is put together at byte offsets as it is put together line by line. -/
theorem reportAt_toOption (source : SourceText) (h : span.start ≤ span.stop) (message : String) :
    (source.reportAt span message).toOption = source.report? span message := by
  rw [reportAt, report?, locateAt_eq, ok_bind, toOption_bind, underlineAt_toOption source h]
  rfl

end Railroad.SourceText
