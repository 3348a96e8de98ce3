import Railroad.Proofs.LineIndex
import Railroad.SourceText
set_option autoImplicit false

/-!
# Messages about a place

What is said about a place in a text follows from what the text has in front of the place and behind
it: the line and the column, the line that is quoted, and how far a mark is indented below it
(`Place.report`). A report about an empty span, or about the span of a parenthesis, is that of the
place where the span begins (`report?_of_markedBy`).
-/

namespace Railroad

/-- A place in a text, by what the text has in front of it and behind it. -/
structure Place where
  before : List Char
  after : List Char

namespace Place

variable (place : Place)

/-- The offset of the place. -/
def offset : Nat := Text.byteLength place.before

/-- The number of the line. -/
def line : Nat := place.before.count '\n' + 1

/-- What stands in the lines in front of that of the place. -/
def earlier : List Char := place.before.rdropWhile (· != '\n')

/-- What stands in the line in front of the place. -/
def front : List Char := place.before.rtakeWhile (· != '\n')

/-- What stands in the line behind the place. -/
def back : List Char := place.after.takeWhile (· != '\n')

/-- The number of the column. Between the two characters of a line break it is still that of the
first one. -/
def column : Nat :=
  if LineIndex.splitsLineBreak place.before place.after then place.front.length
  else place.front.length + 1

/-- The line without its line break. -/
def quoted : List Char := SourceText.withoutReturn (place.front ++ place.back)

/-- What is written in front of the quoted line. -/
def gutter : List Char := (toString place.line).toList ++ ['|', ' ']

/-- How far the mark under the quoted line is indented. A place behind the quoted line is marked at
its end. -/
def indent : Nat := place.gutter.length + Text.width (place.front.take place.quoted.length)

/-- The first line of a report. -/
def location (path : String) : String :=
  "Error at " ++ path ++ ":" ++ toString place.line ++ ":" ++ toString place.column

/-- The quoted line, and below it a mark with a message. -/
def picture (message : String) : String :=
  String.ofList (place.gutter ++ place.quoted ++ ['\n'] ++ List.replicate place.indent ' ' ++
    ['^', ' ']) ++ message

/-- The report about the place. -/
def report (path message : String) : String := place.location path ++ "\n" ++ place.picture message

/-- A span marks a place if it is empty there, or is that of a parenthesis there. -/
def MarkedBy (span : Span) : Prop :=
  span = .point place.offset ∨
    span = ⟨place.offset, place.offset + 1⟩ ∧ ∃ rest, place.after = '(' :: rest

/-- There is no column 0. -/
theorem column_pos : 0 < place.column := by
  rw [column, ← LineIndex.splitsLineBreak_rtakeWhile]
  split
  next hsplits =>
    -- the carriage return in front of the place is in its line
    rw [front]
    cases hfront : place.before.rtakeWhile (· != '\n') with
    | nil => simp [hfront, LineIndex.splitsLineBreak] at hsplits
    | cons c cs => exact Nat.succ_pos _
  next => exact Nat.succ_pos _

/-- There is no line break in front of a place in its own line, -/
theorem notMem_front : '\n' ∉ place.front := by
  intro h
  simpa using List.mem_rtakeWhile_imp h

/-- nor behind it, -/
theorem notMem_back : '\n' ∉ place.back := by
  intro h
  simpa using List.mem_takeWhile_imp h

theorem notMem_line : '\n' ∉ place.front ++ place.back := by
  simp [notMem_front, notMem_back]

end Place

namespace SourceText

/-! ## Lines -/

/-- A text without a line break is one line. -/
theorem linesOf_of_notMem {line : List Char} (h : '\n' ∉ line) : linesOf line = [line] := by
  induction line with
  | nil => rfl
  | cons c line ih =>
      have hc : c ≠ '\n' := (List.ne_of_not_mem_cons h).symm
      rw [linesOf, ih (List.not_mem_of_not_mem_cons h)]
      exact if_neg hc

/-- Only the end of a line matters to what is left out of it. -/
theorem withoutReturn_append (xs : List Char) {ys : List Char} (h : ys ≠ []) :
    withoutReturn (xs ++ ys) = xs ++ withoutReturn ys := by
  rw [withoutReturn, withoutReturn, List.getLast?_append_of_ne_nil xs h,
    List.dropLast_append_of_ne_nil h]
  split <;> rfl

theorem mem_of_mem_withoutReturn {c : Char} {line : List Char} (h : c ∈ withoutReturn line) :
    c ∈ line := by
  unfold withoutReturn at h
  split at h
  · exact (List.dropLast_sublist line).subset h
  · exact h

/-- A line loses at most a carriage return. -/
theorem withoutReturn_eq_or (line : List Char) :
    withoutReturn line = line ∨ line = withoutReturn line ++ ['\r'] := by
  unfold withoutReturn
  split
  next h => exact .inr (List.dropLast_append_getLast? _ h).symm
  next => exact .inl rfl

/-! ## Marks -/

/-- A line is quoted with marks under the part of it that a span covers. -/
theorem quoteLine?_eq_some {index : LineIndex} {span : Span} {start number : Nat}
    {line front marked back : List Char} (hline : line = front ++ marked ++ back)
    (hnumber : index.lineNumber? start = some number)
    (hstart : clamp span.start start (start + Text.byteLength line) = start + Text.byteLength front)
    (hstop : clamp span.stop (start + Text.byteLength front) (start + Text.byteLength line) =
      start + Text.byteLength (front ++ marked)) (mark : Char) :
    quoteLine? index span mark start line =
      some ((toString number).toList ++ ['|', ' '] ++ line ++ ['\n'] ++
        List.replicate (((toString number).toList ++ ['|', ' ']).length + Text.width front) ' ' ++
        List.replicate (max (Text.width marked) 1) mark) := by
  -- the line is cut at the two ends of what is marked
  have hfront : Text.slice? 0 (Text.byteLength front) line = some front :=
    Text.slice?_eq_some_iff.2 ⟨[], marked ++ back, by simp [hline], rfl, rfl⟩
  have hmarked : Text.slice? (Text.byteLength front) (Text.byteLength (front ++ marked)) line =
      some marked := Text.slice?_eq_some_iff.2 ⟨front, back, hline, rfl, rfl⟩
  rw [quoteLine?, hstart, hstop]
  simp only [Nat.add_sub_cancel_left, hfront, hmarked, hnumber, Option.getD_some]
  rfl

/-- A line that is not the last one is quoted in front of a line break and the other lines. -/
theorem quoteLines?_cons_cons (index : LineIndex) (span : Span) (mark : Char) (start : Nat)
    (line next : List Char) (rest : List (List Char)) :
    quoteLines? index span mark start (line :: next :: rest) =
      (quoteLine? index span mark start (withoutReturn line)).bind fun quoted =>
        (quoteLines? index span mark (start + Text.byteLength line + 1) (next :: rest)).bind
          fun more => some (quoted ++ ['\n'] ++ more) := rfl

theorem exists_withoutReturn_cons {c : Char} (h : c ≠ '\r') (line : List Char) :
    ∃ shown, withoutReturn (c :: line) = c :: shown := by
  cases line with
  | nil => exact ⟨[], if_neg (by simpa using h)⟩
  | cons d line => exact ⟨_, withoutReturn_append [c] (List.cons_ne_nil d line)⟩

end SourceText

namespace Place

open SourceText

variable {place : Place} {span : Span} {index : LineIndex} {start : Nat}

/-! ## The quoted line -/

/-- The quoted line is a single line. -/
theorem notMem_quoted (place : Place) : '\n' ∉ place.quoted :=
  fun h => place.notMem_line (mem_of_mem_withoutReturn h)

/-- The quoted line goes on where the place is, or it ends there, or else only a carriage return was
left out of it in front of the place. -/
theorem exists_quoted (place : Place) : (∃ shown, place.quoted = place.front ++ shown) ∨
    place.front = place.quoted ++ ['\r'] := by
  rw [quoted]
  -- only a line that ends at the place can lose its carriage return in front of it
  by_cases hback : place.back = []
  · rw [hback, List.append_nil]
    rcases withoutReturn_eq_or place.front with hsame | hreturn
    · exact .inl ⟨[], by rw [hsame, List.append_nil]⟩
    · exact .inr hreturn
  · exact .inl ⟨_, withoutReturn_append place.front hback⟩

/-- A parenthesis behind the place is quoted. -/
theorem exists_quoted_paren {rest : List Char} (h : place.after = '(' :: rest) :
    ∃ shown, place.quoted = place.front ++ ['('] ++ shown := by
  have hback : place.back = '(' :: rest.takeWhile (· != '\n') := by
    rw [back, h]
    exact List.takeWhile_cons_of_pos (by decide)
  obtain ⟨shown, hshown⟩ :=
    exists_withoutReturn_cons (c := '(') (by decide) (rest.takeWhile (· != '\n'))
  refine ⟨shown, ?_⟩
  rw [quoted, hback, withoutReturn_append _ (List.cons_ne_nil _ _), hshown, List.append_assoc]
  rfl

theorem take_front {shown : List Char} (h : place.quoted = place.front ++ shown) :
    place.front.take place.quoted.length = place.front := by
  apply List.take_of_length_le
  rw [h, List.length_append]
  exact Nat.le_add_right _ _

theorem MarkedBy.start_eq (h : place.MarkedBy span) : span.start = place.offset := by
  rcases h with rfl | ⟨rfl, -⟩ <;> rfl

/-- Of the quoted line no more than one column is marked, and that begins where the place is, or
where the line ends if the place is behind it. -/
theorem exists_marked (h : place.MarkedBy span)
    (hoffset : place.offset = start + Text.byteLength place.front) :
    ∃ marked shown, place.quoted = place.front.take place.quoted.length ++ marked ++ shown ∧
      Text.width marked ≤ 1 ∧
      clamp span.start start (start + Text.byteLength place.quoted) =
        start + Text.byteLength (place.front.take place.quoted.length) ∧
      clamp span.stop (start + Text.byteLength (place.front.take place.quoted.length))
        (start + Text.byteLength place.quoted) =
          start + Text.byteLength (place.front.take place.quoted.length ++ marked) := by
  rcases h with rfl | ⟨rfl, rest, hafter⟩
  · rcases place.exists_quoted with ⟨shown, hquoted⟩ | hreturn
    -- the place is in the quoted line, and nothing is marked behind it
    · refine ⟨[], shown, ?_⟩
      rw [take_front hquoted, hquoted]
      simp only [Span.point, hoffset, clamp, Text.byteLength_append, List.append_nil, true_and]
      exact ⟨Nat.zero_le 1, by omega, by omega⟩
    · -- the place is behind the carriage return
      have htake : place.front.take place.quoted.length = place.quoted := by
        rw [hreturn, List.take_left]
      refine ⟨[], [], ?_⟩
      rw [htake, hoffset, hreturn]
      simp only [Span.point, clamp, Text.byteLength_append, List.append_nil, true_and]
      exact ⟨Nat.zero_le 1, by omega, by omega⟩
  · obtain ⟨shown, hquoted⟩ := exists_quoted_paren hafter
    have htake := take_front (hquoted.trans (List.append_assoc _ _ _))
    have hsize : Text.byteLength ['('] = 1 := rfl
    refine ⟨['('], shown, ?_⟩
    rw [htake, hquoted]
    simp only [hoffset, clamp, Text.byteLength_append, hsize, true_and]
    exact ⟨by decide, by omega, by omega⟩

/-- The line of a place is quoted with a single mark below it. -/
theorem quoteLine?_of_markedBy (h : place.MarkedBy span)
    (hnumber : index.lineNumber? start = some place.line)
    (hoffset : place.offset = start + Text.byteLength place.front) :
    quoteLine? index span '^' start place.quoted = some
      (place.gutter ++ place.quoted ++ ['\n'] ++ List.replicate place.indent ' ' ++ ['^']) := by
  obtain ⟨marked, shown, hquoted, hwidth, hstart, hstop⟩ := exists_marked h hoffset
  rw [quoteLine?_eq_some hquoted hnumber hstart hstop, max_eq_right hwidth]
  rfl

/-! ## The report -/

variable (place)

theorem earlier_append_front : place.earlier ++ place.front = place.before :=
  List.rdropWhile_append_rtakeWhile

/-- An offset is counted from the start of its line. -/
theorem offset_eq : place.offset = Text.byteLength place.earlier + Text.byteLength place.front := by
  rw [← Text.byteLength_append, earlier_append_front, offset]

theorem line_eq : place.line = place.earlier.count '\n' + 1 := by
  rw [line, ← earlier_append_front, List.count_append, List.count_eq_zero.2 place.notMem_front,
    Nat.add_zero]

/-- A span that marks a place touches only the line of the place. -/
theorem lineBounds_of_markedBy (h : place.MarkedBy span) :
    (LineIndex.ofText (place.before ++ place.after)).lineBounds span =
      (Text.byteLength place.earlier, place.offset + Text.byteLength place.back) := by
  have hinside : min place.offset (LineIndex.ofText (place.before ++ place.after)).length =
      place.offset :=
    min_eq_left (LineIndex.byteLength_le_length_ofText place.before place.after)
  -- the last byte of the span is its first one
  have hbounds : (LineIndex.ofText (place.before ++ place.after)).lineBounds span =
      ((LineIndex.ofText (place.before ++ place.after)).startOfLine place.offset,
        (LineIndex.ofText (place.before ++ place.after)).endOfLine place.offset) := by
    rcases h with rfl | ⟨rfl, -⟩
    · simp [LineIndex.lineBounds, Span.point, Span.isEmpty, Span.length, hinside]
    · simp [LineIndex.lineBounds, Span.isEmpty, Span.length, hinside]
  have hstart := LineIndex.startOfLine_ofText place.before place.after
  have hstop := LineIndex.endOfLine_ofText place.before place.after
  rw [hbounds, offset, hstart, hstop]
  rfl

theorem lineNumber?_earlier :
    (LineIndex.ofText (place.before ++ place.after)).lineNumber? (Text.byteLength place.earlier) =
      some place.line := by
  rw [← earlier_append_front, List.append_assoc, LineIndex.lineNumber?_ofText, line_eq]

/-- The line of a place is cut out of the text between its start and its end. -/
theorem slice?_line :
    Text.slice? (Text.byteLength place.earlier) (place.offset + Text.byteLength place.back)
      (place.before ++ place.after) = some (place.front ++ place.back) := by
  apply Text.slice?_eq_some_iff.2
  refine ⟨place.earlier, place.after.dropWhile (· != '\n'), ?_, rfl, ?_⟩
  · rw [← List.append_assoc, earlier_append_front, List.append_assoc, back,
      List.takeWhile_append_dropWhile]
  · rw [offset_eq, Text.byteLength_append, Text.byteLength_append, Nat.add_assoc]

section Source

variable {source : SourceText} (hsource : source.chars = place.before ++ place.after)

include hsource

/-- The line of a marked place is quoted with a mark and the message below it. -/
theorem underline?_of_markedBy (h : place.MarkedBy span) (message : String) :
    source.underline? span message '^' = some (place.picture message) := by
  have hquoted : quoteLines? (LineIndex.ofText (place.before ++ place.after)) span '^'
      (Text.byteLength place.earlier) [place.front ++ place.back] = _ :=
    quoteLine?_of_markedBy h place.lineNumber?_earlier place.offset_eq
  rw [underline?, lineIndex, hsource, lineBounds_of_markedBy place h]
  simp only [slice?_line, linesOf_of_notMem place.notMem_line, hquoted, Option.pure_def,
    Option.bind_eq_bind, Option.bind_some]
  rw [picture, String.ofList_append, String.ofList_toList, List.append_assoc _ ['^'] [' ']]
  rfl

/-- A span is located where it begins. -/
theorem locate_of_start (h : span.start = place.offset) :
    source.locate "Error" (some span) = place.location source.path := by
  have hlocated : (LineIndex.ofText (place.before ++ place.after)).lineColumn?
      (place.before ++ place.after) place.offset = some (place.line, place.column) :=
    LineIndex.lineColumn?_ofText place.before place.after
  simp only [locate, lineIndex, hsource, h, hlocated, Option.getD_some]
  rfl

/-- A text is reported on at the place that a span marks. -/
theorem report?_of_markedBy (h : place.MarkedBy span) (message : String) :
    source.report? span message = some (place.report source.path message) := by
  rw [report?, underline?_of_markedBy place hsource h, locate_of_start place hsource h.start_eq]
  rfl

end Source

end Place

end Railroad
