import Railroad.Proofs.SourceText.Lines
import Railroad.Proofs.Text.Boundary
set_option autoImplicit false

/-!
# Underlined lines

The lines that a span touches are those from the one that holds its first byte to the one that holds
its last byte (`SourceText.Touches`). Each is quoted with its number in front of it, and below it
there are marks under the characters that begin in the span, but at least one (`Line.quote`). That
is all that underlining shows, and it fails just when an end of the span cuts a character of the
text (`SourceText.underline?_shows_touched`).
-/

namespace Railroad

open Text

namespace Line

variable (line : Line) (span : Span) (mark : Char)

/-- What is shown of the line: everything but a carriage return at its end. -/
def shown : List Char := SourceText.withoutReturn line.text

/-- What is written in front of the line. -/
def gutter : List Char := (toString line.number).toList ++ ['|', ' ']

/-- What is shown of the line in front of a span. -/
def front : List Char := between line.start span.start line.start line.shown

/-- What is shown of the line inside a span. -/
def marked : List Char := between span.start span.stop line.start line.shown

/-- The line, and marks below the part of it that is inside a span. -/
def quote : List Char :=
  line.gutter ++ line.shown ++ ['\n'] ++
    List.replicate (line.gutter.length + width (line.front span)) ' ' ++
    List.replicate (max (width (line.marked span)) 1) mark

/-- Whether the line holds some offset from `first` to `last`. -/
def meets (first last : Nat) : Bool := first ≤ line.stop ∧ line.start ≤ last

/-- An end of a span cuts a character of the line. -/
def Cut : Prop := CutsChar (span.start - line.start) line.shown ∨
    CutsChar (span.stop - line.start) line.shown

end Line

namespace SourceText

/-- The offset of the first byte of a span. A span that begins beyond the text is taken to begin at
its end. -/
def firstOffset (source : SourceText) (span : Span) : Nat :=
  min span.start (byteLength source.chars)

/-- The offset of the last byte of a span in a text. An empty span has it where it begins. -/
def lastOffset (source : SourceText) (span : Span) : Nat :=
  if span.isEmpty then source.firstOffset span else min (span.stop - 1) (byteLength source.chars)

/-- Consecutive lines of a text, from the one that holds the first byte of a span to the one that
holds the last. -/
structure Touches (source : SourceText) (span : Span) (touched : List Line) : Prop where
  consecutive : touched <:+: source.lines
  first : ∃ line ∈ touched.head?, line.Holds (source.firstOffset span)
  last : ∃ line ∈ touched.getLast?, line.Holds (source.lastOffset span)

/-- The lines that a span touches, picked one by one. -/
def touchedLines (source : SourceText) (span : Span) : List Line :=
  source.lines.filter (Line.meets · (source.firstOffset span) (source.lastOffset span))

/-- The quoted lines one below the other, and a message behind the last marks. -/
def picture (touched : List Line) (span : Span) (message : String) (mark : Char) : String :=
  String.ofList (['\n'].intercalate (touched.map (Line.quote · span mark))) ++ " " ++ message

variable {source : SourceText} {span : Span} {index : LineIndex} {mark : Char}
variable {line quoted : List Char} {earlier later texts : List (List Char)} {number start n : Nat}

/-! ## A quoted line -/

section Quote

variable {l : Line}

/-- A line is cut into what is in front of a span, what is inside, and the rest. -/
theorem front_marked_eq {before inside after : List Char}
    (hline : l.shown = before ++ inside ++ after)
    (hstart : byteLength before = min (span.start - l.start) (byteLength l.shown))
    (hstop : byteLength (before ++ inside) = min (span.stop - l.start) (byteLength l.shown)) :
    l.front span = before ∧ l.marked span = inside := by
  rw [hline] at hstart hstop
  simp only [byteLength_append] at hstart hstop
  rw [Line.front, Line.marked, hline]
  simp only [between_append, byteLength_append]
  constructor
  -- what is in front of the span
  · rw [between_eq_self before (by omega) (by omega), between_eq_nil inside (by omega),
      between_eq_nil after (by omega), List.append_nil, List.append_nil]
  · rw [between_eq_nil before (by omega), between_eq_self inside (by omega) (by omega),
      between_eq_nil after (by omega), List.nil_append, List.append_nil]

/-- The start of a span is cut back to a line. -/
theorem clamp_eq_add_min (n start length : Nat) :
    clamp n start (start + length) = start + min (n - start) length := by
  rw [clamp]
  omega

/-- The end of a span is cut back to a line as its start is. -/
theorem clamp_eq_add_min_of_le {m n : Nat} (h : m ≤ n) (start length : Nat) :
    clamp n (start + min (m - start) length) (start + length) = start + min (n - start) length := by
  rw [clamp]
  omega

/-- Quoting a line fails just if an end of the span cuts a character of it. -/
theorem isSome_quoteLine?_iff (h : span.start ≤ span.stop) :
    (quoteLine? index span mark start line).isSome ↔
      ¬ (CutsChar (span.start - start) line ∨ CutsChar (span.stop - start) line) := by
  -- the line is quoted if it can be cut at both places
  have hslices : (quoteLine? index span mark start line).isSome ↔
      (slice? 0 (min (span.start - start) (byteLength line)) line).isSome ∧
      (slice? (min (span.start - start) (byteLength line))
        (min (span.stop - start) (byteLength line)) line).isSome := by
    rw [quoteLine?, clamp_eq_add_min, clamp_eq_add_min_of_le h, Nat.add_sub_cancel_left,
      Nat.add_sub_cancel_left]
    cases slice? 0 (min (span.start - start) (byteLength line)) line with
    | none => simp
    | some before => cases slice? _ _ line <;> simp
  have hle : min (span.start - start) (byteLength line) ≤
      min (span.stop - start) (byteLength line) := by
    omega
  rw [hslices, isSome_slice?_iff, isSome_slice?_iff, isBoundary_min_iff, isBoundary_min_iff, not_or]
  constructor
  · rintro ⟨-, -, hfirst, hlast⟩
    exact ⟨hfirst, hlast⟩
  · rintro ⟨hfirst, hlast⟩
    exact ⟨⟨Nat.zero_le _, isBoundary_zero line, hfirst⟩, hle, hfirst, hlast⟩

/-- A line is quoted unless a character of it is cut. -/
theorem quoteLine?_eq_some_iff (h : span.start ≤ span.stop)
    (hnumber : index.lineNumber? l.start = some l.number) :
    quoteLine? index span mark l.start l.shown = some quoted ↔
      ¬ l.Cut span ∧ l.quote span mark = quoted := by
  have hquote (hcut : ¬ l.Cut span) :
      quoteLine? index span mark l.start l.shown = some (l.quote span mark) := by
    rw [Line.Cut, not_or] at hcut
    obtain ⟨inside, hinside⟩ := Option.isSome_iff_exists.1
      (isSome_slice?_iff.2 ⟨by omega, isBoundary_min_iff.2 hcut.1, isBoundary_min_iff.2 hcut.2⟩)
    -- the line can be cut at both ends of the span
    obtain ⟨before, after, hline, hstart, hstop⟩ := slice?_eq_some_iff.1 hinside
    obtain ⟨hfront, hmarked⟩ := front_marked_eq hline hstart.symm hstop.symm
    have hclampStart : clamp span.start l.start (l.start + byteLength l.shown) =
        l.start + byteLength before := by
      rw [clamp_eq_add_min, hstart]
    have hclampStop : clamp span.stop (l.start + byteLength before) (l.start + byteLength l.shown) =
        l.start + byteLength (before ++ inside) := by
      rw [← hstart, clamp_eq_add_min_of_le h, hstop]
    rw [quoteLine?_eq_some hline hnumber hclampStart hclampStop, Line.quote, hfront, hmarked]
    rfl
  constructor
  · intro hquoted
    have hcut : ¬ l.Cut span :=
      (isSome_quoteLine?_iff h).1 (Option.isSome_iff_exists.2 ⟨quoted, hquoted⟩)
    exact ⟨hcut, Option.some.inj ((hquote hcut).symm.trans hquoted)⟩
  · rintro ⟨hcut, rfl⟩
    exact hquote hcut

/-- Lines are quoted one below the other, unless a character of one of them is cut. -/
theorem quoteLines?_eq_some_iff (h : span.start ≤ span.stop)
    (hnumber : ∀ l ∈ linesFrom number start texts, index.lineNumber? l.start = some l.number) :
    quoteLines? index span mark start texts = some quoted ↔
      (∀ l ∈ linesFrom number start texts, ¬ l.Cut span) ∧
        ['\n'].intercalate ((linesFrom number start texts).map (Line.quote · span mark)) =
          quoted := by
  -- the last line has its own equation, so each case looks at what follows the line
  induction texts generalizing number start quoted with
  | nil => simp [quoteLines?, linesFrom]
  | cons text texts ih =>
      have hfirst {quoted : List Char} : quoteLine? index span mark start (withoutReturn text) =
          some quoted ↔
          ¬ (Line.mk number start text).Cut span ∧ (Line.mk number start text).quote span mark =
            quoted :=
        quoteLine?_eq_some_iff h (hnumber _ List.mem_cons_self)
      rw [linesFrom, List.forall_mem_cons, List.map_cons]
      cases texts with
      | nil =>
          have hline : quoteLines? index span mark start [text] =
              quoteLine? index span mark start (withoutReturn text) := rfl
          simpa [linesFrom, hline] using hfirst
      | cons next texts =>
          have hrest {quoted : List Char} := @ih quoted (number + 1) (start + byteLength text + 1)
            fun l hl => hnumber l (List.mem_cons_of_mem _ hl)
          rw [List.intercalate_cons_of_ne_nil (by simp [linesFrom]), quoteLines?_cons_cons]
          constructor
          · intro hquoted
            obtain ⟨first, hline, hquoted⟩ := Option.bind_eq_some_iff.1 hquoted
            obtain ⟨more, hmore, hquoted⟩ := Option.bind_eq_some_iff.1 hquoted
            obtain ⟨hcut, rfl⟩ := hfirst.1 hline
            obtain ⟨hcuts, rfl⟩ := hrest.1 hmore
            exact ⟨⟨hcut, hcuts⟩, Option.some.inj hquoted⟩
          · rintro ⟨⟨hcut, hcuts⟩, rfl⟩
            exact Option.bind_eq_some_iff.2 ⟨_, hfirst.2 ⟨hcut, rfl⟩,
              Option.bind_eq_some_iff.2 ⟨_, hrest.2 ⟨hcuts, rfl⟩, rfl⟩⟩

end Quote

/-! ## Cut characters -/

/-- It makes no difference to the characters of a line that its carriage return is not shown. -/
theorem cutsChar_withoutReturn : CutsChar n (withoutReturn line) ↔ CutsChar n line := by
  rcases withoutReturn_eq_or line with hsame | hreturn
  · rw [hsame]
  · -- what is not shown is a single byte
    conv_rhs => rw [hreturn, cutsChar_append]
    exact (or_iff_left (not_cutsChar_of_ascii rfl)).symm

/-- An offset that cuts a character of some lines cuts one of those that are shown of a line. -/
theorem exists_cutsChar_iff (number : Nat) :
    (∃ l ∈ linesFrom number start texts, CutsChar (n - l.start) l.shown) ↔
      CutsChar (n - start) (joined texts) := by
  induction texts generalizing number start with
  | nil => simp [linesFrom, joined, not_cutsChar_nil]
  | cons text texts ih =>
      have hbreak {m : Nat} : ¬ CutsChar m ['\n'] := not_cutsChar_of_ascii rfl
      rw [linesFrom, List.exists_mem_cons_iff, ih, Line.shown, cutsChar_withoutReturn]
      cases texts with
      | nil => simp [joined, not_cutsChar_nil]
      | cons next texts =>
          have hsize : byteLength ['\n'] = 1 := rfl
          -- a line break has no character that could be cut
          rw [joined_cons_cons, cutsChar_append, cutsChar_append, or_iff_left hbreak,
            byteLength_append, hsize, Nat.sub_sub, Nat.add_assoc]

/-- The line break in front of some lines is no character that can be cut. -/
theorem not_cutsChar_opened (hn : n ≤ 1) : ¬ CutsChar n (opened later) := by
  cases later with
  | nil => exact not_cutsChar_nil
  | cons text later =>
      have hsize : Char.utf8Size '\n' = 1 := rfl
      have hbehind : n - 1 = 0 := by omega
      rw [opened, List.flatMap_cons, List.cons_append, cutsChar_cons, hsize, hbehind]
      rintro (⟨hlow, hhigh⟩ | hcut)
      · omega
      · exact hcut.2 (isBoundary_zero _)

/-- A character that is cut near some lines of a text belongs to them. -/
theorem cutsChar_joined_iff (hne : texts ≠ []) (hlow : byteLength (ended earlier) ≤ n)
    (hhigh : n < byteLength (joined (earlier ++ texts ++ later)) →
      n ≤ byteLength (ended earlier ++ joined texts) + 1) :
    CutsChar n (joined (earlier ++ texts ++ later)) ↔
      CutsChar (n - byteLength (ended earlier)) (joined texts) := by
  have hparts : joined (earlier ++ texts ++ later) =
      ended earlier ++ joined texts ++ opened later := by
    rw [joined_append_opened (List.append_ne_nil_of_right_ne_nil earlier hne),
      joined_append_of_ne_nil earlier hne]
  have hearlier : ¬ CutsChar n (ended earlier) := fun hcut => Nat.not_lt.2 hlow hcut.1
  have hlater : ¬ CutsChar (n - byteLength (ended earlier ++ joined texts)) (opened later) := by
    intro hcut
    have hlt := hcut.1
    rw [hparts, byteLength_append] at hhigh
    exact not_cutsChar_opened (by omega) hcut
  rw [hparts, cutsChar_append, cutsChar_append, or_iff_left hlater, or_iff_right hearlier]

/-! ## Touched lines -/

theorem firstOffset_le_lastOffset (source : SourceText) (h : span.start ≤ span.stop) :
    source.firstOffset span ≤ source.lastOffset span :=
  Span.firstByte_le_lastByte h (byteLength source.chars)

theorem lastOffset_le (source : SourceText) (span : Span) :
    source.lastOffset span ≤ byteLength source.chars :=
  span.lastByte_le (byteLength source.chars)

/-- An end of a span in the text is just behind its last byte. -/
theorem stop_le_lastOffset (hstop : span.stop < byteLength source.chars) :
    span.stop ≤ source.lastOffset span + 1 := by
  rw [lastOffset]
  split
  next hempty =>
    have hlength : span.stop - span.start = 0 := by simpa [Span.isEmpty, Span.length] using hempty
    rw [firstOffset]
    omega
  next => omega

theorem lineBounds_eq (source : SourceText) (span : Span) :
    source.lineIndex.lineBounds span =
      (source.lineIndex.startOfLine (source.firstOffset span),
        source.lineIndex.endOfLine (source.lastOffset span)) :=
  LineIndex.lineBounds_ofText source.chars span

/-- Some lines are all those that a span touches, since the others end in front of its first byte or
begin behind its last one. -/
theorem Touches.eq_touchedLines {touched : List Line} (h : source.Touches span touched) :
    touched = source.touchedLines span := by
  obtain ⟨before, after, hlines⟩ := h.consecutive
  obtain ⟨first, hfirst, hfirstLow, hfirstHigh⟩ := h.first
  obtain ⟨last, hlast, hlastLow, hlastHigh⟩ := h.last
  have hpairs : source.lines.Pairwise fun l next => l.stop < next.start := pairwise_linesFrom 1 0 _
  rw [← hlines, List.append_assoc, List.pairwise_append, List.pairwise_append] at hpairs
  obtain ⟨-, ⟨htouched, -, hafter⟩, hbefore⟩ := hpairs
  -- the lines in front of those that are touched end before the first byte
  have hnone : before.filter (Line.meets · (source.firstOffset span) (source.lastOffset span)) =
      [] := by
    refine List.filter_eq_nil_iff.2 fun l hl => ?_
    have hlt := hbefore l hl first (List.mem_append_left _ (List.mem_of_mem_head? hfirst))
    simp only [Line.meets, decide_eq_true_eq]
    omega
  have hnoneBehind : after.filter
      (Line.meets · (source.firstOffset span) (source.lastOffset span)) = [] := by
    refine List.filter_eq_nil_iff.2 fun l hl => ?_
    have hlt := hafter last (List.mem_of_mem_getLast? hlast) l hl
    simp only [Line.meets, decide_eq_true_eq]
    omega
  have hall : touched.filter (Line.meets · (source.firstOffset span) (source.lastOffset span)) =
      touched := by
    refine List.filter_eq_self.2 fun l hl => ?_
    -- a line that is touched does not end in front of the first one, nor begin behind the last
    have hstop : source.firstOffset span ≤ l.stop := by
      obtain ⟨rest, rfl⟩ := List.head?_eq_some_iff.1 hfirst
      rcases List.mem_cons.1 hl with rfl | hl
      · exact hfirstHigh
      · have hlt := List.rel_of_pairwise_cons htouched hl
        have hle := l.start_le_stop
        omega
    have hstart : l.start ≤ source.lastOffset span := by
      obtain ⟨front, rfl⟩ := List.getLast?_eq_some_iff.1 hlast
      rcases List.mem_append.1 hl with hl | hl
      · have hlt := (List.pairwise_append.1 htouched).2.2 l hl last List.mem_cons_self
        have hle := l.start_le_stop
        omega
      · rwa [List.mem_singleton.1 hl]
    exact decide_eq_true ⟨hstop, hstart⟩
  rw [touchedLines, ← hlines, List.filter_append, List.filter_append, hnone, hall, hnoneBehind,
    List.nil_append, List.append_nil]

/-- The lines that a span touches, without numbers and offsets, between those in front of them and
those behind. -/
structure TouchedTexts (source : SourceText) (span : Span)
    (earlier touched later : List (List Char)) : Prop where
  split : source.chars.splitOn '\n' = earlier ++ touched ++ later
  first : ∃ text more, touched = text :: more ∧
    byteLength (ended earlier) ≤ source.firstOffset span ∧
    source.firstOffset span ≤ byteLength (ended earlier ++ text)
  last : ∃ front text, touched = front ++ [text] ∧
    byteLength (ended (earlier ++ front)) ≤ source.lastOffset span ∧
    source.lastOffset span ≤ byteLength (ended (earlier ++ front) ++ text)

/-- Every span touches some lines. -/
theorem exists_touchedTexts (source : SourceText) (h : span.start ≤ span.stop) :
    ∃ earlier touched later, source.TouchedTexts span earlier touched later := by
  have hlast : source.lastOffset span ≤ byteLength (joined (source.chars.splitOn '\n')) := by
    rw [joined_splitOn]
    exact lastOffset_le source span
  obtain ⟨earlier, text, more, front, last, later, hsplit, hshown, hlow, hhigh, hlastLow,
    hlastHigh⟩ :=
    exists_lines_of_le (List.splitOn_ne_nil '\n' source.chars) (firstOffset_le_lastOffset source h)
      hlast
  exact ⟨earlier, text :: more, later, hsplit, ⟨text, more, rfl, hlow, hhigh⟩,
    ⟨front, last, hshown, hlastLow, hlastHigh⟩⟩

namespace TouchedTexts

variable {touched : List (List Char)} (h : source.TouchedTexts span earlier touched later)

include h

theorem ne_nil : touched ≠ [] := by
  obtain ⟨text, more, rfl, -⟩ := h.first
  exact List.cons_ne_nil text more

theorem chars_eq : source.chars = joined (earlier ++ touched ++ later) := by
  rw [← h.split, joined_splitOn]

theorem notMem (text : List Char) (hmem : text ∈ touched) : '\n' ∉ text :=
  notMem_of_mem_splitOn (h.split ▸ List.mem_append_left _ (List.mem_append_right _ hmem))

/-- The lines that are touched are found by their ends, -/
theorem lineBounds : source.lineIndex.lineBounds span =
    (byteLength (ended earlier), byteLength (ended earlier ++ joined touched)) := by
  rw [lineBounds_eq, lineIndex, h.chars_eq]
  congr 1
  · obtain ⟨text, more, rfl, hlow, hhigh⟩ := h.first
    rw [List.append_assoc, List.cons_append]
    exact startOfLine_of_line (h.notMem text List.mem_cons_self) hlow hhigh
  · obtain ⟨front, text, rfl, hlow, hhigh⟩ := h.last
    have hline : earlier ++ (front ++ [text]) ++ later = (earlier ++ front) ++ text :: later := by
      simp
    rw [hline, endOfLine_of_line (h.notMem text (by simp)) hlow hhigh, joined_concat, ended_append,
      List.append_assoc]

/-- and cut out of the text as a whole. -/
theorem slice? :
    Text.slice? (byteLength (ended earlier)) (byteLength (ended earlier ++ joined touched))
      source.chars = some (joined touched) := by
  refine slice?_eq_some_iff.2 ⟨ended earlier, opened later, ?_, rfl, rfl⟩
  rw [h.chars_eq, joined_append_opened (List.append_ne_nil_of_right_ne_nil earlier h.ne_nil),
    joined_append_of_ne_nil earlier h.ne_nil]

/-- The touched lines with their numbers and offsets. -/
theorem touches : source.Touches span
    (linesFrom (1 + earlier.length) (byteLength (ended earlier)) touched) where
  consecutive := by
    rw [lines, h.split, List.append_assoc, linesFrom_append, Nat.zero_add, linesFrom_append]
    exact ⟨_, _, List.append_assoc _ _ _⟩
  first := by
    obtain ⟨text, more, rfl, hlow, hhigh⟩ := h.first
    rw [byteLength_append] at hhigh
    exact ⟨_, rfl, hlow, hhigh⟩
  last := by
    obtain ⟨front, text, rfl, hlow, hhigh⟩ := h.last
    rw [ended_append, byteLength_append] at hlow hhigh
    rw [byteLength_append] at hhigh
    rw [linesFrom_append, linesFrom, linesFrom, List.getLast?_concat]
    exact ⟨_, rfl, hlow, hhigh⟩

theorem firstOffset_ge : byteLength (ended earlier) ≤ source.firstOffset span := by
  obtain ⟨-, -, -, hlow, -⟩ := h.first
  exact hlow

/-- The last byte of a span does not lie behind the lines that it touches. -/
theorem lastOffset_le : source.lastOffset span ≤ byteLength (ended earlier ++ joined touched) := by
  obtain ⟨front, text, rfl, -, hhigh⟩ := h.last
  rwa [joined_concat, ← List.append_assoc, ← ended_append]

/-- The characters of the text that a span cuts are in the lines that it touches. -/
theorem forall_not_cut_iff (hordered : span.start ≤ span.stop) (number : Nat) :
    (∀ l ∈ linesFrom number (byteLength (ended earlier)) touched, ¬ l.Cut span) ↔
      ¬ (CutsChar span.start source.chars ∨ CutsChar span.stop source.chars) := by
  have hfirst : byteLength (ended earlier) ≤ span.start :=
    h.firstOffset_ge.trans (Nat.min_le_left _ _)
  have hlast := h.lastOffset_le
  -- neither end of the span is behind the line break that ends the touched lines
  have hstart : span.start < byteLength source.chars →
      span.start ≤ byteLength (ended earlier ++ joined touched) + 1 := by
    intro hlt
    have hoffsets := firstOffset_le_lastOffset source hordered
    rw [firstOffset, Nat.min_eq_left (Nat.le_of_lt hlt)] at hoffsets
    omega
  have hstop : span.stop < byteLength source.chars →
      span.stop ≤ byteLength (ended earlier ++ joined touched) + 1 := by
    intro hlt
    exact (stop_le_lastOffset hlt).trans (Nat.succ_le_succ hlast)
  rw [h.chars_eq] at hstart hstop ⊢
  rw [cutsChar_joined_iff h.ne_nil hfirst hstart,
    cutsChar_joined_iff h.ne_nil (hfirst.trans hordered) hstop,
    ← exists_cutsChar_iff number, ← exists_cutsChar_iff number]
  simp only [Line.Cut, not_or, not_exists, not_and, forall_and]

/-- Underlining quotes the touched lines, unless an end of the span cuts a character of the text. -/
theorem underline?_eq_some_iff (hordered : span.start ≤ span.stop) (message : String) (mark : Char)
    (out : String) :
    source.underline? span message mark = some out ↔
      ¬ (CutsChar span.start source.chars ∨ CutsChar span.stop source.chars) ∧
        picture (linesFrom (1 + earlier.length) (byteLength (ended earlier)) touched) span
          message mark = out := by
  have hquoted : source.underline? span message mark =
      (quoteLines? source.lineIndex span mark (byteLength (ended earlier)) touched).map
        fun quoted => String.ofList (quoted ++ [' '] ++ message.toList) := by
    rw [underline?, h.lineBounds]
    simp only [h.slice?, linesOf_joined h.ne_nil h.notMem, Option.bind_eq_bind, Option.bind_some,
      Option.pure_def, Option.map_eq_bind]
    rfl
  have hnumber : ∀ l ∈ linesFrom (1 + earlier.length) (byteLength (ended earlier)) touched,
      source.lineIndex.lineNumber? l.start = some l.number :=
    fun l hl => lineNumber?_of_mem_lines (h.touches.consecutive.subset hl)
  have hpicture (quoted : List Char) : String.ofList (quoted ++ [' '] ++ message.toList) =
      String.ofList quoted ++ " " ++ message := by
    rw [String.ofList_append, String.ofList_append, String.ofList_toList]
  rw [hquoted, Option.map_eq_some_iff, ← h.forall_not_cut_iff hordered (1 + earlier.length)]
  simp only [quoteLines?_eq_some_iff hordered hnumber, hpicture]
  constructor
  · rintro ⟨quoted, ⟨hcut, rfl⟩, rfl⟩
    exact ⟨hcut, rfl⟩
  · rintro ⟨hcut, rfl⟩
    exact ⟨_, ⟨hcut, rfl⟩, rfl⟩

end TouchedTexts

/-- Underlining fails just when an end of the span lies in the text and is not on a character
boundary. Else it shows the lines from the one with the first byte of the span to the one with the
last, each with its number in front of it and marks below its part of the span, and the message
behind the last marks. -/
theorem underline?_shows_touched (source : SourceText) (span : Span) (h : span.start ≤ span.stop)
    (message : String) (mark : Char) :
    source.Touches span (source.touchedLines span) ∧
      (source.underline? span message mark = none ↔
        (span.start < byteLength source.chars ∧ ¬ IsBoundary span.start source.chars) ∨
          (span.stop < byteLength source.chars ∧ ¬ IsBoundary span.stop source.chars)) ∧
      ∀ out, source.underline? span message mark = some out →
        out = picture (source.touchedLines span) span message mark := by
  obtain ⟨earlier, texts, later, htexts⟩ := source.exists_touchedTexts h
  have hshown := htexts.underline?_eq_some_iff h message mark
  have htouches := htexts.touches
  rw [htouches.eq_touchedLines] at hshown htouches
  refine ⟨htouches, ?_, fun out hout => ((hshown out).1 hout).2.symm⟩
  rw [Option.eq_none_iff_forall_ne_some]
  constructor
  · intro hnone
    by_contra hcut
    exact hnone _ ((hshown _).2 ⟨hcut, rfl⟩)
  · intro hcut out hout
    exact ((hshown out).1 hout).1 hcut

/-- A span over a line break is underlined in two lines. The first ends with a carriage return,
which is not shown, and has a character of three bytes and two columns. -/
theorem underline?_shows_touched_two_lines :
    (SourceText.mk "g" "A ::= '木'\r\n| 'b'").underline? ⟨6, 15⟩ "here" '^' =
        some "1| A ::= '木'\n         ^^^^\n2| | 'b'\n   ^^ here" ∧
      "1| A ::= '木'\n         ^^^^\n2| | 'b'\n   ^^ here" =
        picture ((SourceText.mk "g" "A ::= '木'\r\n| 'b'").touchedLines ⟨6, 15⟩) ⟨6, 15⟩
          "here" '^' := by
  have hshown : (SourceText.mk "g" "A ::= '木'\r\n| 'b'").underline? ⟨6, 15⟩ "here" '^' =
      some "1| A ::= '木'\n         ^^^^\n2| | 'b'\n   ^^ here" := by decide +kernel
  exact ⟨hshown, (underline?_shows_touched _ ⟨6, 15⟩ (by decide) "here" '^').2.2 _ hshown⟩

/-- The span ends in a character of three bytes. -/
example : (SourceText.mk "g" "A ::= '木'").underline? ⟨6, 9⟩ "here" '^' = none := by decide +kernel

end SourceText

end Railroad
