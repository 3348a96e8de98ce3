import Mathlib.Data.List.Find
import Railroad.Proofs.SourceText
set_option autoImplicit false

/-!
# Lines of a text

A text is what its lines are, with a line break between each two of them (`joined_splitOn`). A line
is known by its number and by the offset at which it begins, and `SourceText.lines` lists the lines
so. Each offset that is not beyond the text is held by a line (`exists_line_of_le`); a line break
belongs to the line that it ends. By any of the offsets that a line holds the index of the text
finds where the line begins (`startOfLine_of_line`) and where it ends (`endOfLine_of_line`).
-/

namespace Railroad

/-- A line of a text: its number, the offset at which it begins, and its characters without the line
break. -/
structure Line where
  number : Nat
  start : Nat
  text : List Char
  deriving DecidableEq

namespace Line

/-- The offset at which the line ends. The line break, if there is one, is there. -/
def stop (line : Line) : Nat := line.start + Text.byteLength line.text

theorem start_le_stop (line : Line) : line.start ≤ line.stop := Nat.le_add_right _ _

/-- A line holds the offsets from its start to its line break, or to the end of the text if it has
none. -/
def Holds (line : Line) (offset : Nat) : Prop := line.start ≤ offset ∧ offset ≤ line.stop

end Line

namespace SourceText

/-- Consecutive lines, the first of which has the given number and begins at offset `start`. -/
def linesFrom (number start : Nat) : List (List Char) → List Line
  | [] => []
  | text :: texts =>
      ⟨number, start, text⟩ :: linesFrom (number + 1) (start + Text.byteLength text + 1) texts

/-- The lines of a text. -/
def lines (source : SourceText) : List Line := linesFrom 1 0 (source.chars.splitOn '\n')

/-- Lines one behind the other, with a line break between each two. -/
def joined (texts : List (List Char)) : List Char := ['\n'].intercalate texts

/-- Lines one behind the other, with a line break behind each. -/
def ended (texts : List (List Char)) : List Char := texts.flatMap (· ++ ['\n'])

/-- Lines one behind the other, with a line break in front of each. -/
def opened (texts : List (List Char)) : List Char := texts.flatMap ('\n' :: ·)

variable {text line : List Char} {earlier later texts : List (List Char)} {number start b m n : Nat}

/-! ## Text and lines -/

/-- The lines of a text are what its line breaks separate. -/
theorem linesOf_eq_splitOn (text : List Char) : linesOf text = text.splitOn '\n' := by
  induction text with
  | nil => rfl
  | cons c text ih =>
      rw [linesOf, ih, List.splitOn_cons_eq_if_modifyHead]
      cases hlines : text.splitOn '\n' with
      | nil => exact absurd hlines (List.splitOn_ne_nil _ _)
      | cons line rest => by_cases hc : c = '\n' <;> simp [hc]

theorem joined_splitOn (text : List Char) : joined (text.splitOn '\n') = text :=
  List.intercalate_splitOn '\n'

/-- There is no line break in a line. -/
theorem notMem_of_mem_splitOn (h : line ∈ text.splitOn '\n') : '\n' ∉ line := by
  induction text generalizing line with
  | nil =>
      obtain rfl : line = [] := by simpa using h
      exact List.not_mem_nil
  | cons c text ih =>
      rw [List.splitOn_cons_eq_if_modifyHead] at h
      split at h
      next =>
        rcases List.mem_cons.1 h with rfl | h
        · exact List.not_mem_nil
        · exact ih h
      next hc =>
        -- the character is put in front of the first line of what is behind it
        cases hlines : text.splitOn '\n' with
        | nil => exact absurd hlines (List.splitOn_ne_nil _ _)
        | cons first rest =>
            rw [hlines] at h ih
            rcases List.mem_cons.1 h with rfl | h
            · have hbreak : '\n' ≠ c := fun heq => hc (beq_iff_eq.2 heq.symm)
              exact List.not_mem_cons_of_ne_of_not_mem hbreak (ih List.mem_cons_self)
            · exact ih (List.mem_cons_of_mem first h)

/-- Lines put together and cut apart again are the same lines. -/
theorem linesOf_joined (hne : texts ≠ []) (h : ∀ text ∈ texts, '\n' ∉ text) :
    linesOf (joined texts) = texts := by
  rw [linesOf_eq_splitOn, joined, List.splitOn_intercalate '\n' h hne]

@[simp] theorem ended_nil : ended [] = [] := rfl

@[simp] theorem ended_cons (text : List Char) (texts : List (List Char)) :
    ended (text :: texts) = text ++ ['\n'] ++ ended texts := rfl

theorem ended_append (earlier later : List (List Char)) :
    ended (earlier ++ later) = ended earlier ++ ended later :=
  List.flatMap_append

theorem byteLength_ended_cons (text : List Char) (texts : List (List Char)) :
    Text.byteLength (ended (text :: texts)) =
      Text.byteLength text + 1 + Text.byteLength (ended texts) := by
  rw [ended_cons, Text.byteLength_append, Text.byteLength_append]
  rfl

theorem joined_cons_cons (text next : List Char) (texts : List (List Char)) :
    joined (text :: next :: texts) = text ++ ['\n'] ++ joined (next :: texts) :=
  List.intercalate_cons_cons

theorem joined_cons (text : List Char) (texts : List (List Char)) :
    joined (text :: texts) = text ++ opened texts := by
  induction texts generalizing text with
  | nil => simp [joined, opened]
  | cons next texts ih =>
      rw [joined_cons_cons, ih next, opened, opened, List.flatMap_cons]
      simp

/-- Each of the earlier lines ends with a line break. -/
theorem joined_append_of_ne_nil (earlier : List (List Char)) (h : later ≠ []) :
    joined (earlier ++ later) = ended earlier ++ joined later := by
  induction earlier with
  | nil => rfl
  | cons text earlier ih =>
      have hne : earlier ++ later ≠ [] := List.append_ne_nil_of_right_ne_nil earlier h
      rw [List.cons_append, joined, List.intercalate_cons_of_ne_nil hne, ← joined, ih, ended_cons,
        List.append_assoc (text ++ ['\n'])]

/-- One line stands between the lines in front of it and those behind it. -/
theorem joined_append_cons (earlier : List (List Char)) (text : List Char)
    (later : List (List Char)) :
    joined (earlier ++ text :: later) = ended earlier ++ (text ++ opened later) := by
  rw [joined_append_of_ne_nil earlier (List.cons_ne_nil text later), joined_cons]

/-- Each of the later lines has a line break in front of it. -/
theorem joined_append_opened (h : earlier ≠ []) (later : List (List Char)) :
    joined (earlier ++ later) = joined earlier ++ opened later := by
  cases earlier with
  | nil => exact absurd rfl h
  | cons text earlier =>
      rw [List.cons_append, joined_cons, joined_cons, opened, opened, opened, List.flatMap_append,
        List.append_assoc]

theorem joined_concat (earlier : List (List Char)) (text : List Char) :
    joined (earlier ++ [text]) = ended earlier ++ text := by
  rw [joined_append_of_ne_nil earlier (List.cons_ne_nil text []), joined,
    List.intercalate_singleton]

/-- Behind ended lines another one begins. -/
theorem rdropWhile_ended (texts : List (List Char)) :
    (ended texts).rdropWhile (· != '\n') = ended texts := by
  induction texts using List.reverseRecOn with
  | nil => rfl
  | append_singleton texts text _ =>
      have hlast : ended (texts ++ [text]) = ended texts ++ text ++ ['\n'] := by
        simp [ended_append]
      rw [hlast, List.rdropWhile_concat_neg _ _ _ (by simp)]

theorem takeWhile_opened (texts : List (List Char)) :
    (opened texts).takeWhile (· != '\n') = [] := by
  cases texts with
  | nil => rfl
  | cons text texts => exact List.takeWhile_cons_of_neg (by simp)

/-- Ended lines are counted by their line breaks. -/
theorem count_ended (h : ∀ text ∈ texts, '\n' ∉ text) :
    (ended texts).count '\n' = texts.length := by
  induction texts with
  | nil => rfl
  | cons text texts ih =>
      have htext := List.count_eq_zero.2 (h text List.mem_cons_self)
      have htexts := ih fun text hmem => h text (List.mem_cons_of_mem _ hmem)
      rw [ended_cons, List.count_append, List.count_append, htext, htexts, List.length_cons]
      simp [Nat.add_comm]

/-! ## Numbers and offsets -/

/-- The lines behind some others are counted from there. -/
theorem linesFrom_append (number start : Nat) (earlier later : List (List Char)) :
    linesFrom number start (earlier ++ later) = linesFrom number start earlier ++
      linesFrom (number + earlier.length) (start + Text.byteLength (ended earlier)) later := by
  induction earlier generalizing number start with
  | nil => rfl
  | cons text earlier ih =>
      rw [List.cons_append, linesFrom, linesFrom, ih, List.length_cons, byteLength_ended_cons,
        List.cons_append]
      congr 3 <;> omega

/-- The number of a line and its offset follow from the lines in front of it. -/
theorem exists_of_mem_linesFrom {l : Line} (h : l ∈ linesFrom number start texts) :
    ∃ earlier later, texts = earlier ++ l.text :: later ∧ l.number = number + earlier.length ∧
      l.start = start + Text.byteLength (ended earlier) := by
  induction texts generalizing number start with
  | nil => exact absurd h List.not_mem_nil
  | cons text texts ih =>
      rcases List.mem_cons.1 h with rfl | h
      · exact ⟨[], texts, rfl, rfl, rfl⟩
      · obtain ⟨earlier, later, rfl, hnumber, hstart⟩ := ih h
        refine ⟨text :: earlier, later, rfl, ?_, ?_⟩
        · rw [hnumber, List.length_cons]
          omega
        · rw [hstart, byteLength_ended_cons]
          omega

/-- A line ends in front of the lines behind it. -/
theorem pairwise_linesFrom (number start : Nat) (texts : List (List Char)) :
    (linesFrom number start texts).Pairwise fun l next => l.stop < next.start := by
  induction texts generalizing number start with
  | nil => exact .nil
  | cons text texts ih =>
      refine .cons (fun next hnext => ?_) (ih _ _)
      obtain ⟨_, _, _, _, hstart⟩ := exists_of_mem_linesFrom hnext
      rw [hstart]
      show start + Text.byteLength text < _
      omega

/-- An offset that is not beyond some lines is held by one of them. -/
theorem exists_line_of_le (hne : texts ≠ []) (hb : b ≤ Text.byteLength (joined texts)) :
    ∃ earlier text later, texts = earlier ++ text :: later ∧ Text.byteLength (ended earlier) ≤ b ∧
      b ≤ Text.byteLength (ended earlier ++ text) := by
  induction texts generalizing b with
  | nil => exact absurd rfl hne
  | cons text texts ih =>
      -- the first line holds the offset, or one of the others holds what is left of it
      by_cases hfirst : b ≤ Text.byteLength text
      · exact ⟨[], text, texts, rfl, Nat.zero_le b, hfirst⟩
      · cases texts with
        | nil => exact absurd (by simpa [joined] using hb) hfirst
        | cons next texts =>
            have hbreak : Text.byteLength ['\n'] = 1 := rfl
            rw [joined_cons_cons, Text.byteLength_append, Text.byteLength_append, hbreak] at hb
            obtain ⟨earlier, held, later, hsplit, hlow, hhigh⟩ :=
              ih (List.cons_ne_nil next texts) (b := b - Text.byteLength text - 1) (by omega)
            rw [Text.byteLength_append] at hhigh
            refine ⟨text :: earlier, held, later, by rw [hsplit]; rfl, ?_, ?_⟩
            · rw [byteLength_ended_cons]
              omega
            · rw [Text.byteLength_append, byteLength_ended_cons]
              omega

/-- Consecutive lines reach from the one that holds an offset to the one that holds another offset,
not in front of the first. -/
theorem exists_lines_of_le (hne : texts ≠ []) (hmn : m ≤ n)
    (hn : n ≤ Text.byteLength (joined texts)) : ∃ earlier text more front last later,
      texts = earlier ++ (text :: more) ++ later ∧ text :: more = front ++ [last] ∧
      Text.byteLength (ended earlier) ≤ m ∧ m ≤ Text.byteLength (ended earlier ++ text) ∧
      Text.byteLength (ended (earlier ++ front)) ≤ n ∧
      n ≤ Text.byteLength (ended (earlier ++ front) ++ last) := by
  obtain ⟨earlier, text, rest, rfl, hlow, hhigh⟩ := exists_line_of_le hne (hmn.trans hn)
  -- the other line is that of what is left of the offset when the earlier lines are taken away
  rw [joined_append_of_ne_nil _ (List.cons_ne_nil text rest), Text.byteLength_append] at hn
  obtain ⟨front, last, later, hsplit, hlast, hend⟩ :=
    exists_line_of_le (List.cons_ne_nil text rest) (b := n - Text.byteLength (ended earlier))
      (by omega)
  obtain ⟨more, hmore⟩ : ∃ more, text :: more = front ++ [last] := by
    cases front with
    | nil => exact ⟨[], by rw [(List.cons.inj hsplit).1]; rfl⟩
    | cons first front => exact ⟨front ++ [last], by rw [(List.cons.inj hsplit).1]; rfl⟩
  refine ⟨earlier, text, more, front, last, later, ?_, hmore, hlow, hhigh, ?_, ?_⟩
  · rw [hmore, hsplit, List.append_assoc, List.append_assoc]
    rfl
  · rw [ended_append, Text.byteLength_append]
    omega
  · rw [Text.byteLength_append] at hend
    rw [ended_append, Text.byteLength_append, Text.byteLength_append]
    omega

/-! ## The index -/

section Index

variable {index : LineIndex}

/-- Two offsets that have the same lines begin at or before them are in lines that begin
together, -/
theorem startOfLine_congr (h : ∀ first ∈ index.starts, first ≤ m ↔ first ≤ n) :
    index.startOfLine m = index.startOfLine n := by
  have hsame : index.starts.takeWhile (· ≤ m) = index.starts.takeWhile (· ≤ n) := by
    generalize index.starts = starts at h
    induction starts with
    | nil => rfl
    | cons first starts ih =>
        have hfirst := h first List.mem_cons_self
        have hstarts := ih fun next hnext => h next (List.mem_cons_of_mem _ hnext)
        simp [List.takeWhile_cons, hfirst, hstarts]
  rw [LineIndex.startOfLine, LineIndex.startOfLine, hsame]

/-- and that end together. -/
theorem endOfLine_congr (h : ∀ first ∈ index.starts, first ≤ m ↔ first ≤ n) :
    index.endOfLine m = index.endOfLine n := by
  have hsame : index.starts.find? (m < ·) = index.starts.find? (n < ·) := by
    apply List.find?_congr
    intro first hfirst
    have hiff := h first hfirst
    exact decide_eq_decide.2 (by omega)
  rw [LineIndex.endOfLine, LineIndex.endOfLine, hsame]

/-- No line begins in another one. -/
theorem le_iff_of_mem_starts (htext : '\n' ∉ text)
    (hlow : Text.byteLength (ended earlier) ≤ b)
    (hhigh : b ≤ Text.byteLength (ended earlier ++ text))
    (hn : n ∈ (LineIndex.ofText (joined (earlier ++ text :: later))).starts) :
    n ≤ b ↔ n ≤ Text.byteLength (ended earlier) := by
  rw [joined_append_cons, LineIndex.starts_ofText_append, List.mem_append] at hn
  rcases hn with hn | hn
  · have hbefore := LineIndex.le_of_mem_starts_before _ hn
    omega
  · rw [LineIndex.startsFrom_append, LineIndex.startsFrom_of_notMem htext, List.nil_append] at hn
    have hbehind := (LineIndex.bounds_of_mem_startsFrom hn).1
    rw [Text.byteLength_append] at hhigh
    omega

/-- The line that holds an offset begins behind the lines in front of it. -/
theorem startOfLine_of_line (htext : '\n' ∉ text) (hlow : Text.byteLength (ended earlier) ≤ b)
    (hhigh : b ≤ Text.byteLength (ended earlier ++ text)) :
    (LineIndex.ofText (joined (earlier ++ text :: later))).startOfLine b =
      Text.byteLength (ended earlier) := by
  rw [startOfLine_congr fun n hn => le_iff_of_mem_starts htext hlow hhigh hn, joined_append_cons,
    LineIndex.startOfLine_ofText, rdropWhile_ended]

/-- The line that holds an offset ends in front of its line break. -/
theorem endOfLine_of_line (htext : '\n' ∉ text) (hlow : Text.byteLength (ended earlier) ≤ b)
    (hhigh : b ≤ Text.byteLength (ended earlier ++ text)) :
    (LineIndex.ofText (joined (earlier ++ text :: later))).endOfLine b =
      Text.byteLength (ended earlier ++ text) := by
  have hline : (text ++ opened later).takeWhile (· != '\n') = text := by
    rw [List.takeWhile_append_of_pos, takeWhile_opened, List.append_nil]
    exact fun c hc => bne_iff_ne.2 (ne_of_mem_of_not_mem hc htext)
  rw [endOfLine_congr fun n hn => le_iff_of_mem_starts htext hlow hhigh hn, joined_append_cons,
    LineIndex.endOfLine_ofText, hline, Text.byteLength_append]

end Index

/-- The index numbers the lines of the text. -/
theorem lineNumber?_of_mem_lines {source : SourceText} {l : Line} (h : l ∈ source.lines) :
    source.lineIndex.lineNumber? l.start = some l.number := by
  obtain ⟨earlier, later, hsplit, hnumber, hstart⟩ := exists_of_mem_linesFrom h
  have hchars : source.chars = ended earlier ++ (l.text ++ opened later) := by
    rw [← joined_append_cons, ← hsplit, joined_splitOn]
  have hearlier : ∀ text ∈ earlier, '\n' ∉ text := fun text hmem =>
    notMem_of_mem_splitOn (hsplit ▸ List.mem_append_left _ hmem)
  rw [lineIndex, hstart, Nat.zero_add, hchars, LineIndex.lineNumber?_ofText, count_ended hearlier,
    hnumber, Nat.add_comm]

end SourceText

end Railroad
