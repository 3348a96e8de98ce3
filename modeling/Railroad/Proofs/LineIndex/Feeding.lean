import Railroad.Proofs.Except
import Railroad.Proofs.LineIndex.Starts
import Railroad.Proofs.LineIndex.Table
set_option autoImplicit false

/-!
# Feeding a line table

After any pieces, a table is that of the text they make up (`ofText`): one more character leads from
the table of a text to that of the text with the character (`addChar_ofText`), one more piece does
so too (`feed_ofText`), and so do all of them (`feedEach_ofText`). The table knows the length of the
text without having kept it (`length_ofText`).

Halving ascending entries leaves out only entries that are smaller or greater than the number that
is searched (`exists_searchBetween`). So it finds the slot of the number (`Slot.Fits`), and the
starts of lines are divided there as the offset divides them (`Slot.Fits.splitAt`). A table
therefore agrees with the line index of the text (`lineNumber?_ofText`), and no fault occurs.
-/

namespace Railroad.LineTable

open Text

variable {b n low high position : Nat} {entries : List Nat} {text : List Char}

/-- What a table has of a text, however it was fed: where the lines begin, and the length of the
last one. -/
def ofText (text : List Char) : LineTable :=
  ⟨(LineIndex.ofText text).starts, byteLength (text.rtakeWhile (· != '\n'))⟩

/-! ## Steps without a fault -/

theorem entryAt_of_getElem? {entry : Nat} (h : entries[position]? = some entry) :
    entryAt entries position = .ok entry := by
  rw [entryAt, h]

theorem minus_of_le (h : n ≤ b) : minus b n = .ok (b - n) := if_pos h

/-- The start of the last line and the bytes behind it make up the text. -/
theorem length_ofText (text : List Char) : (ofText text).length = .ok (byteLength text) := by
  have hlast : entryAt (ofText text).starts ((ofText text).starts.length - 1) =
      .ok (byteLength (text.rdropWhile (· != '\n'))) := by
    apply entryAt_of_getElem?
    rw [← List.getLast?_eq_getElem?]
    have hlast := LineIndex.getLast?_startsFrom 0 text
    rwa [Nat.zero_add] at hlast
  have hwhole : byteLength (text.rdropWhile (· != '\n')) + (ofText text).trailing =
      byteLength text := by
    rw [ofText, ← byteLength_append, List.rdropWhile_append_rtakeWhile]
  have hsome : 1 ≤ (ofText text).starts.length := Nat.succ_pos _
  rw [length, minus_of_le hsome, ok_bind, hlast, ok_bind, hwhole]
  rfl

/-- The next character of a piece makes of the table of the text so far that of the text with the
character. -/
theorem addChar_ofText (text read : List Char) (c : Char) :
    (ofText (text ++ read)).addChar (byteLength text) (byteLength read) c =
      ofText (text ++ read ++ [c]) := by
  have hstarts : (LineIndex.ofText (text ++ read ++ [c])).starts =
      (LineIndex.ofText (text ++ read)).starts ++
        LineIndex.startsFrom (byteLength (text ++ read)) [c] :=
    LineIndex.starts_ofText_append (text ++ read) [c]
  rw [addChar, ofText, ofText, hstarts]
  -- a line break begins a line, and any other character lengthens the last one
  by_cases hc : c = '\n'
  · rw [if_pos hc, hc, List.rtakeWhile_concat_neg _ _ _ (by simp), byteLength_append]
    rfl
  · have hsame : LineIndex.startsFrom (byteLength (text ++ read)) [c] = [] :=
      LineIndex.startsFrom_of_notMem (by simpa using Ne.symm hc) _
    rw [if_neg hc, hsame, List.append_nil, List.rtakeWhile_concat_pos _ _ _ (by simpa using hc),
      byteLength_append]
    rfl

/-- Character by character, a piece makes of the table of a text that of the text with the piece. -/
theorem addChars_ofText (text read cs : List Char) :
    (ofText (text ++ read)).addChars (byteLength text) (byteLength read) cs =
      ofText (text ++ read ++ cs) := by
  induction cs generalizing read with
  | nil => rw [addChars, List.append_nil]
  | cons c cs ih =>
      have hread : byteLength read + c.utf8Size = byteLength (read ++ [c]) := by
        rw [byteLength_append]
        rfl
      rw [addChars, addChar_ofText, hread, List.append_assoc text, ih]
      simp only [List.append_assoc, List.cons_append, List.nil_append]

/-- A piece makes of the table of a text that of the text with the piece behind it. -/
theorem feed_ofText (text piece : List Char) :
    (ofText text).feed piece = .ok (ofText (text ++ piece)) := by
  have hadded := addChars_ofText text [] piece
  rw [List.append_nil] at hadded
  rw [feed, length_ofText, ok_bind, ← hadded]
  rfl

/-- Pieces make of the table of a text that of the text with all of them behind it. -/
theorem feedEach_ofText (text : List Char) (pieces : List (List Char)) :
    (ofText text).feedEach pieces = .ok (ofText (text ++ pieces.flatten)) := by
  induction pieces generalizing text with
  | nil => rw [feedEach, List.flatten_nil, List.append_nil]
  | cons piece pieces ih =>
    rw [feedEach, feed_ofText, ok_bind, ih, List.flatten_cons, List.append_assoc]

/-- A table that was fed is that of the text. -/
theorem feedEach_empty (pieces : List (List Char)) :
    empty.feedEach pieces = .ok (ofText pieces.flatten) :=
  feedEach_ofText [] pieces

/-! ## Halving -/

/-- A slot is where the number is, or else between the smaller entries and the greater ones. -/
def Slot.Fits (entries : List Nat) (n : Nat) : Slot → Prop
  | .taken position => entries[position]? = some n
  | .free position => position ≤ entries.length ∧ (∀ m ∈ entries.take position, m < n) ∧
      ∀ m ∈ entries.drop position, n < m

/-- How many entries are not greater than a number that has the slot. -/
def Slot.count : Slot → Nat
  | .taken position => position + 1
  | .free position => position

section Search

variable (hascending : entries.Pairwise (· < ·))

include hascending

/-- Ascending entries around one of them. -/
theorem around_getElem? {entry : Nat} (h : entries[position]? = some entry) :
    (∀ m ∈ entries.take (position + 1), m ≤ entry) ∧ (∀ m ∈ entries.drop position, entry ≤ m) ∧
      ∀ m ∈ entries.drop (position + 1), entry < m := by
  obtain ⟨hposition, hentry⟩ := List.getElem?_eq_some_iff.1 h
  have hdrop : entries.drop position = entry :: entries.drop (position + 1) := by
    rw [List.drop_eq_getElem_cons hposition, hentry]
  rw [← List.take_append_drop position entries, List.pairwise_append, hdrop] at hascending
  obtain ⟨-, hbehind, hfront⟩ := hascending
  -- the entry itself comes first in what is dropped
  have hgreater : ∀ m ∈ entries.drop (position + 1), entry < m :=
    fun _ => List.rel_of_pairwise_cons hbehind
  refine ⟨fun m hm => ?_, fun m hm => ?_, hgreater⟩
  · rw [List.take_add_one, h, List.mem_append] at hm
    rcases hm with hm | hm
    · exact Nat.le_of_lt (hfront m hm entry List.mem_cons_self)
    · exact Nat.le_of_eq (List.mem_singleton.1 hm)
  · rw [hdrop] at hm
    rcases List.mem_cons.1 hm with rfl | hm
    · exact Nat.le_refl m
    · exact Nat.le_of_lt (hgreater m hm)

/-- Halving finds the slot of a number, if all entries that it leaves out are smaller or greater. -/
theorem exists_searchBetween (hhigh : high ≤ entries.length) (hlow : low ≤ high)
    (hsmaller : ∀ m ∈ entries.take low, m < n) (hgreater : ∀ m ∈ entries.drop high, n < m) :
    ∃ slot, searchBetween entries n low high = .ok slot ∧ slot.Fits entries n := by
  fun_induction searchBetween entries n low high with
  | case1 low high hlt middle ihAbove ihBelow =>
      have hmiddle : low ≤ middle ∧ middle < high := by omega
      have hentry : entries[middle]? = some entries[middle] := List.getElem?_eq_getElem (by omega)
      obtain ⟨htake, hdrop, -⟩ := around_getElem? hascending hentry
      rw [entryAt_of_getElem? hentry, ok_bind]
      cases hcompare : compare entries[middle] n with
      | lt =>
          have hless := Nat.compare_eq_lt.1 hcompare
          exact ihAbove hhigh (by omega) (fun m hm => Nat.lt_of_le_of_lt (htake m hm) hless)
            hgreater
      | eq => exact ⟨.taken middle, rfl, (Nat.compare_eq_eq.1 hcompare) ▸ hentry⟩
      | gt =>
          have hmore := Nat.compare_eq_gt.1 hcompare
          exact ihBelow (by omega) hmiddle.1 hsmaller fun m hm =>
            Nat.lt_of_lt_of_le hmore (hdrop m hm)
  | case2 low high hle =>
      obtain rfl : low = high := by omega
      exact ⟨.free low, rfl, hhigh, hsmaller, hgreater⟩

/-- Halving finds a slot for every number. -/
theorem exists_search (n : Nat) : ∃ slot, search entries n = .ok slot ∧ slot.Fits entries n :=
  exists_searchBetween hascending (Nat.le_refl _) (Nat.zero_le _) (by simp) (by simp)

theorem Slot.Fits.splitAt {slot : Slot} (h : slot.Fits entries n) :
    slot.count ≤ entries.length ∧
      LineIndex.SplitAt entries n (entries.take slot.count) (entries.drop slot.count) := by
  cases slot with
  | taken position =>
      obtain ⟨htake, -, hdrop⟩ := around_getElem? hascending h
      exact ⟨(List.getElem?_eq_some_iff.1 h).1, (List.take_append_drop _ _).symm, htake, hdrop⟩
  | free position =>
      obtain ⟨hposition, hsmaller, hgreater⟩ := h
      exact ⟨hposition, (List.take_append_drop _ _).symm, fun m hm => Nat.le_of_lt (hsmaller m hm),
        hgreater⟩

end Search

/-! ## Lines of offsets -/

/-- Every offset divides the lines of a text into those in front of it and those behind. -/
theorem exists_splitAt (text : List Char) (b : Nat) :
    ∃ earlier later, LineIndex.SplitAt (LineIndex.ofText text).starts b earlier later := by
  obtain ⟨slot, -, hfits⟩ := exists_search (LineIndex.pairwise_starts text) b
  exact ⟨_, _, (hfits.splitAt (LineIndex.pairwise_starts text)).2⟩

/-- Either outcome of the search leads to the number of starts that are not behind the offset. -/
theorem lineNumber?_ofText (text : List Char) (b : Nat) :
    (ofText text).lineNumber? b = .ok ((LineIndex.ofText text).lineNumber? b) := by
  have hascending := LineIndex.pairwise_starts text
  obtain ⟨slot, hslot, hfits⟩ := exists_search hascending b
  obtain ⟨hcount, hsplit⟩ := hfits.splitAt hascending
  have hnumber := hsplit.countP_eq
  rw [List.length_take_of_le hcount] at hnumber
  rw [lineNumber?, length_ofText, ok_bind, LineIndex.lineNumber?, LineIndex.length_ofText, hnumber]
  by_cases hb : b ≤ byteLength text
  · rw [if_neg (Nat.not_lt.2 hb), if_pos hb]
    show (search (LineIndex.ofText text).starts b >>= _) = _
    rw [hslot, ok_bind]
    cases slot <;> rfl
  · rw [if_pos (Nat.lt_of_not_le hb), if_neg hb]
    rfl

/-- The index of a text is the same, into whichever pieces the text was cut. -/
theorem foldl_feed_empty (pieces : List (List Char)) :
    pieces.foldl LineIndex.feed .empty = LineIndex.ofText pieces.flatten := by
  induction pieces using List.reverseRecOn with
  | nil => rfl
  | append_singleton pieces piece ih =>
      rw [List.foldl_append, ih, List.foldl_cons, List.foldl_nil, LineIndex.ofText,
        LineIndex.feed_feed, List.flatten_append, List.flatten_singleton]
      rfl

/-- It makes no difference to a table where a text was cut into pieces. Its starts are that of the
text and those right behind the line breaks, and the line of an offset, within a character or not,
is counted by the line breaks among the bytes in front of it. -/
theorem feedEach_counts_breaks (pieces : List (List Char)) :
    ∃ table, empty.feedEach pieces = .ok table ∧ empty.feed pieces.flatten = .ok table ∧
      table.starts.Pairwise (· < ·) ∧ table.starts.head? = some 0 ∧
      (∀ n, n ∈ table.starts ↔ n = 0 ∨ ∃ m, BreakAt m pieces.flatten ∧ n = m + 1) ∧
      table.length = .ok (byteLength pieces.flatten) ∧
      (∀ b, table.lineNumber? b = .ok (if b ≤ byteLength pieces.flatten then
        some (1 + breaksBefore b pieces.flatten) else none)) ∧
      pieces.foldl LineIndex.feed .empty = ⟨table.starts, byteLength pieces.flatten⟩ ∧
      ∀ b, table.lineNumber? b = .ok ((pieces.foldl LineIndex.feed .empty).lineNumber? b) := by
  refine ⟨ofText pieces.flatten, feedEach_empty pieces, feed_ofText [] _,
    LineIndex.pairwise_starts _, rfl,
    fun n => LineIndex.mem_starts_iff, length_ofText _, fun b => ?_, ?_, fun b => ?_⟩
  · rw [lineNumber?_ofText, LineIndex.lineNumber?_eq]
  · rw [foldl_feed_empty, ← LineIndex.length_ofText]
    rfl
  · rw [lineNumber?_ofText, foldl_feed_empty]

example : empty.feedEach ["a\r".toList, "\n♠".toList] = .ok ⟨[0, 3], 3⟩ := by decide

end Railroad.LineTable
