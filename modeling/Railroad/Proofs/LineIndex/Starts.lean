import Mathlib.Order.Bounds.Defs
import Railroad.Proofs.LineIndex
import Railroad.Proofs.Text.Bytes
set_option autoImplicit false

/-!
# Starts of lines, byte by byte

The lines of a text begin at its start and behind the bytes of its line breaks (`mem_starts_iff`),
in ascending order (`pairwise_starts`). As many of them begin at an offset or in front of it as
there are line breaks in front of the offset, and one more (`lineNumber?_eq`). Every offset, on a
character boundary or not, divides the starts into those that are not behind it and those that are
(`SplitAt`). The last of the former is where the line of the offset begins
(`SplitAt.isGreatest_startOfLine`), and the first of the latter is where the next line does
(`SplitAt.isLeast_endOfLine`).
-/

namespace Railroad.LineIndex

open Text

variable {base b m n : Nat} {cs text : List Char}

/-! ## Starts and bytes -/

/-- The lines of a text, its first one apart, begin behind the bytes of its line breaks. -/
theorem mem_startsFrom_iff :
    n ∈ startsFrom base cs ↔ ∃ m, BreakAt m cs ∧ n = base + m + 1 := by
  induction cs generalizing base with
  | nil => simp [startsFrom, not_breakAt_nil]
  | cons c cs ih =>
      -- behind the first character line breaks are counted from its end
      have hrest : n ∈ startsFrom (base + c.utf8Size) cs ↔
          ∃ m, (c.utf8Size ≤ m ∧ BreakAt (m - c.utf8Size) cs) ∧ n = base + m + 1 := by
        rw [ih]
        constructor
        · rintro ⟨m, hm, rfl⟩
          exact ⟨c.utf8Size + m, ⟨by omega, by rwa [Nat.add_sub_cancel_left]⟩, by omega⟩
        · rintro ⟨m, ⟨hle, hm⟩, rfl⟩
          exact ⟨m - c.utf8Size, hm, by omega⟩
      simp only [breakAt_cons, or_and_right, exists_or, ← hrest]
      rw [startsFrom]
      by_cases hc : c = '\n'
      · have hsize : Char.utf8Size '\n' = 1 := rfl
        rw [if_pos hc, List.mem_cons, hc, hsize]
        simp
      · simp [hc]

/-- The lines that begin at or in front of an offset are counted by the line breaks in front of
it. -/
theorem countP_startsFrom (base b : Nat) (cs : List Char) :
    (startsFrom base cs).countP (· ≤ base + b) = breaksBefore b cs := by
  induction cs generalizing base b with
  | nil => simp [startsFrom, breaksBefore, bytes]
  | cons c cs ih =>
      have hpos := c.utf8Size_pos
      -- the starts behind the first character are counted from its end
      have hrest : (startsFrom (base + c.utf8Size) cs).countP (· ≤ base + b) =
          breaksBefore (b - c.utf8Size) cs := by
        rw [← ih (base + c.utf8Size)]
        refine List.countP_congr fun n hn => ?_
        have hlow := (bounds_of_mem_startsFrom hn).1
        simp only [decide_eq_true_eq]
        omega
      rw [startsFrom, breaksBefore_cons]
      by_cases hc : c = '\n'
      · have hsize : Char.utf8Size '\n' = 1 := rfl
        rw [hc, hsize] at hrest ⊢
        rw [if_pos rfl, List.countP_cons, hrest, Nat.add_comm]
        congr 1
        simp [Nat.pos_iff_ne_zero, Nat.one_le_iff_ne_zero]
      · rw [if_neg hc, hrest, if_neg fun h => hc h.1, Nat.zero_add]

theorem starts_ofText (text : List Char) : (ofText text).starts = 0 :: startsFrom 0 text := rfl

/-- Lines begin at the start of a text and behind the bytes of its line breaks. -/
theorem mem_starts_iff : n ∈ (ofText text).starts ↔ n = 0 ∨ ∃ m, BreakAt m text ∧ n = m + 1 := by
  rw [starts_ofText, List.mem_cons, mem_startsFrom_iff]
  simp only [Nat.zero_add]

/-- The lines that begin at or in front of an offset are the first one and one for each line break
in front of it. -/
theorem countP_starts (b : Nat) (text : List Char) :
    (ofText text).starts.countP (· ≤ b) = 1 + breaksBefore b text := by
  have hrest := countP_startsFrom 0 b text
  rw [Nat.zero_add] at hrest
  rw [starts_ofText, List.countP_cons, hrest, Nat.add_comm]
  simp

/-- The line of an offset is counted by the line breaks among the bytes in front of it. -/
theorem lineNumber?_eq (text : List Char) (b : Nat) : (ofText text).lineNumber? b =
    if b ≤ byteLength text then some (1 + breaksBefore b text) else none := by
  rw [lineNumber?, length_ofText, countP_starts]

/-- Each line begins behind the one before it. -/
theorem pairwise_startsFrom (base : Nat) (cs : List Char) :
    (startsFrom base cs).Pairwise (· < ·) := by
  induction cs generalizing base with
  | nil => exact .nil
  | cons c cs ih =>
      rw [startsFrom]
      split
      · exact .cons (fun n hn => (bounds_of_mem_startsFrom hn).1) (ih _)
      · exact ih _

theorem pairwise_starts (text : List Char) : (ofText text).starts.Pairwise (· < ·) :=
  .cons (fun _ hn => (bounds_of_mem_startsFrom hn).1) (pairwise_startsFrom 0 text)

/-! ## Starts divided at an offset -/

namespace SplitAt

variable {earlier later : List Nat} (h : SplitAt (ofText text).starts b earlier later)

include h

/-- The number of a line is how many lines begin at the offset or in front of it. -/
theorem lineNumber?_eq (hb : b ≤ byteLength text) :
    (ofText text).lineNumber? b = some earlier.length := by
  rw [lineNumber?, length_ofText, if_pos hb, h.countP_eq]

theorem ne_nil : earlier ≠ [] := by
  rintro rfl
  have hnone := h.countP_eq
  rw [countP_starts, List.length_nil] at hnone
  omega

/-- The line of an offset is the last of those that begin there or in front of it. -/
theorem startOfLine_eq : some ((ofText text).startOfLine b) = earlier.getLast? := by
  rw [startOfLine, h.takeWhile_eq, List.getLast?_eq_some_getLast h.ne_nil, Option.getD_some]

/-- The line of an offset begins behind the last line break in front of the offset. -/
theorem isGreatest_startOfLine :
    IsGreatest {n | n = 0 ∨ ∃ m < b, BreakAt m text ∧ n = m + 1} ((ofText text).startOfLine b) := by
  obtain ⟨front, hfront⟩ := List.getLast?_eq_some_iff.1 h.startOfLine_eq.symm
  have hlast : (ofText text).startOfLine b ∈ earlier := by simp [hfront]
  have hascending := h.eq ▸ pairwise_starts text
  constructor
  · have hle := h.le _ hlast
    -- the start is one of a line, and not behind the offset
    have hmem : (ofText text).startOfLine b ∈ (ofText text).starts :=
      h.eq ▸ List.mem_append_left later hlast
    rcases mem_starts_iff.1 hmem with hzero | ⟨m, hm, heq⟩
    · exact .inl hzero
    · exact .inr ⟨m, by omega, hm, heq⟩
  · intro n hn
    have hb : n ≤ b := by
      rcases hn with rfl | ⟨m, hm, -, rfl⟩
      · exact Nat.zero_le b
      · exact hm
    have hmem : n ∈ (ofText text).starts :=
      mem_starts_iff.2 (hn.imp_right fun ⟨m, _, hbreak, heq⟩ => ⟨m, hbreak, heq⟩)
    rw [h.eq, List.mem_append] at hmem
    rcases hmem with hmem | hmem
    · -- the starts up to the offset ascend to the last of them
      rw [hfront] at hmem hascending
      rcases List.mem_append.1 hmem with hmem | hmem
      · have hpairs := (List.pairwise_append.1 (List.pairwise_append.1 hascending).1).2.2
        exact Nat.le_of_lt (hpairs n hmem _ List.mem_cons_self)
      · exact Nat.le_of_eq (List.mem_singleton.1 hmem)
    · exact absurd hb (Nat.not_le.2 (h.lt n hmem))

/-- The line of an offset begins there or in front of it. -/
theorem startOfLine_le : (ofText text).startOfLine b ≤ b := by
  rcases h.isGreatest_startOfLine.1 with hzero | ⟨m, hm, -, hbehind⟩ <;> omega

/-- The line of an offset ends in front of the first line break that is not in front of the
offset. -/
theorem isLeast_endOfLine :
    IsLeast {n | n = byteLength text ∨ b ≤ n ∧ BreakAt n text} ((ofText text).endOfLine b) := by
  -- a line break that is not in front of the offset has its line behind it
  have hbehind {n : Nat} (hn : b ≤ n) (hbreak : BreakAt n text) : n + 1 ∈ later := by
    have hmem : n + 1 ∈ (ofText text).starts := mem_starts_iff.2 (.inr ⟨n, hbreak, rfl⟩)
    rw [h.eq, List.mem_append] at hmem
    exact hmem.resolve_left fun hmem => by
      have hle := h.le _ hmem
      omega
  rw [endOfLine, h.find?_eq, length_ofText]
  cases hlater : later with
  | nil =>
      refine ⟨.inl rfl, ?_⟩
      rintro n (rfl | ⟨hn, hbreak⟩)
      · exact Nat.le_refl _
      · exact absurd (hlater ▸ hbehind hn hbreak) List.not_mem_nil
  | cons next rest =>
      have hnext : next ∈ later := hlater ▸ List.mem_cons_self
      have hlt := h.lt next hnext
      have hmem : next ∈ (ofText text).starts := h.eq ▸ List.mem_append_right earlier hnext
      obtain ⟨m, hm, rfl⟩ := (mem_starts_iff.1 hmem).resolve_left (by omega)
      refine ⟨.inr ⟨by simpa using Nat.le_of_lt_succ hlt, hm⟩, ?_⟩
      rintro n (rfl | ⟨hn, hbreak⟩)
      · have hinside := (List.getElem?_eq_some_iff.1 hm).1
        rw [length_bytes] at hinside
        exact Nat.le_of_lt hinside
      · -- the next line begins first of those behind the offset
        have hascending := (List.pairwise_append.1 (h.eq ▸ pairwise_starts text)).2.1
        rw [hlater] at hascending
        rcases List.mem_cons.1 (hlater ▸ hbehind hn hbreak) with heq | hrest
        · exact Nat.le_of_eq (Nat.succ.inj heq).symm
        · have hlt := List.rel_of_pairwise_cons hascending hrest
          show m ≤ n
          omega

theorem le_endOfLine (hb : b ≤ byteLength text) : b ≤ (ofText text).endOfLine b := by
  rcases h.isLeast_endOfLine.1 with hend | ⟨hle, -⟩ <;> omega

end SplitAt

end Railroad.LineIndex
