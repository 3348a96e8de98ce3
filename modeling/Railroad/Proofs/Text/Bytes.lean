import Mathlib.Tactic.SplitIfs
import Railroad.Text.Utf8
set_option autoImplicit false

/-!
# The bytes of a text

Offsets count the bytes of a text, and every byte has one, also in the middle of a character. A line
break is known by its byte alone, since that byte belongs to no other character
(`breakByte_notMem`). So the line breaks of a text can be found (`breakAt_cons`) and counted
(`breaksBefore_cons`) byte by byte, wherever its characters begin.
-/

namespace Railroad.Text

variable {n : Nat} {c : Char} {cs : List Char}

/-- The UTF-8 encoding of a text. -/
def bytes (cs : List Char) : List UInt8 := cs.flatMap String.utf8EncodeChar

/-- The byte of a line break. -/
def breakByte : UInt8 := 10

/-- The byte at an offset of a text is a line break. -/
def BreakAt (n : Nat) (cs : List Char) : Prop := (bytes cs)[n]? = some breakByte

instance (n : Nat) (cs : List Char) : Decidable (BreakAt n cs) :=
  inferInstanceAs (Decidable ((bytes cs)[n]? = some breakByte))

/-- How many of the first `n` bytes of a text are line breaks. -/
def breaksBefore (n : Nat) (cs : List Char) : Nat := ((bytes cs).take n).count breakByte

theorem bytes_cons (c : Char) (cs : List Char) :
    bytes (c :: cs) = String.utf8EncodeChar c ++ bytes cs :=
  List.flatMap_cons

/-- A text has as many bytes as its characters together. -/
theorem length_bytes (cs : List Char) : (bytes cs).length = byteLength cs := by
  induction cs with
  | nil => rfl
  | cons c cs ih =>
      rw [bytes_cons, List.length_append, String.length_utf8EncodeChar, ih, byteLength_cons]

theorem breakByte_eq_ofNat {k : Nat} : breakByte = UInt8.ofNat k ↔ k % 256 = 10 := by
  rw [← UInt8.toNat_inj, UInt8.toNat_ofNat', eq_comm]
  rfl

/-- No other character has the byte of a line break in its encoding. -/
theorem breakByte_notMem (hc : c ≠ '\n') : breakByte ∉ String.utf8EncodeChar c := by
  have hcode : c.val.toNat ≠ 10 := fun h => hc (Char.toNat_inj.1 h)
  intro hmem
  -- a character of one byte is that byte, and encodings of more bytes consist of bytes from 128 on
  rw [String.utf8EncodeChar] at hmem
  split_ifs at hmem <;>
    simp only [List.mem_cons, List.not_mem_nil, or_false, breakByte_eq_ofNat] at hmem <;> omega

/-- There is no line break in an empty text. -/
theorem not_breakAt_nil : ¬ BreakAt n [] := by
  simp [BreakAt, bytes]

/-- A line break of a text is its first character or behind it. -/
theorem breakAt_cons :
    BreakAt n (c :: cs) ↔ c = '\n' ∧ n = 0 ∨ c.utf8Size ≤ n ∧ BreakAt (n - c.utf8Size) cs := by
  have hlength := String.length_utf8EncodeChar c
  rw [BreakAt, bytes_cons, BreakAt]
  rcases Nat.lt_or_ge n c.utf8Size with hlt | hge
  · -- the byte is one of the first character
    rw [List.getElem?_append_left (by omega)]
    have hbehind : ¬ c.utf8Size ≤ n := Nat.not_le.2 hlt
    by_cases hc : c = '\n'
    · have hzero : n = 0 := by
        rw [hc] at hlt
        exact Nat.lt_one_iff.1 hlt
      simp [hc, hzero]
      decide
    · have hbyte : (String.utf8EncodeChar c)[n]? ≠ some breakByte :=
        fun h => breakByte_notMem hc (List.mem_of_getElem? h)
      simp [hc, hbehind, hbyte]
  · have hpos := c.utf8Size_pos
    have hfirst : n ≠ 0 := by omega
    rw [List.getElem?_append_right (by omega), hlength]
    simp [hge, hfirst]

/-- The line breaks of a text are its first character, if it is one, and those behind it. -/
theorem breaksBefore_cons (n : Nat) (c : Char) (cs : List Char) :
    breaksBefore n (c :: cs) =
      (if c = '\n' ∧ 0 < n then 1 else 0) + breaksBefore (n - c.utf8Size) cs := by
  have hlength := String.length_utf8EncodeChar c
  rw [breaksBefore, breaksBefore, bytes_cons, List.take_append, List.count_append, hlength]
  congr 1
  by_cases hc : c = '\n'
  · have hencoded : String.utf8EncodeChar '\n' = [breakByte] := rfl
    rw [hc, hencoded]
    cases n with
    | zero => rfl
    | succ n => simp
  · have hnone : breakByte ∉ (String.utf8EncodeChar c).take n :=
      fun h => breakByte_notMem hc (List.mem_of_mem_take h)
    rw [List.count_eq_zero.2 hnone, if_neg fun h => hc h.1]

end Railroad.Text
