import Mathlib.Data.Nat.Digits.Defs
import Railroad.Text.Blank
import Railroad.Text.Hex
set_option autoImplicit false

/-!
# Hexadecimal numbers are read back

The digits of a number are read as that number, also behind any number of zeros
(`hexNumber?_hexDigits`). Padded with zeros, the number of a control character has four digits.
-/

namespace Railroad.Text

/-- A number with one more digit in base 16. -/
def appendDigit (n : Nat) (c : Char) : Option Nat := (hexDigit? c).map (16 * n + ·)

theorem hexNumber?_eq {digits : List Char} (h : digits ≠ []) :
    hexNumber? digits = digits.foldlM appendDigit 0 := by
  rw [hexNumber?, if_neg (by simpa using h)]
  rfl

/-- Each digit is read back. -/
theorem hexDigit?_digitChar : ∀ d < 16, hexDigit? d.digitChar = some d := by decide

theorem hexDigits_of_lt {n : Nat} (h : n < 16) : hexDigits n = [n.digitChar] :=
  Nat.toDigits_of_lt_base h

/-- The digits of a number from 16 on are those of its sixteenth and a last digit. -/
theorem hexDigits_of_le {n : Nat} (h : 16 ≤ n) :
    hexDigits n = hexDigits (n / 16) ++ [(n % 16).digitChar] := by
  have hlast : n % 16 < 16 := Nat.mod_lt n (by decide)
  have happend := Nat.toDigits_append_toDigits (b := 16) (n := n / 16) (by decide)
    (Nat.div_pos h (by decide)) hlast
  rw [Nat.div_add_mod, Nat.toDigits_of_lt_base hlast] at happend
  exact happend.symm

/-- A number is written with digits only. -/
theorem exists_digit_of_mem_hexDigits {n : Nat} {c : Char} (h : c ∈ hexDigits n) :
    ∃ d < 16, c = d.digitChar := by
  induction n using Nat.strong_induction_on with
  | _ n ih =>
      by_cases hn : n < 16
      · rw [hexDigits_of_lt hn, List.mem_singleton] at h
        exact ⟨n, hn, h⟩
      · rw [hexDigits_of_le (by omega), List.mem_append, List.mem_singleton] at h
        rcases h with h | h
        · exact ih (n / 16) (by omega) h
        · exact ⟨n % 16, Nat.mod_lt n (by decide), h⟩

/-- The digits of a number add up to it. -/
theorem foldlM_hexDigits (n : Nat) : (hexDigits n).foldlM appendDigit 0 = some n := by
  -- the last digit is appended to the number that the digits before it are read as
  induction n using Nat.strong_induction_on with
  | _ n ih =>
      by_cases hn : n < 16
      · rw [hexDigits_of_lt hn, List.foldlM_cons, appendDigit, hexDigit?_digitChar n hn]
        simp
      · have hlast : n % 16 < 16 := Nat.mod_lt n (by decide)
        rw [hexDigits_of_le (by omega), List.foldlM_append, ih (n / 16) (by omega),
          Option.bind_eq_bind, Option.bind_some, List.foldlM_cons, appendDigit,
          hexDigit?_digitChar _ hlast, Option.map_some, Nat.div_add_mod]
        rfl

theorem hexDigits_ne_nil (n : Nat) : hexDigits n ≠ [] := by
  by_cases hn : n < 16
  · simp [hexDigits_of_lt hn]
  · simp [hexDigits_of_le (n := n) (by omega)]

/-- Behind any number of zeros, the digits of a number are read as that number. -/
theorem hexNumber?_hexDigits (zeros n : Nat) :
    hexNumber? (List.replicate zeros '0' ++ hexDigits n) = some n := by
  rw [hexNumber?_eq (by simp [hexDigits_ne_nil]), List.foldlM_append]
  have hzeros : (List.replicate zeros '0').foldlM appendDigit 0 = some 0 := by
    induction zeros with
    | zero => rfl
    | succ zeros ih =>
        have hzero : appendDigit 0 '0' = some 0 := by decide
        rw [List.replicate_succ, List.foldlM_cons, hzero, Option.bind_eq_bind, Option.bind_some, ih]
  rw [hzeros, Option.bind_eq_bind, Option.bind_some, foldlM_hexDigits]

/-- A number below 16⁴ is written with four digits, the zeros in front of it included. -/
theorem length_padded_hexDigits {n : Nat} (h : n < 16 ^ 4) :
    (List.replicate (4 - (hexDigits n).length) '0' ++ hexDigits n).length = 4 := by
  have hlength : (hexDigits n).length ≤ 4 :=
    (Nat.length_toDigits_le_iff (by decide) (by decide)).2 h
  rw [List.length_append, List.length_replicate]
  omega

/-- The number of a character is that of a code point. -/
theorem charOfCode?_toNat (c : Char) : charOfCode? c.toNat = some c := by
  have hvalid : c.toNat.isValidChar := c.valid
  rw [charOfCode?, if_pos hvalid, Char.ofNat_toNat]

/-- Control characters have small numbers. -/
theorem toNat_lt_of_isControl {c : Char} (h : isControl c = true) : c.toNat < 16 ^ 4 := by
  simp only [isControl, Bool.or_eq_true, Bool.and_eq_true, decide_eq_true_eq] at h
  omega

end Railroad.Text
