import Railroad.Proofs.Text.Slice
set_option autoImplicit false

/-!
# Character boundaries

A text can be cut at a byte offset that is the length of one of its beginnings
(`isSome_slice?_iff`). Any other offset that is not beyond the text cuts a character in two. Which
offsets do so is known part by part (`cutsChar_append`), and a part of characters of one byte has
none.

`between` picks the characters of a text by the offsets at which they begin. It needs no boundaries.
-/

namespace Railroad.Text

variable {n start stop base : Nat} {c : Char} {cs xs ys : List Char}

/-- An offset between two characters of a text or at one of its ends. -/
def IsBoundary (n : Nat) (cs : List Char) : Prop :=
  ∃ before after, cs = before ++ after ∧ n = byteLength before

/-- An offset in a text that is not on a character boundary. -/
def CutsChar (n : Nat) (cs : List Char) : Prop := n < byteLength cs ∧ ¬ IsBoundary n cs

/-- Of a text that itself begins at offset `base`, the characters that begin at offset `start` or
behind it, but in front of offset `stop`. -/
def between (start stop : Nat) : Nat → List Char → List Char
  | _, [] => []
  | base, c :: cs =>
      if start ≤ base ∧ base < stop then c :: between start stop (base + c.utf8Size) cs
      else between start stop (base + c.utf8Size) cs

/-! ## Cut characters -/

theorem isBoundary_zero (cs : List Char) : IsBoundary 0 cs := ⟨[], cs, rfl, rfl⟩

theorem isBoundary_byteLength (cs : List Char) : IsBoundary (byteLength cs) cs :=
  ⟨cs, [], (List.append_nil cs).symm, rfl⟩

/-- A boundary is in front of the first character or behind it. -/
theorem isBoundary_cons :
    IsBoundary n (c :: cs) ↔ n = 0 ∨ c.utf8Size ≤ n ∧ IsBoundary (n - c.utf8Size) cs := by
  constructor
  · rintro ⟨before, after, hsplit, rfl⟩
    cases before with
    | nil => exact .inl rfl
    | cons d before =>
        obtain ⟨rfl, rfl⟩ := List.cons.inj hsplit
        refine .inr ⟨by simp, before, after, rfl, by simp⟩
  · rintro (rfl | ⟨hle, before, after, rfl, hlength⟩)
    · exact isBoundary_zero _
    · exact ⟨c :: before, after, rfl, by rw [byteLength_cons]; omega⟩

theorem not_cutsChar_nil : ¬ CutsChar n [] := fun h => Nat.not_lt_zero _ h.1

/-- An offset cuts the first character, or one of those behind it. -/
theorem cutsChar_cons :
    CutsChar n (c :: cs) ↔ (0 < n ∧ n < c.utf8Size) ∨ CutsChar (n - c.utf8Size) cs := by
  rw [CutsChar, CutsChar, isBoundary_cons, byteLength_cons]
  by_cases hle : c.utf8Size ≤ n
  · -- the offset is behind the first character
    have hpos := c.utf8Size_pos
    simp only [hle, true_and]
    constructor
    · rintro ⟨hlt, hcut⟩
      exact .inr ⟨by omega, fun h => hcut (.inr h)⟩
    · rintro (⟨-, hlt⟩ | ⟨hlt, hcut⟩)
      · omega
      · exact ⟨by omega, fun h => h.elim (fun hzero => by omega) hcut⟩
  · have hzero : n - c.utf8Size = 0 := by omega
    have hstart := isBoundary_zero cs
    simp only [hle, hzero, hstart, false_and, or_false, not_true, and_false]
    omega

/-- A character of a text that is cut in two belongs to one of the parts of the text. -/
theorem cutsChar_append (xs ys : List Char) :
    CutsChar n (xs ++ ys) ↔ CutsChar n xs ∨ CutsChar (n - byteLength xs) ys := by
  induction xs generalizing n with
  | nil => simp [not_cutsChar_nil]
  | cons c xs ih =>
      rw [List.cons_append, cutsChar_cons, cutsChar_cons, ih, byteLength_cons, Nat.sub_sub,
        or_assoc]

/-- A character of one byte cannot be cut. -/
theorem not_cutsChar_of_ascii (h : c.utf8Size = 1) : ¬ CutsChar n [c] := by
  rw [cutsChar_cons]
  rintro (⟨hlow, hhigh⟩ | hcut)
  · omega
  · exact not_cutsChar_nil hcut

/-- Cut back to the end of the text, an offset that cuts no character is a boundary. -/
theorem isBoundary_min_iff : IsBoundary (min n (byteLength cs)) cs ↔ ¬ CutsChar n cs := by
  rw [CutsChar]
  rcases Nat.lt_or_ge n (byteLength cs) with hlt | hge
  · rw [Nat.min_eq_left (Nat.le_of_lt hlt)]
    simp [hlt]
  · rw [Nat.min_eq_right hge]
    simp [isBoundary_byteLength, Nat.not_lt.2 hge]

/-- A text can be sliced at two boundaries that are in order. -/
theorem isSome_slice?_iff :
    (slice? start stop cs).isSome ↔ start ≤ stop ∧ IsBoundary start cs ∧ IsBoundary stop cs := by
  rw [Option.isSome_iff_exists]
  constructor
  · rintro ⟨marked, h⟩
    obtain ⟨before, after, rfl, rfl, rfl⟩ := slice?_eq_some_iff.1 h
    exact ⟨by simp, ⟨before, marked ++ after, by simp, rfl⟩, ⟨before ++ marked, after, rfl, rfl⟩⟩
  · rintro ⟨hle, ⟨before, rest, rfl, rfl⟩, ⟨front, after, hsplit, rfl⟩⟩
    -- of two beginnings of a text one is a beginning of the other
    rcases List.append_eq_append_iff.1 hsplit with ⟨marked, rfl, rfl⟩ | ⟨more, rfl, rfl⟩
    · exact ⟨marked, slice?_eq_some_iff.2 ⟨before, after, by simp, rfl, rfl⟩⟩
    · -- nothing of the text is left between the two boundaries
      refine ⟨[], slice?_eq_some_iff.2 ⟨front ++ more, rest, by simp, rfl, ?_⟩⟩
      rw [byteLength_append] at hle
      rw [List.append_nil, byteLength_append]
      omega

/-! ## Characters between two offsets -/

/-- The characters between two offsets are picked part by part. -/
theorem between_append (start stop base : Nat) (xs ys : List Char) :
    between start stop base (xs ++ ys) =
      between start stop base xs ++ between start stop (base + byteLength xs) ys := by
  induction xs generalizing base with
  | nil => rfl
  | cons c xs ih =>
      rw [List.cons_append, between, between, ih, byteLength_cons, Nat.add_assoc]
      split <;> rfl

/-- All characters of a part are picked if it lies between the offsets, -/
theorem between_eq_self (cs : List Char) (hstart : start ≤ base ∨ byteLength cs = 0)
    (hstop : byteLength cs ≤ stop - base) : between start stop base cs = cs := by
  induction cs generalizing base with
  | nil => rfl
  | cons c cs ih =>
      have hpos := c.utf8Size_pos
      rw [byteLength_cons] at hstart hstop
      rw [between, if_pos ⟨by omega, by omega⟩, ih (by omega) (by omega)]

/-- and none of them if it lies in front of both or behind both. -/
theorem between_eq_nil (cs : List Char)
    (h : byteLength cs = 0 ∨ base + byteLength cs ≤ start ∨ stop ≤ base) :
    between start stop base cs = [] := by
  induction cs generalizing base with
  | nil => rfl
  | cons c cs ih =>
      have hpos := c.utf8Size_pos
      rw [byteLength_cons] at h
      rw [between, if_neg (by omega), ih (by omega)]

end Railroad.Text
