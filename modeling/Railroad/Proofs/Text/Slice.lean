import Railroad.Text.Utf8
set_option autoImplicit false

/-!
# Slices of a text

A cut at a byte offset succeeds where the offset is the length of a beginning of the text. So a
slice is what stands between a beginning and an end (`slice?_eq_some_iff`), and whether a part of a
text is sliced or the whole text at the same place makes no difference (`slice?_within`).
-/

namespace Railroad.Text

/-- What is left behind a cut is an end of the text. -/
theorem eq_append_of_dropBytes? {n : Nat} {cs rest : List Char}
    (h : dropBytes? n cs = some rest) : ∃ before, cs = before ++ rest ∧ n = byteLength before := by
  induction cs generalizing n with
  | nil =>
      rw [dropBytes?] at h
      split at h
      next hn => exact ⟨[], Option.some.inj h, hn⟩
      next => cases h
  | cons c cs ih =>
      rw [dropBytes?] at h
      split at h
      next hn => exact ⟨[], Option.some.inj h, hn⟩
      next =>
        split at h
        next hle =>
          -- the cut is behind the first character
          obtain ⟨before, rfl, hlength⟩ := ih h
          exact ⟨c :: before, rfl, by rw [byteLength_cons]; omega⟩
        next => cases h

/-- What is taken up to a cut is a beginning of the text. -/
theorem eq_append_of_takeBytes? {n : Nat} {cs taken : List Char}
    (h : takeBytes? n cs = some taken) : ∃ after, cs = taken ++ after ∧ n = byteLength taken := by
  induction cs generalizing n taken with
  | nil =>
      rw [takeBytes?] at h
      split at h
      next hn =>
        obtain rfl := Option.some.inj h
        exact ⟨[], rfl, hn⟩
      next => cases h
  | cons c cs ih =>
      rw [takeBytes?] at h
      split at h
      next hn =>
        obtain rfl := Option.some.inj h
        exact ⟨c :: cs, rfl, hn⟩
      next =>
        split at h
        next hle =>
          obtain ⟨more, hmore, rfl⟩ := Option.map_eq_some_iff.1 h
          obtain ⟨after, rfl, hlength⟩ := ih hmore
          exact ⟨after, rfl, by rw [byteLength_cons]; omega⟩
        next => cases h

/-- A slice is what stands between a beginning and an end of the text that have the right
lengths. -/
theorem slice?_eq_some_iff {start stop : Nat} {src cs : List Char} :
    slice? start stop src = some cs ↔ ∃ before after, src = before ++ cs ++ after ∧
      start = byteLength before ∧ stop = byteLength (before ++ cs) := by
  constructor
  · intro h
    rw [slice?] at h
    split at h
    next hle =>
      obtain ⟨rest, hrest, htake⟩ := Option.bind_eq_some_iff.1 h
      obtain ⟨before, rfl, rfl⟩ := eq_append_of_dropBytes? hrest
      obtain ⟨after, rfl, hlength⟩ := eq_append_of_takeBytes? htake
      refine ⟨before, after, by rw [List.append_assoc], rfl, ?_⟩
      rw [byteLength_append]
      omega
    next => cases h
  · rintro ⟨before, after, rfl, rfl, rfl⟩
    rw [slice?, if_pos (by simp), List.append_assoc, dropBytes?_byteLength_append,
      Option.bind_some, byteLength_append, Nat.add_sub_cancel_left, takeBytes?_byteLength_append]

/-! ## Slices of a part -/

/-- A cut behind the first part of a text is a cut of the second part. -/
theorem dropBytes?_add_append (xs ys : List Char) (n : Nat) :
    dropBytes? (byteLength xs + n) (xs ++ ys) = dropBytes? n ys := by
  induction xs with
  | nil => rw [byteLength_nil, Nat.zero_add, List.nil_append]
  | cons c xs ih =>
      have hpos := c.utf8Size_pos
      rw [byteLength_cons, List.cons_append, dropBytes?, if_neg (by omega), if_pos (by omega), ← ih]
      congr 1
      omega

/-- A cut in the first part of a text leaves the second part whole, -/
theorem dropBytes?_append {n : Nat} {xs : List Char} (h : n ≤ byteLength xs) (ys : List Char) :
    dropBytes? n (xs ++ ys) = (dropBytes? n xs).map (· ++ ys) := by
  induction xs generalizing n with
  | nil =>
      obtain rfl : n = 0 := Nat.eq_zero_of_le_zero h
      simp
  | cons c xs ih =>
      rw [byteLength_cons] at h
      rw [List.cons_append, dropBytes?, dropBytes?]
      by_cases hzero : n = 0
      · simp [hzero]
      · by_cases hc : c.utf8Size ≤ n
        · simp only [hzero, hc, if_true, if_false]
          exact ih (by omega)
        · simp [hzero, hc]

/-- and takes nothing of it. -/
theorem takeBytes?_append {n : Nat} {xs : List Char} (h : n ≤ byteLength xs) (ys : List Char) :
    takeBytes? n (xs ++ ys) = takeBytes? n xs := by
  induction xs generalizing n with
  | nil =>
      obtain rfl : n = 0 := Nat.eq_zero_of_le_zero h
      simp
  | cons c xs ih =>
      rw [byteLength_cons] at h
      rw [List.cons_append, takeBytes?, takeBytes?]
      by_cases hzero : n = 0
      · simp [hzero]
      · by_cases hc : c.utf8Size ≤ n
        · simp only [hzero, hc, if_true, if_false]
          rw [ih (by omega)]
        · simp [hzero, hc]

/-- Slices that end in the first part of a text are slices of the first part. -/
theorem slice?_append_left {start stop : Nat} {xs : List Char} (h : stop ≤ byteLength xs)
    (ys : List Char) : slice? start stop (xs ++ ys) = slice? start stop xs := by
  rw [slice?, slice?]
  by_cases hle : start ≤ stop
  · rw [if_pos hle, if_pos hle, dropBytes?_append (Nat.le_trans hle h)]
    -- the slice begins in the first part, and so it ends there too
    cases hrest : dropBytes? start xs with
    | none => rfl
    | some rest =>
        obtain ⟨before, rfl, rfl⟩ := eq_append_of_dropBytes? hrest
        rw [byteLength_append] at h
        exact takeBytes?_append (by omega) ys
  · rw [if_neg hle, if_neg hle]

/-- Slices that begin in the second part of a text are slices of the second part. -/
theorem slice?_append_right (xs ys : List Char) (start stop : Nat) :
    slice? (byteLength xs + start) (byteLength xs + stop) (xs ++ ys) = slice? start stop ys := by
  rw [slice?, slice?, dropBytes?_add_append]
  by_cases hle : start ≤ stop
  · rw [if_pos hle, if_pos (Nat.add_le_add_left hle _), Nat.add_sub_add_left]
  · rw [if_neg hle, if_neg (by omega)]

/-- A part of a text is sliced like the whole text at the same place. -/
theorem slice?_within {start stop : Nat} {line : List Char} (h : stop ≤ byteLength line)
    (earlier later : List Char) :
    slice? (byteLength earlier + start) (byteLength earlier + stop) (earlier ++ line ++ later) =
      slice? start stop line := by
  rw [List.append_assoc, slice?_append_right, slice?_append_left h]

end Railroad.Text
