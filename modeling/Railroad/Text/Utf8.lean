set_option autoImplicit false

/-!
# Byte offsets into a text

Positions in a grammar text are offsets into its UTF-8 encoding, while the text itself is a list of
characters. This file measures characters in bytes (`byteLength`) and cuts a text at a byte offset
(`takeBytes?`, `dropBytes?`, `slice?`). A cut answers `none` when the offset lies beyond the text or
inside a character. `dropBytes?_byteLength_append` and `takeBytes?_byteLength_append` say that a cut
at the length of a beginning gives back that beginning and what follows it.
-/

namespace Railroad.Text

/-- Number of bytes in the UTF-8 encoding of a list of characters. -/
def byteLength : List Char → Nat
  | [] => 0
  | c :: cs => c.utf8Size + byteLength cs

@[simp] theorem byteLength_nil : byteLength [] = 0 := rfl

@[simp] theorem byteLength_cons (c : Char) (cs : List Char) :
    byteLength (c :: cs) = c.utf8Size + byteLength cs := rfl

/-- Parts of a text are measured one by one. -/
@[simp] theorem byteLength_append (xs ys : List Char) :
    byteLength (xs ++ ys) = byteLength xs + byteLength ys := by
  induction xs with
  | nil => simp
  | cons c cs ih => simp [ih, Nat.add_assoc]

/-- The text after its first `n` bytes. -/
def dropBytes? (n : Nat) : List Char → Option (List Char)
  | [] => if n = 0 then some [] else none
  | c :: cs =>
      if n = 0 then some (c :: cs)
      else if c.utf8Size ≤ n then dropBytes? (n - c.utf8Size) cs
      else none

/-- The first `n` bytes of the text. -/
def takeBytes? (n : Nat) : List Char → Option (List Char)
  | [] => if n = 0 then some [] else none
  | c :: cs =>
      if n = 0 then some []
      else if c.utf8Size ≤ n then (takeBytes? (n - c.utf8Size) cs).map (c :: ·)
      else none

/-- The text from byte `start` up to byte `stop`. -/
def slice? (start stop : Nat) (cs : List Char) : Option (List Char) :=
  if start ≤ stop then (dropBytes? start cs).bind (takeBytes? (stop - start)) else none

/-- The character that begins at byte `n`. -/
def charAt? (n : Nat) (cs : List Char) : Option Char :=
  (dropBytes? n cs).bind List.head?

@[simp] theorem dropBytes?_zero (cs : List Char) : dropBytes? 0 cs = some cs := by
  cases cs <;> simp [dropBytes?]

@[simp] theorem takeBytes?_zero (cs : List Char) : takeBytes? 0 cs = some [] := by
  cases cs <;> simp [takeBytes?]

/-- What follows a beginning is left when its bytes are dropped, -/
theorem dropBytes?_byteLength_append (xs ys : List Char) :
    dropBytes? (byteLength xs) (xs ++ ys) = some ys := by
  induction xs with
  | nil => simp
  | cons c cs ih =>
      have hc : c.utf8Size ≠ 0 := Nat.ne_of_gt c.utf8Size_pos
      simp [dropBytes?, hc, ih]

/-- and the beginning is what is taken. -/
theorem takeBytes?_byteLength_append (xs ys : List Char) :
    takeBytes? (byteLength xs) (xs ++ ys) = some xs := by
  induction xs with
  | nil => simp
  | cons c cs ih =>
      have hc : c.utf8Size ≠ 0 := Nat.ne_of_gt c.utf8Size_pos
      simp [takeBytes?, hc, ih]

/-- The character at the end of a beginning is the first one behind it. -/
theorem charAt?_byteLength_append (xs ys : List Char) :
    charAt? (byteLength xs) (xs ++ ys) = ys.head? := by
  rw [charAt?, dropBytes?_byteLength_append]
  rfl

/-- Beginnings of one text that are equally long are equal. -/
theorem eq_of_byteLength_eq {xs ys cs : List Char} (hx : xs <+: cs) (hy : ys <+: cs)
    (h : byteLength xs = byteLength ys) : xs = ys := by
  obtain ⟨xs', rfl⟩ := hx
  obtain ⟨ys', hys⟩ := hy
  have htaken := takeBytes?_byteLength_append xs xs'
  rw [← hys, h, takeBytes?_byteLength_append] at htaken
  exact (Option.some.inj htaken).symm

end Railroad.Text
