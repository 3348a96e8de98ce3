import Railroad.Proofs.Notation.Soundness
import Railroad.Proofs.Notation.Tracking
set_option autoImplicit false

/-!
# Lexemes at byte offsets

The places where a reading adds up bytes: a character is as long as its encoding, and one that is
compared with a dash or a quote is one byte long; a fixed text and what a pattern finds are as long
as their characters; and a mark lies as many bytes ahead as the characters in front of it take up.
From these the rules for all lexemes are shown to track those of the notation.
-/

namespace Railroad.Notation.Checked

variable {α β : Type} {src : List Char} {n lo : Nat} {s t : Bool} {c : Cursor}

/-! ## Rules for a piece of text -/

section Pieces

variable {reader : Reader α} {rule : Rule α}

/-- A character with a value moves the offset on by its width, which has to be the length of its
encoding. -/
theorem Tracks.charFor {value? : Char → Option α} {width : Char → Nat}
    (hwidth : ∀ a v, value? a = some v → width a = a.utf8Size) :
    Tracks n lo true (Checked.charFor value? width) (Rule.charFor value?) := by
  intro src c hc _
  cases hrest : c.rest with
  | nil =>
      -- at the end of the text both sides miss a character
      refine .of_failed [] (fun notes => ?_) ?_
      · rw [Notes.extend_nil, Checked.charFor, hc.restAt_bind, hrest]
      · rw [Rule.charFor, hrest]
  | cons a rest =>
      cases hvalue : value? a with
      | none =>
          refine .of_failed [] (fun notes => ?_) ?_
          · rw [Notes.extend_nil, Checked.charFor, hc.restAt_bind, hrest]
            simp only [hvalue]
          · simp only [Rule.charFor, hrest, hvalue]
      | some v =>
          obtain ⟨hd, hlt⟩ := hc.after (show c.rest = [a] ++ rest from hrest) (List.cons_ne_nil _ _)
          refine .of_matched (a := v) (fun notes => ?_) ?_ hd (Nat.le_of_lt hlt) fun _ => hlt
          · -- behind the character the text goes on at the next one
            have hoffset : (c.after [a] rest).offset = c.offset + width a := by
              rw [hwidth a v hvalue]
              rfl
            rw [hoffset, Checked.charFor, hc.restAt_bind, hrest]
            simp only [hvalue]
          · simp only [Rule.charFor, hrest, hvalue]

/-- A character that is tested moves the offset on by the length of its own encoding. -/
theorem Tracks.charWhere (condition : Char → Bool) :
    Tracks n lo true (Checked.charWhere condition) (Rule.charWhere condition) :=
  .charFor fun _ _ _ => rfl

/-- A test that moves on by one byte needs characters that are single bytes. -/
theorem Tracks.byteWhere {condition : Char → Bool} (h : ∀ a, condition a = true → a.utf8Size = 1) :
    Tracks n lo true (Checked.byteWhere condition) (Rule.charWhere condition) := by
  apply Tracks.charFor
  intro a v hvalue
  by_cases ha : condition a = true
  · exact (h a ha).symm
  · rw [if_neg ha] at hvalue
    cases hvalue

/-- A character that is compared with a single byte is one. -/
theorem utf8Size_of_eq {a b : Char} (hb : b.utf8Size = 1) (h : (a == b) = true) :
    a.utf8Size = 1 := by
  rw [beq_iff_eq] at h
  rwa [h]

/-- All marks are single bytes. -/
theorem utf8Size_of_ofMark? {a : Char} {mark : Cardinality}
    (h : Cardinality.ofMark? a = some mark) : 1 = a.utf8Size := by
  rw [Cardinality.mark_of_ofMark? h]
  cases mark <;> rfl

/-- No character is left if and only if the offset is the length of the text. -/
theorem Tracks.atEnd : Tracks n lo false Checked.atEnd Rule.atEnd := by
  intro src c hc _
  by_cases hnil : c.rest = []
  · refine .of_matched (a := ()) (fun notes => ?_) ?_ hc (Nat.le_refl _) nofun
    · rw [Checked.atEnd, if_pos (hc.rest_eq_nil_iff.1 hnil)]
    · rw [Rule.atEnd, if_pos (by rwa [List.isEmpty_iff])]
  · refine .of_failed [] (fun notes => ?_) ?_
    · rw [Checked.atEnd, if_neg fun hend => hnil (hc.rest_eq_nil_iff.2 hend), Notes.extend_nil]
    · rw [Rule.atEnd, if_neg (by rwa [List.isEmpty_iff])]

/-- A fixed text moves the offset on by its own length. It must not be empty, so that something is
taken. -/
theorem Tracks.literal {text : String} (htext : text.toList ≠ []) :
    Tracks n lo true (Checked.literal text) (Rule.literal text) := by
  refine Tracks.part ?_ (.inl rfl)
  intro src c hc _
  cases hprefix : text.toList.isPrefixOf? c.rest with
  | none =>
      -- the text does not go on with it, and one failure is recorded on either side
      have hnot : text.toList.isPrefixOf c.rest = false := by
        rw [← List.isSome_isPrefixOf?_eq_isPrefixOf, hprefix]
        rfl
      refine .of_failed [.failed c.offset (.literal text)] (fun notes => ?_) ?_
      · rw [hc.restAt_bind, hnot]
        rfl
      · rw [Rule.literal, hprefix]
        rfl
  | some rest =>
      have hrest : c.rest = text.toList ++ rest :=
        (List.isPrefixOf?_eq_some_iff_append_eq.1 hprefix).symm
      have hyes : text.toList.isPrefixOf c.rest = true := by
        rw [← List.isSome_isPrefixOf?_eq_isPrefixOf, hprefix]
        rfl
      obtain ⟨hd, hlt⟩ := hc.after hrest htext
      refine .of_matched (a := ()) (fun notes => ?_) ?_ hd (Nat.le_of_lt hlt) fun _ => hlt
      · rw [hc.restAt_bind, hyes]
        rfl
      · rw [Rule.literal, hprefix]

/-! ## What is missed -/

/-- No failures are recorded where the rule matches. -/
def Quiet (rule : Rule α) : Prop :=
  ∀ ⦃c d : Cursor⦄ ⦃a : α⦄, rule.Matches c a d → (rule c).events = []

/-- Rules that record no failures where they match can be put one after another. -/
theorem Quiet.bind {following : α → Rule β} (h : Quiet rule) (k : ∀ a, Quiet (following a)) :
    Quiet (rule >>= following) := by
  intro c e b hm
  obtain ⟨a, d, hm, hn⟩ := Rule.matches_bind.1 hm
  rw [Rule.bind_of_matches hm, h hm, k a hn]
  rfl

theorem Quiet.pure (a : α) : Quiet (Pure.pure a : Rule α) := fun _ _ _ _ => rfl

/-- A single character records nothing, whether or not it is there. -/
theorem events_charFor (value? : Char → Option α) (c : Cursor) :
    (Rule.charFor value? c).events = [] := by
  unfold Rule.charFor
  split
  · rfl
  · split <;> rfl

theorem Quiet.charWhere (condition : Char → Bool) : Quiet (Rule.charWhere condition) :=
  fun c _ _ _ => events_charFor _ c

/-- Characters in a row are read without anything being missed. -/
theorem Quiet.someCharsWhile (condition : Char → Bool) : Quiet (Rule.someCharsWhile condition) :=
  -- nothing is missed by the characters behind the first one, since there need not be any
  .bind (.charWhere condition) fun first =>
    .bind (fun _ _ _ _ => rfl) fun more => .pure (first :: more)

/-- A fixed text is missed only where it does not match. -/
theorem Quiet.literal (text : String) : Quiet (Rule.literal text) := by
  intro c d u hm
  unfold Rule.Matches at hm
  unfold Rule.literal at hm ⊢
  split at hm
  next => rfl
  next => cases hm

/-- The rule takes what a pattern finds, and yields all of it but the first `front` bytes. It misses
nothing on the way. -/
structure Finds (pattern : List Char → Option (List Char)) (front : Nat) (rule : Rule (List Char)) :
    Prop where
  quiet : Quiet rule
  fails : ∀ c : Cursor, pattern c.rest = none → rule.Fails c
  takes : ∀ (c : Cursor) (cs : List Char), pattern c.rest = some cs → cs ≠ [] ∧ ∃ lead taken rest,
    c.rest = cs ++ rest ∧ cs = lead ++ taken ∧ Text.byteLength lead = front ∧
      rule.Matches c taken (c.after cs rest)

/-- A pattern is read as a whole. If it is found, the rule that reads it character by character has
missed nothing, and if it is not, one failure is recorded at its start on either side. -/
theorem Tracks.expecting_found {pattern : List Char → Option (List Char)} {front : Nat}
    {rule : Rule (List Char)} (expected : Expected) (h : Finds pattern front rule) :
    Tracks n lo true (Checked.expecting expected (Checked.found pattern front))
      (Rule.expecting expected rule) := by
  intro src c hc _
  cases hpattern : pattern c.rest with
  | none =>
      have hf := h.fails c hpattern
      refine .of_failed [.failed c.offset expected] (fun notes => ?_) ?_
      · have hrun : Checked.found pattern front src notes c.offset = .ok (none, notes) := by
          rw [Checked.found, hc.restAt_bind, hpattern]
        exact orElse_of_none hrun
      · rcases hr : rule c with ⟨outcome, events⟩
        obtain rfl : outcome = .mismatch := by rwa [Rule.Fails, hr] at hf
        simp only [Rule.expecting, hr]
        rfl
  | some cs =>
      obtain ⟨hne, lead, taken, rest, hrest, rfl, rfl, hm⟩ := h.takes c cs hpattern
      obtain ⟨hd, hlt⟩ := hc.after hrest hne
      refine .of_matched (a := taken) (fun notes => ?_) ?_ hd (Nat.le_of_lt hlt) fun _ => hlt
      · have hrun : Checked.found pattern (Text.byteLength lead) src notes c.offset =
            .ok (some (taken, (c.after (lead ++ taken) rest).offset), notes) := by
          rw [Checked.found, hc.restAt_bind, hpattern]
          exact hc.textBetween_bind hrest _
        exact orElse_of_some hrun
      · rcases hr : rule c with ⟨outcome, events⟩
        obtain rfl : outcome = .matched taken (c.after (lead ++ taken) rest) := by
          rwa [Rule.Matches, hr] at hm
        obtain rfl : events = [] := by simpa only [hr] using h.quiet hm
        simp only [Rule.expecting, hr]

/-! ## Up to a mark -/

/-- A mark that does not occur in a text is behind all of it. -/
theorem splitBefore_of_offsetOf?_eq_none {mark cs : List Char} (h : offsetOf? mark cs = none) :
    Rule.splitBefore mark cs = (cs, []) := by
  induction cs with
  | nil => rfl
  | cons a cs ih =>
      rw [offsetOf?] at h
      split at h
      next => cases h
      next hno =>
        rw [Rule.splitBefore, if_neg hno, ih (Option.map_eq_none_iff.1 h)]

/-- A mark lies as many bytes ahead as the characters in front of it take up. -/
theorem splitBefore_of_offsetOf?_eq_some {mark cs : List Char} {length : Nat}
    (h : offsetOf? mark cs = some length) : ∃ taken rest,
      Rule.splitBefore mark cs = (taken, mark ++ rest) ∧ length = Text.byteLength taken := by
  induction cs generalizing length with
  | nil => cases h
  | cons a cs ih =>
      rw [offsetOf?] at h
      split at h
      next hyes =>
        -- the mark comes right at the start
        obtain ⟨rest, hrest⟩ := List.isPrefixOf_iff_prefix.1 hyes
        refine ⟨[], rest, ?_, (Option.some.inj h).symm⟩
        rw [Rule.splitBefore, if_pos hyes, hrest]
      next hno =>
        obtain ⟨length', hlength, rfl⟩ := Option.map_eq_some_iff.1 h
        obtain ⟨taken, rest, hsplit, rfl⟩ := ih hlength
        refine ⟨a :: taken, rest, ?_, (Text.byteLength_cons a taken).symm⟩
        rw [Rule.splitBefore, if_neg hno, hsplit]

/-- Without the mark, all that is left is taken and the mark is missed at the end of the text. -/
theorem Tracks.charsUpTo {mark : String} (hmark : mark.toList ≠ []) :
    Tracks n lo true (Checked.charsUpTo mark) (do
      let taken ← Rule.charsBefore mark.toList
      Rule.literal mark
      return taken) := by
  intro src c hc _
  cases hoffset : offsetOf? mark.toList c.rest with
  | none =>
      have hsplit := splitBefore_of_offsetOf?_eq_none hoffset
      have hnot : ¬ mark.toList <+: (c.after c.rest []).rest :=
        fun hp => hmark (List.prefix_nil.1 hp)
      -- where nothing is left, the text has its whole length
      have hend : (c.after c.rest []).offset = Text.byteLength src :=
        (hc.passes (.after c (List.append_nil _).symm)).rest_eq_nil_iff.1 rfl
      have htaken : (Rule.charsBefore mark.toList).Matches c c.rest (c.after c.rest []) := by
        simp only [Rule.Matches, Rule.charsBefore, hsplit]
      refine .of_failed [.failed (Text.byteLength src) (.literal mark)]
        (fun notes => ?_) ?_
      · rw [Checked.charsUpTo, hc.restAt_bind, hoffset]
        rfl
      · rw [Rule.bind_of_matches htaken, literal_bind_of_fails hnot, ← hend]
        rfl
  | some length =>
      obtain ⟨taken, rest, hsplit, rfl⟩ := splitBefore_of_offsetOf?_eq_some hoffset
      have hrest : c.rest = [] ++ taken ++ (mark.toList ++ rest) := append_of_splitBefore hsplit
      -- the mark itself is passed as well
      have hmarked : (c.after taken (mark.toList ++ rest)).rest = mark.toList ++ rest := rfl
      obtain ⟨hd, hlt⟩ := (hc.passes (.after c hrest)).after hmarked hmark
      have htaken : (Rule.charsBefore mark.toList).Matches c taken
          (c.after taken (mark.toList ++ rest)) := by
        simp only [Rule.Matches, Rule.charsBefore, hsplit]
      have hahead :
          c.offset < ((c.after taken (mark.toList ++ rest)).after mark.toList rest).offset :=
        Nat.lt_of_le_of_lt (Nat.le_add_right ..) hlt
      refine .of_matched (a := taken) (fun notes => ?_) ?_ hd (Nat.le_of_lt hahead) fun _ => hahead
      · rw [Checked.charsUpTo, hc.restAt_bind, hoffset]
        exact hc.textBetween_bind hrest _
      · rw [Rule.bind_of_matches htaken, literal_bind_of_matches rfl]
        rfl

/-- What stands in front of a mark of one character is what differs from the character. -/
theorem splitBefore_singleton (mark : Char) (cs : List Char) :
    Rule.splitBefore [mark] cs = (cs.takeWhile (· != mark), cs.dropWhile (· != mark)) := by
  induction cs with
  | nil => rfl
  | cons a cs ih =>
      by_cases ha : a = mark
      · subst ha
        simp [Rule.splitBefore]
      · have hno : ¬ [mark].isPrefixOf (a :: cs) = true := by
          rw [List.isPrefixOf_iff_prefix, List.cons_prefix_cons]
          exact fun hp => ha hp.1.symm
        have hne : (a != mark) = true := bne_iff_ne.2 ha
        rw [Rule.splitBefore, if_neg hno, ih, List.takeWhile_cons, List.dropWhile_cons, if_pos hne,
          if_pos hne]

/-- All characters in front of a quote are as many in a row as are no quotes. -/
theorem charsBefore_singleton (mark : Char) :
    Rule.charsBefore [mark] = Rule.charsWhile (· != mark) := by
  funext c
  rw [Rule.charsBefore, splitBefore_singleton, Rule.charsWhile]

end Pieces

/-! ## Patterns -/

/-- Going on twice is going on behind both texts. -/
theorem after_after (c : Cursor) (xs ys rest rest' : List Char) :
    (c.after xs rest').after ys rest = c.after (xs ++ ys) rest := by
  simp only [Cursor.after, Text.byteLength_append, Nat.add_assoc]

/-- Characters in a row are missed if there is not even one. -/
theorem fails_someCharsWhile {condition : Char → Bool} (h : c.rest.takeWhile condition = []) :
    (Rule.someCharsWhile condition).Fails c := by
  refine Rule.fails_bind.2 (.inl (Rule.fails_charWhere.2 fun a ha => ?_))
  obtain ⟨rest, hrest⟩ : ∃ rest, c.rest = a :: rest := List.head?_eq_some_iff.1 ha
  rw [hrest, List.takeWhile_cons] at h
  split at h
  next => cases h
  next hno => exact Bool.not_eq_true _ ▸ hno

/-- If there is at least one, all of them are taken. -/
theorem matches_takeWhile {condition : Char → Bool} (h : c.rest.takeWhile condition ≠ []) :
    (Rule.someCharsWhile condition).Matches c (c.rest.takeWhile condition)
      (c.after (c.rest.takeWhile condition) (c.rest.dropWhile condition)) := by
  refine Rule.matches_someCharsWhile.2
    ⟨h, .after c (List.takeWhile_append_dropWhile ..).symm, fun a => List.mem_takeWhile_imp, ?_⟩
  intro a ha
  have hstop := List.head?_dropWhile_not condition c.rest
  rw [show (c.rest.dropWhile condition).head? = some a from ha] at hstop
  simpa using hstop

/-- The characters of a name. -/
def nameChars : Rule (List Char) := do
  let first ← Rule.charWhere Char.isUpper
  let more ← Rule.charsWhile Char.isAlphanum
  return first :: more

/-- The pattern of names finds the letter and the letters and digits behind it that the rule
takes. -/
theorem finds_nameChars : Finds namePattern 0 nameChars where
  quiet := .bind (.charWhere _) fun first => .bind (fun _ _ _ _ => rfl) fun more =>
    .pure (first :: more)
  fails c h := by
    refine Rule.fails_bind.2 (.inl (Rule.fails_charWhere.2 fun a ha => ?_))
    obtain ⟨rest, hrest⟩ : ∃ rest, c.rest = a :: rest := List.head?_eq_some_iff.1 ha
    rw [hrest, namePattern] at h
    split at h
    next => cases h
    next hno => exact Bool.not_eq_true _ ▸ hno
  takes c cs h := by
    cases hrest : c.rest with
    | nil =>
        rw [hrest] at h
        cases h
    | cons a rest =>
        rw [hrest, namePattern] at h
        split at h
        next hupper =>
          -- all letters and digits behind the first letter are taken by one run
          obtain rfl := Option.some.inj h
          have hsplit : a :: rest =
              a :: rest.takeWhile Char.isAlphanum ++ rest.dropWhile Char.isAlphanum := by
            rw [List.cons_append, List.takeWhile_append_dropWhile]
          have hend := after_after c [a] (rest.takeWhile Char.isAlphanum)
            (rest.dropWhile Char.isAlphanum) rest
          rw [List.singleton_append] at hend
          refine ⟨List.cons_ne_nil _ _, [], _, _, hsplit, rfl, rfl, ?_⟩
          rw [← hend]
          exact Rule.matches_bind.2 ⟨a, _, Rule.matches_charWhere.2 ⟨hupper, .after c hrest⟩,
            Rule.matches_bind.2 ⟨_, _, rfl, rfl⟩⟩
        next => cases h

/-- The digits of a character code, behind two bytes that they do not belong to. -/
def codeDigits : Rule (List Char) := do
  Rule.literal "#x"
  Rule.someCharsWhile Text.isHexDigit

/-- The pattern of codes finds the mark of a code with all digits behind it, if there is a digit. -/
theorem codePattern_eq_some_iff {cs found : List Char} : codePattern cs = some found ↔
    ∃ rest, cs = "#x".toList ++ rest ∧ rest.takeWhile Text.isHexDigit ≠ [] ∧
      found = "#x".toList ++ rest.takeWhile Text.isHexDigit := by
  unfold codePattern
  constructor
  · intro h
    split at h
    next rest =>
      split at h
      next => cases h
      next hdigits => exact ⟨rest, rfl, hdigits, (Option.some.inj h).symm⟩
    next => cases h
  · rintro ⟨rest, rfl, hdigits, rfl⟩
    obtain ⟨a, digits, htake⟩ := List.exists_cons_of_ne_nil hdigits
    have hfront : "#x".toList ++ rest = '#' :: 'x' :: rest := rfl
    rw [hfront]
    simp only [htake]
    rfl

/-- The rule for the digits of a code takes what the pattern finds, and leaves out the two bytes of
the mark. -/
theorem finds_codeDigits : Finds codePattern 2 codeDigits where
  quiet := .bind (.literal _) fun _ => .someCharsWhile _
  fails c h := by
    by_cases hfront : "#x".toList <+: c.rest
    · obtain ⟨rest, hrest⟩ := hfront
      refine Rule.fails_bind.2 (.inr ⟨(), _, Rule.matches_literal.2 (.after c hrest.symm), ?_⟩)
      apply fails_someCharsWhile
      -- with a digit the pattern would have been found
      by_contra hdigits
      rw [codePattern_eq_some_iff.2 ⟨rest, hrest.symm, hdigits, rfl⟩] at h
      cases h
    · exact Rule.fails_bind.2 (.inl (Rule.fails_literal.2 hfront))
  takes c cs h := by
    obtain ⟨rest, hrest, hdigits, rfl⟩ := codePattern_eq_some_iff.1 h
    refine ⟨List.cons_ne_nil _ _, "#x".toList, _, rest.dropWhile Text.isHexDigit, ?_, rfl, rfl, ?_⟩
    · rw [hrest, List.append_assoc, List.takeWhile_append_dropWhile]
    · rw [← after_after c "#x".toList _ _ rest]
      refine Rule.matches_bind.2 ⟨(), _, Rule.matches_literal.2 (.after c hrest), ?_⟩
      exact matches_takeWhile hdigits

/-- The characters of an address. -/
def addressChars : Rule (List Char) := do
  let scheme ← Rule.someCharsWhile isSchemeChar
  Rule.literal "://"
  let body ← Rule.someCharsWhile isAddressChar
  return scheme ++ [':', '/', '/'] ++ body

/-- The pattern of addresses finds a scheme, the mark behind it and the rest of the address, none of
which is empty. -/
theorem urlPattern_eq_some_iff {cs found : List Char} : urlPattern cs = some found ↔
    ∃ rest, cs.takeWhile isSchemeChar ≠ [] ∧ cs.dropWhile isSchemeChar = "://".toList ++ rest ∧
      rest.takeWhile isAddressChar ≠ [] ∧
      found = cs.takeWhile isSchemeChar ++ "://".toList ++ rest.takeWhile isAddressChar := by
  unfold urlPattern
  constructor
  · intro h
    split at h
    next => cases h
    next rest hdrop hscheme =>
      split at h
      next => cases h
      next hbody => exact ⟨rest, hscheme, hdrop, hbody, (Option.some.inj h).symm⟩
    next => cases h
  · rintro ⟨rest, hscheme, hdrop, hbody, rfl⟩
    obtain ⟨a, scheme, htake⟩ := List.exists_cons_of_ne_nil hscheme
    obtain ⟨b, body, hrest⟩ := List.exists_cons_of_ne_nil hbody
    have hcolon : "://".toList ++ rest = ':' :: '/' :: '/' :: rest := rfl
    rw [htake, hdrop, hcolon]
    simp only [hrest]
    rfl

/-- The rule for addresses reads the scheme, the mark and the rest one after the other, and takes
what the pattern finds. -/
theorem finds_addressChars : Finds urlPattern 0 addressChars where
  quiet := .bind (.someCharsWhile _) fun _ => .bind (.literal _) fun _ =>
    .bind (.someCharsWhile _) fun _ => .pure _
  fails c h := by
    by_cases hscheme : c.rest.takeWhile isSchemeChar = []
    · exact Rule.fails_bind.2 (.inl (fails_someCharsWhile hscheme))
    refine Rule.fails_bind.2 (.inr ⟨_, _, matches_takeWhile hscheme, ?_⟩)
    by_cases hmark : "://".toList <+: c.rest.dropWhile isSchemeChar
    · obtain ⟨rest, hdrop⟩ := hmark
      refine Rule.fails_bind.2 (.inr ⟨(), _, Rule.matches_literal.2 (.after _ hdrop.symm), ?_⟩)
      refine Rule.fails_bind.2 (.inl (fails_someCharsWhile ?_))
      -- with something behind the mark as well the pattern would have been found
      by_contra hbody
      rw [urlPattern_eq_some_iff.2 ⟨rest, hscheme, hdrop.symm, hbody, rfl⟩] at h
      cases h
    · exact Rule.fails_bind.2 (.inl (Rule.fails_literal.2 hmark))
  takes c cs h := by
    obtain ⟨rest, hscheme, hdrop, hbody, rfl⟩ := urlPattern_eq_some_iff.1 h
    have hsplit : c.rest = c.rest.takeWhile isSchemeChar ++ "://".toList ++
        rest.takeWhile isAddressChar ++ rest.dropWhile isAddressChar := by
      rw [List.append_assoc _ (rest.takeWhile _), List.takeWhile_append_dropWhile,
        List.append_assoc, ← hdrop, List.takeWhile_append_dropWhile]
    refine ⟨fun hnil => hbody (List.append_eq_nil_iff.1 hnil).2, [], _, _, hsplit, rfl, rfl, ?_⟩
    refine Rule.matches_bind.2 ⟨_, _, matches_takeWhile hscheme, ?_⟩
    refine Rule.matches_bind.2 ⟨(), _, Rule.matches_literal.2 (.after _ hdrop), ?_⟩
    refine Rule.matches_bind.2 ⟨_, _, matches_takeWhile hbody, Rule.matches_pure.2 ⟨rfl, ?_⟩⟩
    rw [after_after, after_after, List.append_assoc]
    rfl

/-! ## Layout -/

/-- Asking for the place and not using it does nothing. -/
theorem here_bind_const (rule : Rule α) : (Rule.here >>= fun _ => rule) = rule := rfl

/-- The spans of comments are only looked at, and the mark is looked for together with what stands
before it. -/
theorem comment_eq : Notation.comment = (do
    let _ ← Rule.here
    Rule.literal "/*"
    let _ ← (do
      let taken ← Rule.charsBefore "*/".toList
      Rule.literal "*/"
      return taken : Rule (List Char))
    let _ ← Rule.here
    return ()) := by
  rw [here_bind_const, here_bind_const]
  simp only [Bind.bind, Pure.pure, Rule.bind_assoc, Rule.pure_bind]
  show _ = (Rule.literal "/*").bind fun _ => (Rule.charsBefore _).bind fun _ =>
    (Rule.literal "*/").bind Rule.pure
  rw [Rule.bind_pure]
  rfl

/-- A comment is read as its mark and everything up to the mark that ends it. -/
theorem tracks_comment : Tracks n lo true Checked.comment Notation.comment := by
  rw [comment_eq]
  refine .part (.here_bind fun start => ?_) (.inl rfl)
  refine .bind_strict (.literal (by decide)) fun _ => ?_
  refine .bind (.charsUpTo (by decide)) fun _ => ?_
  exact .spanFrom_bind (Nat.le_refl _) fun _ => .pure ()

/-- A piece of layout is a comment or a blank, and takes something in either case. -/
theorem tracks_gap (breaks : Bool) :
    Tracks n lo true (Checked.gap breaks) (Notation.gap breaks) := by
  refine .orElse ?_ ?_
  · exact .bind (.lookahead (.charWhere _)) fun _ => tracks_comment
  · exact .bind_strict (.charWhere _) fun _ => .pure ()

/-- Layout may be empty, and each of its pieces moves the offset on, so that reading it comes to an
end. -/
theorem tracks_skip (breaks : Bool) :
    Tracks n lo false (Checked.skip breaks) (Notation.skip breaks) := by
  refine .part ?_ (.inr rfl)
  exact .bind (.many (tracks_gap breaks)) fun _ => .pure ()

theorem tracks_space : Tracks n lo true Checked.space Notation.space :=
  .bind_strict (tracks_gap false) fun _ => tracks_skip false

theorem tracks_separator : Tracks n lo true Checked.separator Notation.separator := by
  refine .part (.bind (tracks_skip false) fun _ => ?_) (.inl rfl)
  exact .bind_strict (.expecting _ (events_charFor _) (.charWhere _)) fun _ => tracks_skip true

/-- The end of the text can be expected at its last offset, where nothing is taken. -/
theorem tracks_endOfText :
    Tracks n lo false (Checked.part .endOfText (Checked.expecting .endOfText Checked.atEnd))
      (Rule.expecting .endOfText Rule.atEnd) := by
  refine .part (.expecting _ (fun c => ?_) .atEnd) (.inr rfl)
  unfold Rule.atEnd
  split <;> rfl

/-! ## Names, strings, codes, classes and links -/

/-- The span of a name begins where the pattern is looked for, and ends behind what is found. -/
theorem tracks_name : Tracks n lo true Checked.name Notation.name := by
  refine .part (.here_bind fun start => ?_) (.inl rfl)
  refine .bind_strict (.expecting_found _ finds_nameChars) fun chars => ?_
  exact .spanFrom_bind (Nat.le_refl _) fun _ => .pure _

/-- The mark that ends a string literal is the quote that it began with, and it is looked for
together with what stands before it. -/
theorem stringLiteral_eq : Notation.stringLiteral = (do
    let start ← Rule.here
    let quote ← Rule.expecting .stringLiteral (Rule.charWhere fun c => c == '"' || c == '\'')
    let value ← (do
      let taken ← Rule.charsBefore (String.singleton quote).toList
      Rule.literal (String.singleton quote)
      return taken : Rule (List Char))
    let stop ← Rule.here
    return ⟨String.ofList value, quote, ⟨start, stop⟩⟩) := by
  refine congrArg (Rule.here >>= ·)
    (funext fun start => congrArg (_ >>= ·) (funext fun quote => ?_))
  rw [String.toList_singleton, charsBefore_singleton]
  simp only [Bind.bind, Pure.pure, Rule.bind_assoc, Rule.pure_bind]

/-- Both quotes are single bytes, so that a string literal is one byte longer at each end than its
value. -/
theorem tracks_stringLiteral : Tracks n lo true Checked.stringLiteral Notation.stringLiteral := by
  have hquote : ∀ a : Char, (a == '"' || a == '\'') = true → a.utf8Size = 1 := by
    intro a ha
    rcases Bool.or_eq_true_iff.1 ha with ha | ha
    · exact utf8Size_of_eq (by decide) ha
    · exact utf8Size_of_eq (by decide) ha
  -- the quote is known to be one byte long by now, whichever it is
  rw [stringLiteral_eq]
  refine .part (.here_bind fun start => ?_) (.inl rfl)
  refine .bind_strict (.expecting _ (events_charFor _) (.byteWhere hquote)) fun quote => ?_
  refine .bind (.charsUpTo (by simp)) fun value => ?_
  exact .spanFrom_bind (Nat.le_refl _) fun _ => .pure _

/-- The span of a code begins with its mark, which is not a part of its digits. -/
theorem tracks_charCode : Tracks n lo true Checked.charCode Notation.charCode := by
  refine .part (.here_bind fun start => ?_) (.inl rfl)
  refine .bind_strict (.expecting_found _ finds_codeDigits) fun digits => ?_
  exact .spanFrom_bind (Nat.le_refl _) fun _ => .pure _

theorem tracks_classChar : Tracks n lo true Checked.classChar Notation.classChar :=
  .part (.expecting _ (events_charFor _) (.charWhere _)) (.inl rfl)

theorem tracks_dash : Tracks n lo true Checked.dash Notation.dash :=
  .bind_strict (.byteWhere fun _ => utf8Size_of_eq (by decide)) fun _ => .pure ()

/-- The four kinds of items of a class are attempted in the same order on both sides, each from the
start. -/
theorem tracks_classItem : Tracks n lo true Checked.classItem Notation.classItem := by
  refine .part (.orElse ?_ (.orElse ?_ (.orElse ?_ ?_))) (.inl rfl)
  · exact .bind_strict tracks_charCode fun _ => .bind tracks_dash fun _ =>
      .bind tracks_charCode fun _ => .pure _
  · exact .bind_strict tracks_classChar fun _ => .bind tracks_dash fun _ =>
      .bind tracks_classChar fun _ => .pure _
  · exact tracks_charCode.map _
  · exact tracks_classChar.map _

/-- Without items a class fails behind its bracket, on both sides. -/
theorem tracks_charClass : Tracks n lo true Checked.charClass Notation.charClass := by
  refine .part (.here_bind fun start => ?_) (.inl rfl)
  refine .bind_strict (.literal (by decide)) fun _ => ?_
  refine .bind (.perhaps (.byteWhere fun _ => utf8Size_of_eq (by decide))) fun caret => ?_
  refine .bind (.many tracks_classItem) fun items => ?_
  cases items with
  | nil => exact .mismatch
  | cons i items =>
      refine .bind (.literal (by decide)) fun _ => ?_
      exact .spanFrom_bind (Nat.le_refl _) fun _ => .pure _

theorem tracks_url : Tracks n lo true Checked.url Notation.url :=
  .bind_strict (.expecting_found _ finds_addressChars) fun _ => .pure _

/-- The fragment of an address begins with a hash sign of one byte, and is a name. -/
theorem tracks_link : Tracks n lo true Checked.link Notation.link := by
  refine .part (.here_bind fun start => ?_) (.inl rfl)
  refine .bind_strict (.literal (by decide)) fun _ => ?_
  refine .bind tracks_url fun address => ?_
  -- the address and its fragment are read behind the bracket, so that the bound on offsets is kept
  have hfragment : Tracks n start true
      (do
        let _ ← Checked.byteWhere (· == '#')
        Checked.name)
      (do
        let _ ← Rule.charWhere (· == '#')
        Notation.name) :=
    .bind_strict (.byteWhere fun _ => utf8Size_of_eq (by decide)) fun _ => tracks_name.lax
  refine .bind (.perhaps hfragment) fun fragment => ?_
  refine .bind (.literal (by decide)) fun _ => ?_
  exact .spanFrom_bind (Nat.le_refl _) fun _ => .pure _

end Railroad.Notation.Checked
