import Railroad.Proofs.Notation.Lexeme
import Railroad.Proofs.Notation.Mirror
import Railroad.Proofs.Notation.Respan
set_option autoImplicit false

/-!
# What character classes are read from

The members of a character class are cut off one by one, a range being preferred to its first
character and a code to the characters in which it is written. No member reaches over the closing
bracket, so that the members of a class depend only on the text between its brackets:
`ClassItem.SpelledEach` says what that text is read as. Every text of class characters is read to
its end, and moving it moves only the spans of its codes.
-/

namespace Railroad.Notation

open Rule

/-! ## Members -/

/-- The digits of a code can stand in a class as characters of their own. -/
theorem isClassChar_of_isHexDigit {a : Char} (h : Text.isHexDigit a = true) :
    Written.isClassChar a = true := by
  simp only [Text.isHexDigit, Text.hexDigit?, Char.le_def, UInt32.le_iff_toNat_le] at h
  simp only [Written.isClassChar, Text.isControl, Bool.and_eq_true, bne_iff_ne, ne_eq]
  have hnat : a.toNat = a.val.toNat := rfl
  refine ⟨?_, ?_⟩
  · rintro rfl
    simp at h
  · split at h
    · grind
    · grind

/-- A character of a class is any but a bracket that closes it and control characters. -/
theorem matches_classChar {c d : Cursor} {a : Char} :
    classChar.Matches c a d ↔ Written.isClassChar a = true ∧ c.Passes [a] d := by
  simp only [classChar, matches_expecting, matches_charWhere, Written.isClassChar]

theorem decides_classChar : classChar.Decides := .expecting _ (.charWhere _)

theorem matches_dash {c d : Cursor} {u : Unit} : dash.Matches c u d ↔ c.Passes ['-'] d := by
  simp only [dash, matches_bind, matches_charWhere, matches_pure]
  constructor
  · rintro ⟨a, e, ⟨ha, hp⟩, -, rfl⟩
    rwa [beq_iff_eq.1 ha] at hp
  · intro hp
    exact ⟨'-', d, ⟨rfl, hp⟩, trivial, rfl⟩

theorem decides_dash : dash.Decides := .bind (.charWhere _) fun _ => .pure _

/-- Items of a class contain no groups, so that they never refuse a text. -/
theorem decides_classItem : classItem.Decides :=
  .orElse (.bind decides_charCode fun _ => .bind decides_dash fun _ =>
      .bind decides_charCode fun _ => .pure _)
    (.orElse (.bind decides_classChar fun _ => .bind decides_dash fun _ =>
        .bind decides_classChar fun _ => .pure _)
      (.orElse (.map _ decides_charCode) (.map _ decides_classChar)))

/-- A member is read from its written form, which consists of class characters. -/
theorem passes_of_matches_classItem {c d : Cursor} {i : ClassItem} (h : classItem.Matches c i d) :
    c.Passes i.chars d ∧ i.chars ≠ [] ∧ ∀ a ∈ i.chars, Written.isClassChar a = true := by
  have hcode : ∀ {c d : Cursor} {k : CharCode}, charCode.Matches c k d →
      c.Passes k.chars d ∧ ∀ a ∈ k.chars, Written.isClassChar a = true := by
    intro c d k hk
    obtain ⟨cs, hp, hs, -⟩ := matches_charCode.1 hk
    rw [hs.chars]
    refine ⟨hp, ?_⟩
    obtain ⟨digits, -, hall, rfl, -⟩ := hs
    intro a ha
    simp only [List.mem_cons] at ha
    rcases ha with rfl | rfl | ha
    · decide
    · decide
    · exact isClassChar_of_isHexDigit (hall a ha)
  have hminus : Written.isClassChar '-' = true := by decide
  simp only [classItem, matches_orElse, matches_bind, matches_pure, matches_map, matches_dash,
    matches_classChar] at h
  rcases h with ⟨first, e, hfirst, _, g, hg, last, _, hlast, rfl, rfl⟩ |
    ⟨-, ⟨a, e, ⟨ha, he⟩, _, g, hg, b, _, ⟨hb, hd⟩, rfl, rfl⟩ | ⟨-, ⟨k, hk, rfl⟩ |
      ⟨-, a, ⟨ha, hp⟩, rfl⟩⟩⟩
  · -- a range between two codes
    obtain ⟨he, hfirst⟩ := hcode hfirst
    obtain ⟨hd, hlast⟩ := hcode hlast
    refine ⟨(he.trans hg).trans hd, by simp [ClassItem.chars], ?_⟩
    intro a ha
    simp only [ClassItem.chars, List.mem_append, List.mem_singleton] at ha
    rcases ha with (ha | rfl) | ha
    · exact hfirst a ha
    · exact hminus
    · exact hlast a ha
  · -- a range between two characters
    refine ⟨(he.trans hg).trans hd, by simp [ClassItem.chars], ?_⟩
    intro x hx
    simp only [ClassItem.chars, List.mem_cons, List.not_mem_nil, or_false] at hx
    rcases hx with rfl | rfl | rfl
    · exact ha
    · exact hminus
    · exact hb
  · -- a single code
    exact ⟨(hcode hk).1, by simp [ClassItem.chars, CharCode.chars], (hcode hk).2⟩
  · -- a single character
    exact ⟨hp, by simp [ClassItem.chars], by simpa [ClassItem.chars] using ha⟩

/-- Every item of a class has at least one character. -/
theorem consumes_classItem : classItem.Consumes := by
  intro c i d h
  obtain ⟨hp, hne, -⟩ := passes_of_matches_classItem h
  have := List.length_pos_of_ne_nil hne
  rw [hp.length]
  omega

/-- Items in a row take their characters in a row. -/
theorem passes_of_repeats_classItem {c d : Cursor} {items : List ClassItem}
    (h : Repeats classItem c items d) :
    c.Passes (items.flatMap ClassItem.chars) d ∧
      ∀ a ∈ items.flatMap ClassItem.chars, Written.isClassChar a = true := by
  induction h with
  | done c => exact ⟨.refl c, by simp⟩
  | step hm _ ih =>
      obtain ⟨hp, -, hall⟩ := passes_of_matches_classItem hm
      refine ⟨hp.trans ih.1, ?_⟩
      intro a ha
      rw [List.flatMap_cons, List.mem_append] at ha
      exact ha.elim (hall a) (ih.2 a)

/-- A member begins at every class character. -/
theorem not_fails_classItem {c : Cursor} {a : Char} {rest : List Char} (hc : c.rest = a :: rest)
    (ha : Written.isClassChar a = true) : ¬ classItem.Fails c := by
  simp only [classItem, fails_orElse, fails_map]
  rintro ⟨-, -, -, hf⟩
  have hm : classChar.Matches c a _ := matches_classChar.2 ⟨ha, .after c hc⟩
  exact hm.not_fails hf

/-! ## Members in another place -/

section Shifted

variable {tail : List Char} {k : Nat}

/-- Codes can be moved in the text together with their spans. -/
theorem CharCode.Spelled.shift {o : Nat} {cs : List Char} {code : CharCode} (h : code.Spelled o cs)
    (k : Nat) : (code.mapSpans (Span.shift k)).Spelled (o + k) cs := by
  obtain ⟨digits, hne, hall, rfl, rfl⟩ := h
  refine ⟨digits, hne, hall, rfl, ?_⟩
  simp only [CharCode.mapSpans, Span.shift, Span.over, Nat.add_right_comm]

/-- A code is read in the same way in front of a bracket, which is not one of its digits. -/
theorem mirrors_charCode (htail : ∀ b ∈ tail.head?, b = ']') :
    Mirrors tail k (CharCode.mapSpans (Span.shift k)) charCode charCode := by
  refine .of_spelled (fun o cs code => code.Spelled o cs) (fun b => !Text.isHexDigit b) ?_
    decides_charCode ?_ ?_ ?_
  · intro c code d
    simp only [matches_charCode, Bool.not_eq_true']
  · exact fun o cs code h => h.shift k
  · rintro o cs code ⟨digits, hne, hall, rfl, -⟩
    exact ⟨_, digits, hne, hall, rfl, rfl⟩
  · intro b hb
    -- the bracket is no digit, so that it ends the code and is not a part of it
    obtain rfl := htail b hb
    refine ⟨by decide, ?_⟩
    rintro o cs code ⟨digits, -, hall, rfl, -⟩ hmem
    simp only [List.mem_cons, Char.reduceEq, false_or] at hmem
    have hbracket := hall ']' hmem
    revert hbracket
    decide

/-- A rule for one of some characters, none of which is a closing bracket. -/
theorem mirrors_char {α : Type} (value : α → Char) (condition : Char → Bool) {rule : Rule α}
    (hrule : ∀ c a d, rule.Matches c a d ↔ condition (value a) = true ∧ c.Passes [value a] d)
    (hdecides : rule.Decides) (hcondition : condition ']' = false)
    (htail : ∀ b ∈ tail.head?, b = ']') : Mirrors tail k id rule rule := by
  refine .of_spelled (fun _ cs a => condition (value a) = true ∧ cs = [value a]) (fun _ => true) ?_
    hdecides ?_ ?_ ?_
  · intro c a d
    rw [hrule]
    constructor
    · rintro ⟨ha, hp⟩
      exact ⟨_, hp, ⟨ha, rfl⟩, fun _ _ => rfl⟩
    · rintro ⟨_, hp, ⟨ha, rfl⟩, -⟩
      exact ⟨ha, hp⟩
  · exact fun _ _ _ h => h
  · exact fun _ _ a h => ⟨a, h⟩
  · intro b hb
    obtain rfl := htail b hb
    refine ⟨rfl, ?_⟩
    rintro _ _ a ⟨ha, rfl⟩ hmem
    -- the bracket does not satisfy the condition that the character satisfies
    rw [List.mem_singleton.1 hmem] at hcondition
    rw [hcondition] at ha
    cases ha

/-- So is an item of a class, whichever of the four kinds it is. -/
theorem mirrors_classItem (htail : ∀ b ∈ tail.head?, b = ']') :
    Mirrors tail k (ClassItem.mapSpans (Span.shift k)) classItem classItem := by
  have hcode := mirrors_charCode (k := k) htail
  have hchar : Mirrors tail k id classChar classChar :=
    mirrors_char id _ (fun _ _ _ => matches_classChar) decides_classChar (by decide) htail
  have hdash : Mirrors tail k id dash dash := by
    refine mirrors_char (fun _ => '-') (· == '-') ?_ decides_dash (by decide) htail
    intro c u d
    simp [matches_dash]
  refine .orElse ?_ (.orElse ?_ (.orElse ?_ ?_))
  · exact hcode.bind fun first => hdash.bind fun _ => hcode.bind fun last => .pure _
  · exact hchar.bind fun first => hdash.bind fun _ => hchar.bind fun last => .pure _
  · exact hcode.map fun _ => rfl
  · exact hchar.map fun _ => rfl

end Shifted

/-! ## Classes -/

/-- The text between the brackets of a class is read as some members, from its first to its last
character. -/
def ClassItem.SpelledEach (offset : Nat) (body : List Char) (items : List ClassItem) : Prop :=
  (many classItem).Matches ⟨body, offset⟩ items ⟨[], offset + Text.byteLength body⟩

/-- The items of a class stand one behind the other and leave out nothing. -/
theorem ClassItem.SpelledEach.chars {offset : Nat} {body : List Char} {items : List ClassItem}
    (h : SpelledEach offset body items) : items.flatMap ClassItem.chars = body := by
  obtain ⟨hr, -⟩ := (matches_many consumes_classItem).1 h
  have hp := (passes_of_repeats_classItem hr).1.1
  simpa using hp.symm

/-- The characters of a class are read as items in one way only. -/
theorem ClassItem.SpelledEach.unique {offset : Nat} {body : List Char}
    {items items' : List ClassItem} (h : SpelledEach offset body items)
    (k : SpelledEach offset body items') : items = items' := (Matches.unique h k).1

/-- All texts of characters that can stand in a class are read as items: in the worst case, each
character is one. -/
theorem ClassItem.SpelledEach.exists {body : List Char} (offset : Nat)
    (h : ∀ a ∈ body, Written.isClassChar a = true) : ∃ items, SpelledEach offset body items := by
  rcases Decides.many decides_classItem ⟨body, offset⟩ with hf | ⟨items, d, hm⟩
  · exact absurd hf fails_many
  · obtain ⟨hr, hf⟩ := (matches_many consumes_classItem).1 hm
    obtain ⟨hp, -⟩ := passes_of_repeats_classItem hr
    have hbody : body = items.flatMap ClassItem.chars ++ d.rest := hp.1
    -- the members reach to the end of the text: another one would begin at a character left over
    cases hd : d.rest with
    | nil =>
        rw [hd, List.append_nil] at hbody
        refine ⟨items, ?_⟩
        have heq : d = ⟨[], offset + Text.byteLength body⟩ := by
          rcases d with ⟨rest, n⟩
          obtain ⟨-, ho⟩ := hp
          rw [← hbody] at ho
          simp_all
        rwa [heq] at hm
    | cons a rest =>
        have ha : a ∈ body := by simp [hbody, hd]
        exact absurd hf (not_fails_classItem hd (h a ha))

/-- The members of a class are the same wherever the class stands and whatever follows it. -/
theorem ClassItem.SpelledEach.matches_many {offset : Nat} {body : List Char}
    {items : List ClassItem} (h : SpelledEach offset body items) {c d : Cursor} {k : Nat}
    (hc : c.offset = offset + k) (hp : c.Passes body d) (hd : ∀ b ∈ d.rest.head?, b = ']') :
    (many classItem).Matches c (items.map (ClassItem.mapSpans (Span.shift k))) d := by
  obtain ⟨hr, hf⟩ := (Rule.matches_many consumes_classItem).1 h
  have hm := mirrors_classItem (k := k) hd
  have hshift : Cursor.Shifted d.rest k ⟨body, offset⟩ c := ⟨hp.1, hc⟩
  obtain ⟨d', hd', hr'⟩ := hm.repeats hshift hr
  have hp' : c.Passes body d' := by
    refine ⟨?_, ?_⟩
    · rw [hp.1, hd'.1, List.nil_append]
    · rw [hd'.2, hc, Nat.add_right_comm]
  rw [← hp'.unique hp]
  exact (Rule.matches_many consumes_classItem).2 ⟨hr', hm.failed _ _ hd' hf⟩

/-- Items are read in a class as they are in the text that consists of them alone, wherever the
class stands. -/
theorem ClassItem.SpelledEach.matches_many_here {c d : Cursor} {body : List Char}
    {items : List ClassItem} (h : SpelledEach c.offset body items) (hp : c.Passes body d)
    (hd : ∀ b ∈ d.rest.head?, b = ']') : (many classItem).Matches c items d := by
  have hm := h.matches_many (k := 0) rfl hp hd
  have hzero : ClassItem.mapSpans (Span.shift 0) = id := funext ClassItem.mapSpans_id
  rwa [hzero, List.map_id] at hm

/-- What is read in front of a bracket would be read without it. -/
theorem ClassItem.spelledEach_of_matches {c d : Cursor} {items : List ClassItem}
    (hm : (many classItem).Matches c items d) (hd : ∀ b ∈ d.rest.head?, b = ']') :
    SpelledEach c.offset (items.flatMap ClassItem.chars) items := by
  obtain ⟨hp, hall⟩ :=
    passes_of_repeats_classItem ((matches_many consumes_classItem).1 hm).1
  obtain ⟨items', h⟩ := SpelledEach.exists c.offset hall
  -- the characters were read as the members that they spell, so these are the members found
  obtain ⟨rfl, -⟩ := (h.matches_many_here hp hd).unique hm
  exact h

/-- The circumflex of a negated class. -/
def CharClass.caret (k : CharClass) : List Char := if k.negated then ['^'] else []

/-- A text spells a character class. -/
def CharClass.Spelled (offset : Nat) (cs : List Char) (k : CharClass) : Prop :=
  ∃ body, body ≠ [] ∧ (∀ a ∈ body, Written.isClassChar a = true) ∧
    (k.negated = false → body.head? ≠ some '^') ∧ cs = ['['] ++ k.caret ++ body ++ [']'] ∧
    ClassItem.SpelledEach (offset + Text.byteLength (['['] ++ k.caret)) body k.items ∧
    k.span = .over offset cs

/-- A class is spelled as it is printed. -/
theorem CharClass.Spelled.chars {offset : Nat} {cs : List Char} {k : CharClass}
    (h : k.Spelled offset cs) : k.chars = cs := by
  obtain ⟨body, -, -, -, rfl, hitems, -⟩ := h
  rw [CharClass.chars, hitems.chars]
  rfl

/-- The only closing bracket of a class is its last character. -/
theorem CharClass.Spelled.eq_append {offset : Nat} {cs : List Char} {k : CharClass}
    (h : k.Spelled offset cs) : ∃ front, cs = front ++ [']'] ∧ ']' ∉ front := by
  obtain ⟨body, -, hall, -, rfl, -, -⟩ := h
  refine ⟨['['] ++ k.caret ++ body, rfl, ?_⟩
  simp only [List.mem_append, not_or]
  refine ⟨⟨by decide, ?_⟩, ?_⟩
  · unfold CharClass.caret
    split <;> decide
  · intro hmem
    have hbracket := hall ']' hmem
    revert hbracket
    decide

/-- The rule for the circumflex of a negated class. -/
def circumflex : Rule (Option Char) := perhaps (charWhere (· == '^'))

/-- A circumflex is taken wherever it comes first. -/
theorem passes_of_matches_circumflex {c d : Cursor} {v : Option Char}
    (h : circumflex.Matches c v d) : c.Passes (if v.isSome then ['^'] else []) d ∧
      (v.isSome = false → c.rest.head? ≠ some '^') := by
  simp only [circumflex, matches_perhaps, matches_charWhere, fails_charWhere] at h
  rcases h with ⟨a, ⟨ha, hp⟩, rfl⟩ | ⟨hno, rfl, rfl⟩
  · rw [beq_iff_eq.1 ha] at hp
    exact ⟨hp, by simp⟩
  · refine ⟨.refl d, fun _ hhead => ?_⟩
    have hfalse := hno '^' hhead
    simp at hfalse

/-- A class that is not negated must not begin with a circumflex. -/
theorem matches_circumflex_of_passes {c d : Cursor} {negated : Bool}
    (hp : c.Passes (if negated then ['^'] else []) d)
    (hno : negated = false → c.rest.head? ≠ some '^') :
    circumflex.Matches c (if negated then some '^' else none) d := by
  simp only [circumflex, matches_perhaps, matches_charWhere, fails_charWhere]
  cases negated with
  | true => exact .inl ⟨'^', ⟨rfl, hp⟩, rfl⟩
  | false =>
      obtain rfl := Cursor.Passes.unique (.refl c) hp
      refine .inr ⟨fun a ha => ?_, rfl, rfl⟩
      rw [beq_eq_false_iff_ne]
      rintro rfl
      exact hno rfl ha

/-- A class without items is missed although its brackets are there. -/
theorem charClass_eq : charClass = (do
    let start ← here
    literal "["
    let caret ← circumflex
    let items ← many classItem
    if items.isEmpty then mismatch
    else
      literal "]"
      let stop ← here
      return ⟨caret.isSome, items, ⟨start, stop⟩⟩) := rfl

/-- The members behind the circumflex, if there are any, are class characters, and without a
circumflex in front they do not begin with one either. -/
theorem members_of_matches {c d e : Cursor} {caret : Option Char} {items : List ClassItem}
    (hcaret : circumflex.Matches c caret d) (hitems : (many classItem).Matches d items e)
    (hne : items.isEmpty = false) :
    ∃ body, d.Passes body e ∧ body ≠ [] ∧ (∀ a ∈ body, Written.isClassChar a = true) ∧
      (caret.isSome = false → body.head? ≠ some '^') := by
  obtain ⟨hr, -⟩ := (matches_many consumes_classItem).1 hitems
  obtain ⟨hp, hall⟩ := passes_of_repeats_classItem hr
  have hbody : items.flatMap ClassItem.chars ≠ [] := by
    cases hr with
    | done => simp at hne
    | step hm _ => simp [(passes_of_matches_classItem hm).2.1]
  -- a circumflex at the start would have been taken as the mark of a negated class
  refine ⟨_, hp, hbody, hall, fun hnone hhead => ?_⟩
  obtain ⟨hcaret, hno⟩ := passes_of_matches_circumflex hcaret
  rw [hnone] at hcaret
  obtain rfl := Cursor.Passes.unique (.refl c) hcaret
  apply hno hnone
  rw [hp.1, List.head?_append_of_ne_nil _ hbody]
  exact hhead

/-- What is read as a class is spelled like one. -/
theorem spelled_of_matches_charClass {c d : Cursor} {k : CharClass} (h : charClass.Matches c k d) :
    ∃ cs, c.Passes cs d ∧ k.Spelled c.offset cs := by
  simp only [charClass_eq, matches_bind, matches_here, matches_literal] at h
  obtain ⟨_, _, ⟨rfl, rfl⟩, _, e, he, caret, f, hf, items, g, hg, h⟩ := h
  obtain ⟨hcaret, -⟩ := passes_of_matches_circumflex hf
  split at h
  · exact absurd h matches_mismatch
  next hne =>
    -- the items are followed by the bracket, so that they are read as they would be alone
    simp only [matches_bind, matches_here, matches_literal, matches_pure] at h
    obtain ⟨_, _, hd, _, _, ⟨rfl, rfl⟩, rfl, rfl⟩ := h
    have hclose : g.rest = ']' :: d.rest := hd.1
    obtain ⟨body, hp, hbody, hall, hfirst⟩ := members_of_matches hf hg (by simpa using hne)
    have hitems := ClassItem.spelledEach_of_matches hg (by simp [hclose])
    obtain ⟨hp', -⟩ := passes_of_repeats_classItem ((matches_many consumes_classItem).1 hg).1
    obtain rfl := hp.inj hp'
    have hover := ((he.trans hcaret).trans hp).trans hd
    refine ⟨_, hover, _, hbody, hall, hfirst, rfl, ?_, hover.over⟩
    rwa [hcaret.2, he.2, Nat.add_assoc, ← Text.byteLength_append] at hitems

/-- What is spelled like a class is read as one. -/
theorem matches_charClass_of_spelled {c d : Cursor} {cs : List Char} {k : CharClass}
    (hp : c.Passes cs d) (h : k.Spelled c.offset cs) : charClass.Matches c k d := by
  obtain ⟨body, hbody, hall, hcaret, rfl, hitems, hspan⟩ := h
  have hover := hp.over
  obtain ⟨g, hg, hd⟩ := hp.split
  obtain ⟨f, hf, hg⟩ := hg.split
  obtain ⟨e, he, hf⟩ := hf.split
  have hclose : g.rest = ']' :: d.rest := hd.1
  rw [← (he.trans hf).2] at hitems
  have hmany := hitems.matches_many_here hg (by simp [hclose])
  have hne : k.items.isEmpty = false := by
    cases hk : k.items with
    | nil => exact absurd (by rw [← hitems.chars, hk]; rfl) hbody
    | cons => rfl
  -- without a mark in front of them, the items begin right behind the bracket
  have hno : k.negated = false → e.rest.head? ≠ some '^' := by
    intro hk
    rw [CharClass.caret, hk] at hf
    obtain rfl := Cursor.Passes.unique (.refl e) hf
    rw [hg.1, List.head?_append_of_ne_nil _ hbody]
    exact hcaret hk
  simp only [charClass_eq, matches_bind, matches_here, matches_literal]
  refine ⟨_, c, ⟨rfl, rfl⟩, (), e, he, _, f, matches_circumflex_of_passes hf hno, k.items, g, hmany,
    ?_⟩
  simp only [hne, Bool.false_eq_true, if_false, matches_bind, matches_here, matches_literal,
    matches_pure]
  refine ⟨(), d, hd, _, d, ⟨rfl, rfl⟩, ?_, rfl⟩
  rw [hover, ← hspan]
  rcases k with ⟨_ | _, items, span⟩ <;> rfl

/-- A class is read exactly where one is spelled, whatever follows it. -/
theorem matches_charClass {c d : Cursor} {k : CharClass} :
    charClass.Matches c k d ↔ ∃ cs, c.Passes cs d ∧ k.Spelled c.offset cs :=
  ⟨spelled_of_matches_charClass, fun ⟨_, hp, h⟩ => matches_charClass_of_spelled hp h⟩

end Railroad.Notation
