import Railroad.Notation.Printer
import Railroad.Proofs.Notation.Layout
set_option autoImplicit false

/-!
# What lexemes are read from

A text that begins at some offset *spells* a lexeme when it is a text of the language of the
notation, its parts are those of the lexeme, and the lexeme records the span of the text. Each rule
for a lexeme matches exactly where a text that spells the lexeme stands and, for names, codes and
addresses, no further character continues it.
-/

namespace Railroad

/-- The span of a text that begins at an offset. -/
def Span.over (offset : Nat) (cs : List Char) : Span := ⟨offset, offset + Text.byteLength cs⟩

namespace Notation

open Rule

/-- The span between two places covers the characters between them. -/
theorem Cursor.Passes.over {c d : Cursor} {cs : List Char} (h : c.Passes cs d) :
    (⟨c.offset, d.offset⟩ : Span) = .over c.offset cs := by
  rw [h.2]
  rfl

/-! ## Names -/

/-- A text spells a name. -/
def Name.Spelled (offset : Nat) (cs : List Char) (n : Name) : Prop :=
  cs ∈ Written.name ∧ n = ⟨String.ofList cs, .over offset cs⟩

/-- A name is printed as it is spelled. -/
theorem Name.Spelled.chars {offset : Nat} {cs : List Char} {n : Name} (h : n.Spelled offset cs) :
    n.chars = cs := by
  rw [h.2, Name.chars, String.toList_ofList]

/-- A name is read if one is spelled, and no letter or digit follows that would belong to it. -/
theorem matches_name {c d : Cursor} {n : Name} :
    name.Matches c n d ↔ ∃ cs, c.Passes cs d ∧ n.Spelled c.offset cs ∧
      ∀ a ∈ d.rest.head?, a.isAlphanum = false := by
  simp only [name, matches_bind, matches_here, matches_expecting, matches_pure, matches_charWhere,
    matches_charsWhile]
  constructor
  · rintro ⟨_, _, ⟨rfl, rfl⟩, _, _, ⟨a, e, ⟨ha, hp⟩, more, f, ⟨hq, hmore, hstop⟩, rfl, rfl⟩, _, _,
      ⟨rfl, rfl⟩, rfl, rfl⟩
    refine ⟨_, hp.trans hq, ⟨?_, ?_⟩, hstop⟩
    · exact ⟨[a], ⟨a, ha, rfl⟩, more, Written.mem_kstar_one.2 hmore, rfl⟩
    · rw [(hp.trans hq).over]
      rfl
  -- the first letter is read on its own, and the run of the others ends where the name does
  · rintro ⟨_, hp, ⟨⟨_, ⟨a, ha, rfl⟩, more, hmore, rfl⟩, rfl⟩, hstop⟩
    obtain ⟨e, he, hq⟩ := hp.split
    refine ⟨_, c, ⟨rfl, rfl⟩, a :: more, d, ⟨a, e, ⟨ha, he⟩, more, d,
      ⟨hq, Written.mem_kstar_one.1 hmore, hstop⟩, rfl, rfl⟩, _, d, ⟨rfl, rfl⟩, ?_, rfl⟩
    rw [hp.over]
    rfl

theorem decides_name : name.Decides :=
  .bind .here fun _ =>
    .bind (.expecting _ (.bind (.charWhere _) fun _ => .bind (.charsWhile _) fun _ => .pure _))
      fun _ => .bind .here fun _ => .pure _

/-! ## Strings -/

/-- A text spells a string. -/
def StringLiteral.Spelled (offset : Nat) (cs : List Char) (s : StringLiteral) : Prop :=
  ∃ value, (s.quote = '"' ∨ s.quote = '\'') ∧ s.quote ∉ value ∧ cs = s.quote :: value ++ [s.quote] ∧
    s = ⟨String.ofList value, s.quote, .over offset cs⟩

/-- A string literal is printed with the quotes that it is spelled with. -/
theorem StringLiteral.Spelled.chars {offset : Nat} {cs : List Char} {s : StringLiteral}
    (h : s.Spelled offset cs) : s.chars = cs := by
  obtain ⟨value, -, -, rfl, hs⟩ := h
  have hvalue : s.value.toList = value := by rw [hs, String.toList_ofList]
  rw [StringLiteral.chars, hvalue]

/-- A string literal is read if one is spelled, whatever follows its quote. -/
theorem matches_stringLiteral {c d : Cursor} {s : StringLiteral} :
    stringLiteral.Matches c s d ↔ ∃ cs, c.Passes cs d ∧ s.Spelled c.offset cs := by
  simp only [stringLiteral, matches_bind, matches_here, matches_expecting, matches_pure,
    matches_charWhere, matches_charsWhile, matches_literal, String.toList_singleton]
  constructor
  · rintro ⟨_, _, ⟨rfl, rfl⟩, q, e, ⟨hq, he⟩, value, f, ⟨hf, hvalue, -⟩, _, g, hg, _, _, ⟨rfl, rfl⟩,
      rfl, rfl⟩
    have hp := (he.trans hf).trans hg
    refine ⟨_, hp, value, ?_, ?_, rfl, ?_⟩
    · simpa using hq
    · intro hmem
      simpa using hvalue q hmem
    · rw [hp.over]
  · rintro ⟨cs, hp, value, hq, hmem, rfl, hs⟩
    obtain ⟨f, hf, hg⟩ := hp.split
    obtain ⟨e, he, hf⟩ := hf.cons
    refine ⟨_, c, ⟨rfl, rfl⟩, s.quote, e, ⟨by simpa using hq, he⟩, value, f, ⟨hf, ?_, ?_⟩, (), d,
      hg, _, d, ⟨rfl, rfl⟩, ?_, rfl⟩
    -- no character of the value is the quote
    · intro a ha
      rw [bne_iff_ne]
      rintro rfl
      exact hmem ha
    · intro a ha
      obtain rfl : s.quote = a := by simpa [hg.1] using ha
      simp
    · rw [hp.over]
      exact hs

/-! ## Character codes -/

/-- A text spells a character code. -/
def CharCode.Spelled (offset : Nat) (cs : List Char) (k : CharCode) : Prop :=
  ∃ digits, digits ≠ [] ∧ (∀ a ∈ digits, Text.isHexDigit a = true) ∧ cs = '#' :: 'x' :: digits ∧
    k = ⟨String.ofList digits, .over offset cs⟩

theorem CharCode.Spelled.chars {offset : Nat} {cs : List Char} {k : CharCode}
    (h : k.Spelled offset cs) : k.chars = cs := by
  obtain ⟨digits, -, -, rfl, rfl⟩ := h
  rw [CharCode.chars, String.toList_ofList]

/-- A code is read if one is spelled, and no further digit follows. -/
theorem matches_charCode {c d : Cursor} {k : CharCode} :
    charCode.Matches c k d ↔ ∃ cs, c.Passes cs d ∧ k.Spelled c.offset cs ∧
      ∀ a ∈ d.rest.head?, Text.isHexDigit a = false := by
  simp only [charCode, matches_bind, matches_here, matches_expecting, matches_pure,
    matches_literal, matches_someCharsWhile]
  constructor
  · rintro ⟨_, _, ⟨rfl, rfl⟩, digits, _, ⟨_, e, he, hne, hq, hall, hstop⟩, _, _, ⟨rfl, rfl⟩, rfl,
      rfl⟩
    refine ⟨_, he.trans hq, ⟨digits, hne, hall, rfl, ?_⟩, hstop⟩
    rw [(he.trans hq).over]
  · rintro ⟨cs, hp, ⟨digits, hne, hall, rfl, rfl⟩, hstop⟩
    obtain ⟨e, he, hq⟩ : ∃ e, c.Passes ['#', 'x'] e ∧ e.Passes digits d := hp.split
    refine ⟨_, c, ⟨rfl, rfl⟩, digits, d, ⟨(), e, he, hne, hq, hall, hstop⟩, _, d, ⟨rfl, rfl⟩, ?_,
      rfl⟩
    rw [hp.over]

theorem decides_charCode : charCode.Decides :=
  .bind .here fun _ =>
    .bind (.expecting _ (.bind (.literal _) fun _ =>
      .bind (.charWhere _) fun _ => .bind (.charsWhile _) fun _ => .pure _))
      fun _ => .bind .here fun _ => .pure _

/-! ## Links -/

/-- A text spells a link. -/
def Link.Spelled (offset : Nat) (cs : List Char) (l : Link) : Prop :=
  l.url.toList ∈ Written.address ∧
    (∀ n ∈ l.fragment, n.Spelled (offset + 1 + Text.byteLength l.url.toList + 1) n.chars) ∧
    cs = l.chars ∧ l.span = .over offset cs

/-- An address is read if one is spelled, and nothing follows that could go on in it. -/
theorem matches_url {c d : Cursor} {text : String} :
    url.Matches c text d ↔ ∃ cs ∈ Written.address, c.Passes cs d ∧ text = String.ofList cs ∧
      ∀ a ∈ d.rest.head?, isAddressChar a = false := by
  simp only [url, matches_bind, matches_expecting, matches_pure, matches_literal,
    matches_someCharsWhile]
  constructor
  · rintro ⟨_, _, ⟨scheme, e, ⟨hs, he, hsall, -⟩, _, f, hf, body, _, ⟨hb, hg, hball, hstop⟩, rfl,
      rfl⟩, rfl, rfl⟩
    refine ⟨_, ?_, (he.trans hf).trans hg, rfl, hstop⟩
    exact Language.append_mem_mul (Language.append_mem_mul (Written.mem_plus_one.2 ⟨hs, hsall⟩) rfl)
      (Written.mem_plus_one.2 ⟨hb, hball⟩)
  · rintro ⟨_, ⟨_, ⟨scheme, hs, _, rfl, rfl⟩, body, hb, rfl⟩, hp, rfl, hstop⟩
    obtain ⟨f, hf, hg⟩ := hp.split
    obtain ⟨e, he, hf⟩ := hf.split
    obtain ⟨hs, hsall⟩ := Written.mem_plus_one.1 hs
    obtain ⟨hb, hball⟩ := Written.mem_plus_one.1 hb
    -- the scheme goes as far as the colon behind it
    refine ⟨_, d, ⟨scheme, e, ⟨hs, he, hsall, ?_⟩, (), f, hf, body, d, ⟨hb, hg, hball, hstop⟩, rfl,
      rfl⟩, rfl, rfl⟩
    intro a ha
    obtain rfl : ':' = a := by simpa [hf.1] using ha
    decide

theorem decides_url : url.Decides :=
  .bind (.expecting _ (.bind (.bind (.charWhere _) fun _ => .bind (.charsWhile _) fun _ => .pure _)
    fun _ => .bind (.literal _) fun _ =>
      .bind (.bind (.charWhere _) fun _ => .bind (.charsWhile _) fun _ => .pure _) fun _ =>
        .pure _))
    fun _ => .pure _

/-- What follows the address in a link: a name behind `#`, or nothing. -/
def fragmentChars : Option Name → List Char
  | none => []
  | some n => '#' :: n.chars

/-- A link is printed as its address and its fragment in brackets. -/
theorem Link.chars_eq (l : Link) :
    l.chars = ['['] ++ l.url.toList ++ fragmentChars l.fragment ++ [']'] := by
  rcases l with ⟨url, fragment, span⟩
  cases fragment with
  | none => simp [Link.chars, Link.target, fragmentChars]
  | some n => simp [Link.chars, Link.target, fragmentChars, Name.chars, String.toList_append]

/-- The rule for what follows the address. -/
def fragment : Rule (Option Name) := perhaps do
  let _ ← charWhere (· == '#')
  name

/-- A fragment is a hash sign and a name, or nothing. -/
theorem passes_of_matches_fragment {c d : Cursor} {v : Option Name} (h : fragment.Matches c v d) :
    c.Passes (fragmentChars v) d ∧ ∀ n ∈ v, n.Spelled (c.offset + 1) n.chars := by
  simp only [fragment, matches_perhaps, matches_bind, matches_charWhere, matches_name] at h
  rcases h with ⟨n, ⟨a, e, ⟨ha, he⟩, cs, hcs, hn, -⟩, rfl⟩ | ⟨-, rfl, rfl⟩
  · obtain rfl : a = '#' := by simpa using ha
    rw [← hn.chars] at hcs hn
    refine ⟨he.trans hcs, ?_⟩
    intro m hm
    obtain rfl := Option.some.inj hm
    rwa [he.2] at hn
  · exact ⟨.refl d, by simp⟩

/-- In front of the bracket of a link, a fragment is read as it is spelled. -/
theorem matches_fragment_of_passes {c d : Cursor} {v : Option Name}
    (hp : c.Passes (fragmentChars v) d) (hv : ∀ n ∈ v, n.Spelled (c.offset + 1) n.chars)
    (hd : d.rest.head? = some ']') : fragment.Matches c v d := by
  simp only [fragment, matches_perhaps, matches_bind, matches_charWhere, matches_name, fails_bind,
    fails_charWhere]
  cases v with
  | none =>
      obtain rfl := Cursor.Passes.unique (.refl c) hp
      -- the bracket is no hash sign, so that no fragment is found
      refine .inr ⟨.inl ?_, rfl, rfl⟩
      simp [hd]
  | some n =>
      obtain ⟨e, he, hq⟩ := Cursor.Passes.cons hp
      have hn := hv n rfl
      refine .inl ⟨n, ⟨'#', e, ⟨rfl, he⟩, n.chars, hq, ?_, ?_⟩, rfl⟩
      · rwa [he.2]
      · simp only [hd, Option.mem_def, Option.some.injEq]
        rintro _ rfl
        decide

/-- A link is read as its parts one after the other, of which the fragment can be looked at on its
own. -/
theorem link_eq : link = (do
    let start ← here
    literal "["
    let address ← url
    let found ← fragment
    literal "]"
    let stop ← here
    return ⟨address, found, ⟨start, stop⟩⟩) := rfl

/-- A link is read if one is spelled. -/
theorem matches_link {c d : Cursor} {l : Link} :
    link.Matches c l d ↔ ∃ cs, c.Passes cs d ∧ l.Spelled c.offset cs := by
  simp only [link_eq, matches_bind, matches_here, matches_pure, matches_literal, matches_url]
  constructor
  · rintro ⟨_, _, ⟨rfl, rfl⟩, _, e, he, _, f, ⟨address, haddress, hf, rfl, -⟩, found, g, hg,
      _, _, hd, _, _, ⟨rfl, rfl⟩, rfl, rfl⟩
    obtain ⟨hg, hfound⟩ := passes_of_matches_fragment hg
    have hp := ((he.trans hf).trans hg).trans hd
    refine ⟨_, hp, ?_, ?_, ?_, hp.over⟩
    · simpa using haddress
    · rw [hf.2, he.2] at hfound
      rw [String.toList_ofList]
      exact hfound
    · simp [Link.chars_eq]
  · rintro ⟨cs, hp, haddress, hfound, rfl, hspan⟩
    have hover := hp.over
    rw [Link.chars_eq] at hp
    obtain ⟨g, hg, hd⟩ := hp.split
    obtain ⟨f, hf, hg⟩ := hg.split
    obtain ⟨e, he, hf⟩ := hf.split
    -- the bracket ends whatever stands in front of it
    have hclose : g.rest.head? = some ']' := by simp [hd.1]
    refine ⟨_, c, ⟨rfl, rfl⟩, (), e, he, _, f, ⟨_, haddress, hf, rfl, ?_⟩, l.fragment, g,
      matches_fragment_of_passes hg ?_ hclose, (), d, hd, _, d, ⟨rfl, rfl⟩, ?_, rfl⟩
    · -- the address ends at its fragment, or at the bracket if there is none
      intro a ha
      have hhead : a = '#' ∨ a = ']' := by
        rw [hg.1] at ha
        cases hl : l.fragment with
        | none => exact .inr (by simpa [hl, fragmentChars, hclose, eq_comm] using ha)
        | some n => exact .inl (by simpa [hl, fragmentChars, eq_comm] using ha)
      rcases hhead with rfl | rfl <;> decide
    · rw [hf.2, he.2]
      exact hfound
    · rw [hover, ← hspan, String.ofList_toList]

/-- What is spelled like a link is one in the notation. -/
theorem Link.Spelled.mem {offset : Nat} {cs : List Char} {l : Link} (h : l.Spelled offset cs) :
    cs ∈ Written.link := by
  obtain ⟨haddress, hfragment, rfl, -⟩ := h
  rw [Link.chars_eq]
  refine Language.append_mem_mul (Language.append_mem_mul
    (Language.append_mem_mul rfl haddress) ?_) rfl
  cases hl : l.fragment with
  | none => exact .inl rfl
  | some n => exact .inr (Language.append_mem_mul (a := ['#']) rfl (hfragment n (by simp [hl])).1)

/-- Every text of the language of links spells a link. -/
theorem Link.exists_spelled {cs : List Char} (h : cs ∈ Written.link) (offset : Nat) :
    ∃ l : Link, l.Spelled offset cs := by
  obtain ⟨_, ⟨_, ⟨_, rfl, address, haddress, rfl⟩, found, hfound, rfl⟩, _, rfl, rfl⟩ := h
  rcases hfound with rfl | ⟨_, rfl, text, htext, rfl⟩
  · refine ⟨⟨String.ofList address, none, .over offset _⟩, ?_, by simp, ?_, rfl⟩
    · rwa [String.toList_ofList]
    · simp [Link.chars_eq, fragmentChars]
  -- the fragment stands behind the bracket, the address and the hash sign
  · let n : Name :=
      ⟨String.ofList text, .over (offset + 1 + Text.byteLength address + 1) text⟩
    have hn : n.chars = text := String.toList_ofList
    refine ⟨⟨String.ofList address, some n, .over offset _⟩, ?_, ?_, ?_, rfl⟩
    · rwa [String.toList_ofList]
    · intro m hm
      obtain rfl := Option.some.inj hm
      rw [hn, String.toList_ofList]
      exact ⟨htext, rfl⟩
    · simp [Link.chars_eq, fragmentChars, hn]

theorem decides_link : link.Decides :=
  .bind .here fun _ => .bind (.literal _) fun _ => .bind decides_url fun _ =>
    .bind (.perhaps (.bind (.charWhere _) fun _ => decides_name)) fun _ =>
      .bind (.literal _) fun _ => .bind .here fun _ => .pure _

end Notation

end Railroad
