import Railroad.Proofs.Except
import Railroad.Proofs.Notation.Nesting
import Railroad.Proofs.Notation.TrackedLexeme
set_option autoImplicit false

/-!
# What readings at byte offsets take

A rule at byte offsets takes a text of the language of the notation wherever it matches, whatever
has happened before (`Takes`). Lexemes do, because they do there what the rules of the notation do,
a refused group or not. The rules around groups do because of how they are put together. So where
the rules go on behind a refused group, they still read nothing but texts of the language, and in
these no group is refused in the first place (`mem_document_of_matched`).
-/

namespace Railroad.Notation.Checked

open Computability

section Taken

variable {α β : Type} {reader other : Reader α} {next : α → Reader β} {texts more : Language Char}

/-- Whenever the rule matches at a place of a text, it takes a text of a language. -/
def Takes (reader : Reader α) (texts : Language Char) : Prop :=
  ∀ ⦃src : List Char⦄ ⦃c : Cursor⦄ ⦃notes notes' : Notes⦄ ⦃a : α⦄ ⦃j : Nat⦄, c.In src →
    reader src notes c.offset = .ok (some (a, j), notes') →
      ∃ cs ∈ texts, ∃ d : Cursor, c.Passes cs d ∧ d.offset = j

/-- A reading that takes only some texts takes only these and others. -/
theorem Takes.mono (h : Takes reader texts) (hle : texts ≤ more) : Takes reader more := by
  intro src c notes notes' a j hc hrun
  obtain ⟨cs, hcs, d, hp, hj⟩ := h hc hrun
  exact ⟨cs, hle hcs, d, hp, hj⟩

/-! ## Matches taken apart -/

section Matches

variable {src : List Char} {notes notes' : Notes} {i j : Nat} {a : α}

/-- A sequence of readings succeeds if both do, one behind the other. -/
theorem exists_of_bind {b : β} (h : (reader >>= next) src notes i = .ok (some (b, j), notes')) :
    ∃ a k between, reader src notes i = .ok (some (a, k), between) ∧
      next a src between k = .ok (some (b, j), notes') := by
  change Reader.bind reader next src notes i = _ at h
  obtain ⟨⟨_ | ⟨a, k⟩, between⟩, hr, h⟩ := bind_eq_ok.1 h
  · cases h
  · exact ⟨a, k, between, hr, h⟩

/-- Alternatives succeed if one of them does at the same offset. -/
theorem exists_of_orElse (h : (reader <|> other) src notes i = .ok (some (a, j), notes')) :
    reader src notes i = .ok (some (a, j), notes') ∨
      ∃ between, other src between i = .ok (some (a, j), notes') := by
  change Reader.orElse reader other src notes i = _ at h
  obtain ⟨⟨_ | found, between⟩, hr, h⟩ := bind_eq_ok.1 h
  · exact .inr ⟨between, h⟩
  · cases h
    exact .inl hr

/-- The checks of a part are passed or a fault. -/
theorem eq_of_part {p : Part} (h : part p reader src notes i = .ok (some (a, j), notes')) :
    reader src notes i = .ok (some (a, j), notes') := by
  obtain ⟨_, -, h⟩ := bind_eq_ok.1 h
  obtain ⟨⟨_ | ⟨b, k⟩, between⟩, hr, h⟩ := bind_eq_ok.1 h
  · cases h
  · obtain ⟨_, -, h⟩ := bind_eq_ok.1 h
    split at h
    · cases h
      exact hr
    · cases h

end Matches

/-! ## Combinations of rules -/

theorem Takes.pure (a : α) : Takes (Pure.pure a : Reader α) 1 := by
  rintro src c notes _ _ _ _ ⟨⟩
  exact ⟨[], rfl, c, .refl c, rfl⟩

/-- What two readings take one after the other is a text of the first kind followed by one of the
second. -/
theorem Takes.bind (h : Takes reader texts) (k : ∀ a, Takes (next a) more) :
    Takes (reader >>= next) (texts * more) := by
  intro src c notes notes' b j hc hrun
  obtain ⟨a, _, between, hfirst, hsecond⟩ := exists_of_bind hrun
  obtain ⟨cs, hcs, d, hp, rfl⟩ := h hc hfirst
  obtain ⟨cs', hcs', e, hq, he⟩ := k a (hc.passes hp) hsecond
  exact ⟨cs ++ cs', Language.append_mem_mul hcs hcs', e, hp.trans hq, he⟩

/-- A rule behind one that takes nothing. -/
theorem Takes.after_nothing (h : Takes reader 1) (k : ∀ a, Takes (next a) texts) :
    Takes (reader >>= next) texts := by
  have hbind := h.bind k
  rwa [one_mul] at hbind

/-- A rule in front of one that takes nothing. -/
theorem Takes.and_nothing (h : Takes reader texts) (k : ∀ a, Takes (next a) 1) :
    Takes (reader >>= next) texts := by
  have hbind := h.bind k
  rwa [mul_one] at hbind

theorem Takes.map {f : α → β} (h : Takes reader texts) : Takes (f <$> reader) texts :=
  h.and_nothing fun _ => .pure _

/-- What alternatives take is a text of one of both kinds. -/
theorem Takes.orElse (h : Takes reader texts) (k : Takes other more) :
    Takes (reader <|> other) (texts + more) := by
  intro src c notes notes' a j hc hrun
  rcases exists_of_orElse hrun with hrun | ⟨between, hrun⟩
  · obtain ⟨cs, hcs, hd⟩ := h hc hrun
    exact ⟨cs, .inl hcs, hd⟩
  · obtain ⟨cs, hcs, hd⟩ := k hc hrun
    exact ⟨cs, .inr hcs, hd⟩

theorem Takes.part {p : Part} (h : Takes reader texts) : Takes (Checked.part p reader) texts :=
  fun _ _ _ _ _ _ hc hrun => h hc (eq_of_part hrun)

theorem Takes.here : Takes Checked.here 1 := by
  rintro src c notes _ _ _ _ ⟨⟩
  exact ⟨[], rfl, c, .refl c, rfl⟩

theorem Takes.spanFrom (start : Nat) : Takes (Checked.spanFrom start) 1 := by
  intro src c notes notes' a j _ hrun
  obtain ⟨span, -, hrun⟩ := bind_eq_ok.1 hrun
  cases hrun
  exact ⟨[], rfl, c, .refl c, rfl⟩

/-- Looking ahead takes nothing. -/
theorem Takes.lookahead : Takes (Checked.lookahead reader) 1 := by
  intro src c notes notes' a j _ hrun
  obtain ⟨⟨_ | _, between⟩, -, hrun⟩ := bind_eq_ok.1 hrun
  · cases hrun
  · cases hrun
    exact ⟨[], rfl, c, .refl c, rfl⟩

/-- What a repetition takes is cut into one text a round, by induction on the rounds. -/
theorem Takes.many (h : Takes reader texts) : Takes (Checked.many reader) texts∗ := by
  have key : ∀ rounds, Takes (manyWithin reader rounds) texts∗ := by
    intro rounds
    induction rounds with
    | zero => exact fun _ _ _ _ _ _ _ hrun => nomatch hrun
    | succ rounds ih =>
        have hround : Takes (manyWithin reader (rounds + 1)) (texts * texts∗ + 1) :=
          .orElse (.bind h fun _ => ih.map) (.pure [])
        rwa [add_comm (texts * texts∗), Language.one_add_self_mul_kstar_eq_kstar] at hround
  exact fun src _ _ _ _ _ hc hrun => key (src.length + 1) hc hrun

/-- What is taken in a group does not depend on how many groups are open. -/
theorem Takes.enter {start : Nat} (h : Takes reader texts) :
    Takes (Checked.enter start reader) texts := by
  intro src c notes notes' a j hc hrun
  -- a group that is refused yields nothing, and one that is read yields what its choice does
  unfold Checked.enter at hrun
  split at hrun
  · cases hrun
  · split at hrun
    · cases hrun
    · obtain ⟨⟨result, outer⟩, hinner, hrun⟩ := bind_eq_ok.1 hrun
      dsimp only at hrun
      split at hrun
      · cases hrun
      · cases hrun
        exact h hc hinner

/-! ## Lexemes -/

/-- A rule that has nothing to do with groups takes what the rule takes that it tracks. -/
theorem Takes.of_tracks {s : Bool} {rule : Rule α} (h : ∀ n, Tracks n 0 s reader rule)
    (hflat : rule.Flat)
    (htexts : ∀ ⦃c d : Cursor⦄ ⦃a : α⦄, rule.Matches c a d → ∃ cs ∈ texts, c.Passes cs d) :
    Takes reader texts := by
  intro src c notes notes' a j hc hrun
  obtain ⟨result, _, hrun', hf⟩ := h notes.depth hc (Nat.zero_le _) notes rfl
  obtain ⟨rfl, -⟩ : some (a, j) = result ∧ notes' = _ := by simpa using hrun.symm.trans hrun'
  -- a rule that has nothing to do with groups never runs into the limit
  have hfree : notes.refused = none ∨ (rule c).Groupless :=
    .inr ⟨(hflat.orderly c).ne_tooDeep, hflat.failed c⟩
  rcases hflat.ends c with hfails | ⟨b, d, -, hm, -⟩
  · obtain ⟨hresult, -⟩ := hf.failed hfree hfails
    cases hresult
  · obtain ⟨-, hresult, -⟩ := hf.matched hfree b d hm
    obtain ⟨-, rfl⟩ : a = b ∧ j = d.offset := by simpa using hresult
    obtain ⟨cs, hcs, hp⟩ := htexts hm
    exact ⟨cs, hcs, d, hp, rfl⟩

/-- Which texts spell a value is known for the rule that is tracked. -/
theorem Takes.of_spelled {s : Bool} {rule : Rule α} {spelled : Spelling α}
    (h : ∀ n, Tracks n 0 s reader rule) (hflat : rule.Flat) (hsound : rule.Sound spelled)
    (hcovers : Spelling.Covers spelled texts) : Takes reader texts := by
  refine .of_tracks h hflat fun c d a hm => ?_
  obtain ⟨cs, hp, hs⟩ := hsound hm
  exact ⟨cs, (hcovers c.offset cs).1 ⟨a, hs⟩, hp⟩

theorem takes_literal {text : String} (htext : text.toList ≠ []) :
    Takes (Checked.literal text) (Written.word text) := by
  refine .of_tracks (fun _ => .literal htext) (.literal text) fun c d _ hm => ?_
  exact ⟨text.toList, rfl, Rule.matches_literal.1 hm⟩

/-- Layout is taken, possibly none. -/
theorem takes_skip (breaks : Bool) : Takes (Checked.skip breaks) (Written.layout breaks) :=
  .of_tracks (fun _ => tracks_skip breaks) (flat_skip breaks) fun _ _ _ hm => (matches_skip.1 hm).1

theorem takes_space : Takes Checked.space (Written.plus (Written.gap false)) :=
  .of_tracks (fun _ => tracks_space) flat_space fun _ _ _ hm => (matches_space.1 hm).1

theorem takes_separator : Takes Checked.separator Written.lineBreak :=
  .of_tracks (fun _ => tracks_separator) flat_separator fun _ _ _ hm => (matches_separator.1 hm).1

theorem takes_endOfText :
    Takes (Checked.part .endOfText (Checked.expecting .endOfText Checked.atEnd)) 1 := by
  refine .of_tracks (fun _ => tracks_endOfText) (.expecting _ .atEnd) fun c d _ hm => ?_
  obtain ⟨-, rfl⟩ := Rule.matches_atEnd.1 (Rule.matches_expecting.1 hm)
  exact ⟨[], rfl, .refl _⟩

/-- Names are taken as the notation spells them, because the reading tracks the rule for names. -/
theorem takes_name : Takes Checked.name Written.name := by
  refine .of_spelled (fun _ => tracks_name) flat_name (fun c d n hm => ?_) Name.covers
  obtain ⟨cs, hp, hs, -⟩ := matches_name.1 hm
  exact ⟨cs, hp, hs⟩

/-- String literals are taken with their quotes. -/
theorem takes_stringLiteral : Takes Checked.stringLiteral Written.string :=
  .of_spelled (fun _ => tracks_stringLiteral) flat_stringLiteral
    (fun _ _ _ => matches_stringLiteral.1)
    StringLiteral.covers

theorem takes_charCode : Takes Checked.charCode Written.code := by
  refine .of_spelled (fun _ => tracks_charCode) flat_charCode (fun c d k hm => ?_) CharCode.covers
  obtain ⟨cs, hp, hs, -⟩ := matches_charCode.1 hm
  exact ⟨cs, hp, hs⟩

theorem takes_charClass : Takes Checked.charClass Written.charClass :=
  .of_spelled (fun _ => tracks_charClass) flat_charClass (fun _ _ _ => matches_charClass.1)
    CharClass.covers

theorem takes_link : Takes Checked.link Written.link :=
  .of_spelled (fun _ => tracks_link) flat_link (fun _ _ _ => matches_link.1) Link.covers

/-- The mark of an item is one character, if there is one. -/
theorem takes_mark : Takes (Checked.perhaps (Checked.charFor Cardinality.ofMark? fun _ => 1))
    (1 + Written.one Written.isMark) := by
  refine .of_tracks (fun _ => .perhaps (.charFor fun _ _ => utf8Size_of_ofMark?))
    (.perhaps (.charFor _))
    fun c d v hm => ?_
  exact ⟨markChars v, mem_mark_iff.2 ⟨v, rfl⟩, passes_of_matches_mark hm⟩

/-! ## From groups to documents -/

/-- A word with layout around it is taken in front of what it introduces. -/
theorem Takes.around {text : String} (htext : text.toList ≠ []) (h : Takes reader texts) :
    Takes
      (do
        Checked.skip false
        Checked.literal text
        Checked.skip false
        reader)
      (Written.around text * texts) := by
  have hall : Takes _ (Written.layout false *
    (Written.word text * (Written.layout false * texts))) :=
    (takes_skip false).bind fun _ => (takes_literal htext).bind fun _ =>
      (takes_skip false).bind fun _ => h
  simpa only [Written.around, mul_assoc] using hall

end Taken

section Rules

variable {group choice : Reader Choice} {primary : Reader Primary} {item : Reader Item}
  {groups choices primaries items : Language Char}

/-- A group is a choice in parentheses, with layout inside them. -/
theorem takes_group (h : Takes choice choices) :
    Takes (Checked.group choice) (Written.group choices) := by
  have hall : Takes (Checked.group choice) (Written.word "(" *
      (Written.layout false * (choices * (Written.layout false * Written.word ")")))) := by
    refine .after_nothing .here fun start => .bind (takes_literal (by decide)) fun _ =>
      .enter (.part ?_)
    refine .bind (takes_skip false) fun _ => .bind h fun within => .bind (takes_skip false) fun _ =>
      ?_
    exact .and_nothing (takes_literal (by decide)) fun _ => .pure within
  simpa only [Written.group, mul_assoc] using hall

/-- What an item consists of is spelled in one of the five ways. -/
theorem takes_primary (h : Takes group groups) :
    Takes (Checked.primary group) (Written.primary groups) := by
  have hall : Takes (Checked.primary group)
      (Written.name + (Written.string + (Written.code + (Written.charClass + groups)))) :=
    .part <| .orElse takes_name.map <| .orElse takes_stringLiteral.map <|
      .orElse takes_charCode.map <|
      .orElse takes_charClass.map h.map
  simpa only [Written.primary, add_assoc] using hall

theorem takes_itemOf (h : Takes primary primaries) :
    Takes (Checked.itemOf primary) (Written.itemOf primaries) := by
  refine .part (.after_nothing .here fun start => .bind h fun body => ?_)
  exact .and_nothing takes_mark fun mark => .and_nothing (.spanFrom start) fun _ => .pure _

/-- What a branch takes is a difference or a sequence. -/
theorem takes_branch (h : Takes item items) :
    Takes (Checked.branch item) (Written.branch items) := by
  have hall : Takes (Checked.branch item)
      (items * (Written.around "-" * items + (Written.plus (Written.gap false) * items)∗)) := by
    refine .part (.after_nothing .here fun start => .bind h fun first => .orElse ?_ ?_)
    · refine .around (by decide) (h.and_nothing fun right => ?_)
      exact .and_nothing (.spanFrom start) fun _ => .pure _
    · refine .and_nothing (.many (takes_space.bind fun _ => h)) fun more => ?_
      exact .and_nothing (.spanFrom start) fun _ => .pure _
  simpa only [Written.branch, Written.difference, Written.sequence, mul_add, mul_assoc] using hall

/-- What a choice takes is branches with bars between them. -/
theorem takes_choice (h : Takes item items) :
    Takes (Checked.choice item) (Written.choice items) := by
  refine .part (.after_nothing .here fun start => .bind (takes_branch h) fun first => ?_)
  refine .and_nothing (.many (.around (by decide) (takes_branch h))) fun more => ?_
  exact .and_nothing (.spanFrom start) fun _ => .pure _

/-- At the last level there are no choices, and groups take nothing. -/
theorem takes_item : ∀ depth, Takes (Checked.item (depth + 1)) (Written.itemWithin depth)
  | 0 => by
      have hnone : Takes (Checked.item 0) 0 := fun _ _ _ _ _ _ _ hrun => nomatch hrun
      have hgroup : Takes (Checked.group (Checked.choice (Checked.item 0))) 0 :=
        (takes_group (takes_choice hnone)).mono (by
          simp only [Written.group, Written.choice, Written.branch, Written.difference,
            Written.sequence, mul_zero, zero_mul, add_zero, le_refl])
      exact takes_itemOf (takes_primary hgroup)
  | depth + 1 => takes_itemOf (takes_primary (takes_group (takes_choice (takes_item depth))))

/-- What a definition takes is a link or a choice, since looking at the end of the line takes
nothing. -/
theorem takes_definition (h : Takes item items) :
    Takes (Checked.definition item) (Written.definition items) := by
  refine .part (.orElse ?_ (takes_choice h).map)
  exact takes_link.and_nothing fun target => .and_nothing .lookahead fun _ => .pure _

/-- What a production takes may begin with layout that belongs to no part of it. -/
theorem takes_production (h : Takes item items) :
    Takes (Checked.production item) (Written.layout false * Written.production items) := by
  have hall : Takes (Checked.production item) (Written.layout false *
      (Written.name * (Written.around "::=" * Written.definition items))) := by
    refine .part (.bind (takes_skip false) fun _ => .after_nothing .here fun start => ?_)
    refine .bind takes_name fun defined => .around (by decide) ?_
    refine .and_nothing (takes_definition h) fun meaning => ?_
    exact .and_nothing (.spanFrom start) fun _ => .pure _
  simpa only [Written.production, mul_assoc] using hall

/-- The layout in front of a production belongs to the layout in front of it or between two
productions. -/
theorem takes_document (h : Takes item items) :
    Takes (Checked.document item) (Written.document items) := by
  -- layout in front of a production is added to the layout that stands there anyway
  have hfront : Written.layout true * Written.layout false ≤ Written.layout true := by
    rintro _ ⟨gap, hgap, more, hmore, rfl⟩
    exact append_mem_layout hgap (mem_layout_true hmore)
  have hbetween : Written.lineBreak * Written.layout false ≤ Written.lineBreak := by
    rintro _ ⟨gap, hgap, more, hmore, rfl⟩
    exact append_mem_lineBreak hgap (mem_layout_true hmore)
  have hseparated : Takes
      (do
        Checked.separator
        Checked.production item)
      (Written.lineBreak * Written.production items) := by
    refine (takes_separator.bind fun _ => takes_production h).mono ?_
    rw [← mul_assoc]
    exact mul_le_mul' hbetween le_rfl
  have hall : Takes (Checked.document item) (Written.layout true * (Written.layout false *
      Written.production items *
        ((Written.lineBreak * Written.production items)∗ * Written.layout true))) := by
    refine .part (.bind (takes_skip true) fun _ => .bind (takes_production h) fun first => ?_)
    refine .bind (.many hseparated) fun rest => .and_nothing (takes_skip true) fun _ => ?_
    exact .and_nothing takes_endOfText fun _ => .pure _
  have hle : Written.layout true * Written.layout false *
      (Written.production items *
        ((Written.lineBreak * Written.production items)∗ * Written.layout true)) ≤
        Written.layout true * (Written.production items *
          ((Written.lineBreak * Written.production items)∗ * Written.layout true)) :=
    mul_le_mul' hfront le_rfl
  refine hall.mono ?_
  simpa only [Written.document, mul_assoc] using hle

/-- Behind a document the text is over. -/
theorem eq_byteLength_of_document {src : List Char} {notes notes' : Notes} {i j : Nat}
    {tree : Document}
    (h : Checked.document item src notes i = .ok (some (tree, j), notes')) :
    j = Text.byteLength src := by
  -- the layout, the first production, the others and the layout behind them
  obtain ⟨_, _, _, -, h⟩ := exists_of_bind (eq_of_part h)
  obtain ⟨_, _, _, -, h⟩ := exists_of_bind h
  obtain ⟨_, _, _, -, h⟩ := exists_of_bind h
  obtain ⟨_, _, _, -, h⟩ := exists_of_bind h
  obtain ⟨_, k, _, hend, h⟩ := exists_of_bind h
  obtain rfl : k = j := by
    cases h
    rfl
  rcases exists_of_orElse (eq_of_part hend) with hend | ⟨_, hfail⟩
  · unfold Checked.atEnd at hend
    split at hend
    next hlength =>
      cases hend
      exact hlength
    · cases hend
  · cases hfail

/-- A text that is read to its end belongs to the language, also where a group has been refused on
the way. -/
theorem mem_document_of_matched {src : List Char} {notes notes' : Notes} {depth j : Nat}
    {tree : Document}
    (h : Checked.document (Checked.item (depth + 1)) src notes 0 = .ok (some (tree, j), notes')) :
    src ∈ Written.document (Written.itemWithin depth) := by
  obtain ⟨cs, hcs, d, hp, hj⟩ := takes_document (takes_item depth) (Cursor.In.start src) h
  have hd : d.rest = [] := by
    rw [((Cursor.In.start src).passes hp).rest_eq_nil_iff, hj, eq_byteLength_of_document h]
  have hsrc : src = cs := by
    have hrest := hp.1
    rwa [hd, List.append_nil] at hrest
  rwa [hsrc]

end Rules

end Railroad.Notation.Checked
