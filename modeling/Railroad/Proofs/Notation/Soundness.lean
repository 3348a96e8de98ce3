import Railroad.Proofs.Notation.Spelling
set_option autoImplicit false

/-!
# What is matched is spelled

Whenever a rule for a part of the notation matches, the characters that it took spell the value it
yields. For definitions this depends on what follows them: a class that is written like a link is
read as a class only where the line goes on, so the statements about definitions and productions ask
that it does not.
-/

namespace Railroad.Notation

open Rule

variable {α : Type}

/-- Whenever the rule matches, it takes a spelling of its value. -/
def Rule.Sound (rule : Rule α) (spelled : Spelling α) : Prop :=
  ∀ ⦃c d : Cursor⦄ ⦃a : α⦄, rule.Matches c a d → ∃ cs, c.Passes cs d ∧ spelled c.offset cs a

/-- Each mark stands for one cardinality. -/
theorem Cardinality.mark_of_ofMark? {a : Char} {cardinality : Cardinality}
    (h : Cardinality.ofMark? a = some cardinality) : a = cardinality.mark := by
  unfold Cardinality.ofMark? at h
  split at h <;> cases h <;> rfl

/-- The line is over if nothing but layout comes before its end, and looking at that takes
nothing. -/
theorem matches_lineIsOver {c d : Cursor} {u : Unit} :
    lineIsOver.Matches c u d ↔ StopsAt isLineEnd c.rest ∧ d = c := by
  rw [stopsAt_iff fun a => not_startsGap_of_isLineEnd]
  simp only [lineIsOver, matches_lookahead, matches_bind, matches_orElse, matches_atEnd,
    matches_charWhere, matches_pure, fails_atEnd]
  apply and_congr_left
  intro _
  constructor
  · rintro ⟨_, _, _, e, hskip, ⟨he, -⟩ | ⟨-, a, f, ⟨ha, hp⟩, -⟩⟩
    · exact ⟨e, hskip, by simp [he]⟩
    · refine ⟨e, hskip, ?_⟩
      simpa [hp.1] using ha
  · rintro ⟨e, hskip, he⟩
    -- the line ends with the text or with one of its own characters
    cases hrest : e.rest with
    | nil => exact ⟨(), e, (), e, hskip, .inl ⟨hrest, rfl⟩⟩
    | cons a rest =>
        refine ⟨(), e.after [a] rest, (), e, hskip,
          .inr ⟨by simp [hrest], a, _, ⟨?_, .after e hrest⟩, trivial, rfl⟩⟩
        exact he a (by simp [hrest])

theorem decides_lineIsOver : lineIsOver.Decides :=
  .lookahead (.bind (decides_skip false) fun _ =>
    .orElse .atEnd (.bind (.charWhere _) fun _ => .pure _))

/-! ## Separated values -/

/-- Whenever the rule matches, it takes a separator and then a spelling of its value. What spells
the value may depend on what follows it. -/
def Rule.SoundBehind (rule : Rule α) (between : Language Char) (follow : List Char → Prop)
    (spelled : Spelling α) : Prop :=
  ∀ ⦃c d : Cursor⦄ ⦃a : α⦄, rule.Matches c a d → ∃ gap ∈ between, ∃ e cs,
    c.Passes gap e ∧ e.Passes cs d ∧ (follow d.rest → spelled e.offset cs a)

variable {between : Language Char} {follow : List Char → Prop} {spelled : Spelling α}
  {rule : Rule α}

/-- What is read behind something that is not empty takes something. -/
theorem Rule.SoundBehind.consumes (h : rule.SoundBehind between follow spelled)
    (hne : [] ∉ between) : rule.Consumes := by
  intro c a d hm
  obtain ⟨gap, hgap, e, cs, hp, hq, -⟩ := h hm
  have hlength : 0 < gap.length := List.length_pos_of_ne_nil fun hnil => hne (hnil ▸ hgap)
  rw [(hp.trans hq).length, List.length_append]
  omega

/-- Values that are read in a row, each behind a separator, are separated together with the value in
front of them. -/
theorem Rule.SoundBehind.separated (h : rule.SoundBehind between follow spelled)
    (hfollow : ∀ gap ∈ between, ∀ rest, follow (gap ++ rest)) {d e : Cursor} {as : List α}
    (hr : Repeats rule d as e) (he : follow e.rest) :
    ∀ {c : Cursor} {cs : List Char} {a : α}, c.Passes cs d →
      (follow d.rest → spelled c.offset cs a) →
      ∃ cs', c.Passes cs' e ∧ Separated between spelled c.offset cs' (a :: as) := by
  induction hr with
  | done d =>
      intro c cs a hp hs
      exact ⟨cs, hp, .one (hs he)⟩
  | step hm _ ih =>
      intro c cs a hp hs
      -- the value in front is followed by the separator that was just read
      obtain ⟨gap, hgap, x, cs', hx, hp', hs'⟩ := h hm
      obtain ⟨rest, hrest, hsep⟩ := ih he hp' hs'
      refine ⟨cs ++ gap ++ rest, (hp.trans hx).trans hrest, .more (hs ?_) hgap ?_⟩
      · rw [hx.1]
        exact hfollow gap hgap _
      · rwa [(hp.trans hx).2] at hsep

/-! ## From items to documents -/

section Rules

variable {group : Rule Choice} {groupSpelled : Spelling Choice} {item : Rule Item}
  {itemSpelled : Spelling Item}

/-- What is read as the inside of an item is spelled in one of the five ways. -/
theorem sound_primary (hgroup : group.Sound groupSpelled) :
    (primary group).Sound (Primary.Spelled groupSpelled) := by
  intro c d p h
  -- the alternatives in the order in which they are tried
  simp only [primary, matches_orElse, matches_map] at h
  rcases h with ⟨n, hn, rfl⟩ | ⟨-, ⟨s, hs, rfl⟩ | ⟨-, ⟨k, hk, rfl⟩ | ⟨-, ⟨k, hk, rfl⟩ |
    ⟨-, g, hg, rfl⟩⟩⟩⟩
  · obtain ⟨cs, hp, hn, -⟩ := matches_name.1 hn
    exact ⟨cs, hp, hn⟩
  · exact matches_stringLiteral.1 hs
  · obtain ⟨cs, hp, hk, -⟩ := matches_charCode.1 hk
    exact ⟨cs, hp, hk⟩
  · exact matches_charClass.1 hk
  · exact hgroup hg

/-- The mark of an item is what has been taken for it. -/
theorem passes_of_matches_mark {c d : Cursor} {v : Option Cardinality}
    (h : (perhaps (charFor Cardinality.ofMark?)).Matches c v d) : c.Passes (markChars v) d := by
  rcases matches_perhaps.1 h with ⟨m, hm, rfl⟩ | ⟨-, rfl, rfl⟩
  · obtain ⟨a, ha, hp⟩ := matches_charFor.1 hm
    rwa [Cardinality.mark_of_ofMark? ha] at hp
  · exact .refl d

/-- An item is what is repeated with its mark behind it. -/
theorem sound_itemOf {primary : Rule Primary} {primarySpelled : Spelling Primary}
    (hprimary : primary.Sound primarySpelled) :
    (itemOf primary).Sound (Item.SpelledAs primarySpelled) := by
  intro c d i h
  simp only [itemOf, matches_bind, matches_here, matches_pure] at h
  obtain ⟨_, _, ⟨rfl, rfl⟩, p, e, hp, v, _, hv, _, _, ⟨rfl, rfl⟩, rfl, rfl⟩ := h
  obtain ⟨body, hbody, hs⟩ := hprimary hp
  have hall := hbody.trans (passes_of_matches_mark hv)
  exact ⟨_, hall, body, hs, rfl, hall.over⟩

/-- Further items of a sequence stand behind layout. -/
theorem soundBehind_space (hitem : item.Sound itemSpelled) :
    (do space; item : Rule Item).SoundBehind (Written.plus (Written.gap false)) (fun _ => True)
      itemSpelled := by
  intro c d i h
  obtain ⟨_, e, hspace, hi⟩ := matches_bind.1 h
  obtain ⟨⟨gap, hgap, hp⟩, -⟩ := matches_space.1 hspace
  obtain ⟨cs, hq, hs⟩ := hitem hi
  exact ⟨gap, hgap, e, cs, hp, hq, fun _ => hs⟩

/-- What a word introduces stands behind it, with layout around the word. -/
theorem soundBehind_around (text : String) {next : Rule α} (hnext : next.Sound spelled) :
    (do skip false; literal text; skip false; next : Rule α).SoundBehind (Written.around text)
      (fun _ => True) spelled := by
  intro c d a h
  obtain ⟨gap, hgap, e, hp, h⟩ := passes_of_matches_around h
  obtain ⟨cs, hq, hs⟩ := hnext h
  exact ⟨gap, hgap, e, cs, hp, hq, fun _ => hs⟩

/-- A difference consists of the item in front of the dash and the one behind it. -/
theorem sound_differenceFrom (hitem : item.Sound itemSpelled) {c d e : Cursor} {cs : List Char}
    {left : Item} {b : Branch} (hcs : c.Passes cs e) (hleft : itemSpelled c.offset cs left)
    (h : (differenceFrom item c.offset left).Matches e b d) :
    ∃ cs', c.Passes cs' d ∧ b.Spelled itemSpelled c.offset cs' := by
  obtain ⟨gap, hgap, x, hx, h⟩ := passes_of_matches_around h
  simp only [matches_bind, matches_here, matches_pure] at h
  obtain ⟨right, _, hright, _, _, ⟨rfl, rfl⟩, rfl, rfl⟩ := h
  obtain ⟨cs', hcs', hs'⟩ := hitem hright
  rw [(hcs.trans hx).2] at hs'
  have hall := (hcs.trans hx).trans hcs'
  exact ⟨_, hall, .more hleft hgap (.one hs'), hall.over⟩

/-- A sequence consists of its first item and the ones behind layout. -/
theorem sound_sequenceFrom (hitem : item.Sound itemSpelled) {c d e : Cursor} {cs : List Char}
    {first : Item} {b : Branch} (hcs : c.Passes cs e) (hfirst : itemSpelled c.offset cs first)
    (h : (sequenceFrom item c.offset first).Matches e b d) :
    ∃ cs', c.Passes cs' d ∧ b.Spelled itemSpelled c.offset cs' := by
  simp only [sequenceFrom, matches_bind, matches_here, matches_pure] at h
  obtain ⟨more, _, hmore, _, _, ⟨rfl, rfl⟩, rfl, rfl⟩ := h
  have hspaced := soundBehind_space hitem
  obtain ⟨hr, -⟩ := (matches_many (hspaced.consumes nil_notMem_plus_gap)).1 hmore
  obtain ⟨cs', hall, hsep⟩ :=
    hspaced.separated (fun _ _ _ => trivial) hr trivial hcs fun _ => hfirst
  exact ⟨cs', hall, hsep, hall.over⟩

theorem sound_branch (hitem : item.Sound itemSpelled) :
    (branch item).Sound (Branch.Spelled itemSpelled) := by
  intro c d b h
  simp only [branch, matches_bind, matches_here, matches_orElse] at h
  obtain ⟨_, _, ⟨rfl, rfl⟩, first, e, hfirst, h⟩ := h
  obtain ⟨cs, hcs, hs⟩ := hitem hfirst
  rcases h with h | ⟨-, h⟩
  · exact sound_differenceFrom hitem hcs hs h
  · exact sound_sequenceFrom hitem hcs hs h

/-- A choice consists of branches with bars between them, and its span covers all of them. -/
theorem sound_choice (hitem : item.Sound itemSpelled) :
    (choice item).Sound (Choice.Spelled itemSpelled) := by
  intro c d v h
  have hbranch : (branch item).Sound (Branch.Spelled itemSpelled) := sound_branch hitem
  simp only [choice, matches_bind, matches_here, matches_pure] at h
  obtain ⟨_, _, ⟨rfl, rfl⟩, first, e, hfirst, more, _, hmore, _, _, ⟨rfl, rfl⟩, rfl, rfl⟩ := h
  obtain ⟨cs, hcs, hs⟩ := hbranch hfirst
  have hbarred := soundBehind_around "|" hbranch
  obtain ⟨hr, -⟩ := (matches_many (hbarred.consumes (nil_notMem_around rfl))).1 hmore
  obtain ⟨cs', hall, hsep⟩ :=
    hbarred.separated (fun _ _ _ => trivial) hr trivial hcs fun _ => hs
  exact ⟨cs', hall, hsep, hall.over⟩

/-- A group consists of its parentheses, layout inside them and a choice. -/
theorem sound_group {choice : Rule Choice} {spelled : Spelling Choice}
    (hchoice : choice.Sound spelled) :
    (Notation.group choice).Sound (Choice.SpelledInGroup spelled) := by
  intro c d v h
  simp only [Notation.group, matches_bind, matches_here, matches_literal, matches_inside,
    matches_pure] at h
  obtain ⟨_, _, ⟨rfl, rfl⟩, _, e, he, _, f, hskip, v', g, hv, _, x, hskip', _, _, hd, rfl, rfl⟩ := h
  obtain ⟨⟨before, hbefore, hf⟩, -⟩ := matches_skip.1 hskip
  obtain ⟨⟨after, hafter, hx⟩, -⟩ := matches_skip.1 hskip'
  obtain ⟨inner, hg, hs⟩ := hchoice hv
  rw [(he.trans hf).2] at hs
  exact ⟨_, (((he.trans hf).trans hg).trans hx).trans hd, before, inner, after, hbefore, hafter,
    rfl, hs⟩

/-- A group that is too deep is never read. -/
theorem sound_refusedGroup : refusedGroup.Sound fun _ _ _ => False := by
  intro c d v h
  simp only [refusedGroup, matches_bind, matches_refuse, and_false, exists_false] at h

/-- At every depth, what the rule for items takes spells the item. -/
theorem sound_item : ∀ depth, (Notation.item depth).Sound (Item.SpelledWithin depth)
  | 0 => sound_itemOf (sound_primary sound_refusedGroup)
  | depth + 1 => sound_itemOf (sound_primary (sound_group (sound_choice (sound_item depth))))

end Rules

section Documents

variable {depth : Nat} {item : Rule Item}

/-- What is read as a definition is spelled like one, provided that the line is over behind it: a
link could otherwise be the beginning of a choice. -/
theorem sound_definition (hitem : item.Sound (Item.SpelledWithin depth)) {c d : Cursor}
    {v : Definition} (h : (definition item).Matches c v d) : ∃ cs, c.Passes cs d ∧
      (StopsAt isLineEnd d.rest → v.Spelled (Item.SpelledWithin depth) c.offset cs) := by
  simp only [definition, matches_orElse, matches_bind, matches_map, matches_pure] at h
  rcases h with ⟨l, e, hl, _, _, hover, rfl, rfl⟩ | ⟨hf, v, hv, rfl⟩
  · obtain ⟨-, rfl⟩ := matches_lineIsOver.1 hover
    obtain ⟨cs, hp, hs⟩ := matches_link.1 hl
    exact ⟨cs, hp, fun _ => hs⟩
  · obtain ⟨cs, hp, hs⟩ := sound_choice hitem hv
    refine ⟨cs, hp, fun hd => ⟨hs, fun k hk hlink => ?_⟩⟩
    -- a lone class that is written like a link would have been read as one
    rw [← hs.eq_chars_of_loneClass? hk] at hlink
    obtain ⟨l, hl⟩ := Link.exists_spelled hlink c.offset
    have hm : (do let target ← link; lineIsOver; return .link target : Rule Definition).Matches c
        (.link l) d := by
      simp only [matches_bind, matches_pure]
      exact ⟨l, d, matches_link.2 ⟨cs, hp, hl⟩, (), d, matches_lineIsOver.2 ⟨hd, rfl⟩, rfl, rfl⟩
    exact hm.not_fails hf

/-- A production stands behind layout that does not belong to it. -/
theorem soundBehind_production (hitem : item.Sound (Item.SpelledWithin depth)) :
    (production item).SoundBehind (Written.layout false) (StopsAt isLineEnd)
      (Production.Spelled (Item.SpelledWithin depth)) := by
  intro c d p h
  obtain ⟨_, e, hskip, h⟩ := matches_bind.1 h
  obtain ⟨_, _, hhere, h⟩ := matches_bind.1 h
  obtain ⟨rfl, rfl⟩ := matches_here.1 hhere
  obtain ⟨n, f, hn, h⟩ := matches_bind.1 h
  obtain ⟨between, hbetween, g, hg, h⟩ := passes_of_matches_around h
  simp only [matches_bind, matches_here, matches_pure] at h
  obtain ⟨v, _, hv, _, _, ⟨rfl, rfl⟩, rfl, rfl⟩ := h
  obtain ⟨⟨before, hbefore, he⟩, -⟩ := matches_skip.1 hskip
  obtain ⟨defined, hf, hname, -⟩ := matches_name.1 hn
  obtain ⟨meaning, hmeaning, hs⟩ := sound_definition hitem hv
  -- the definition begins where the name and what follows it end
  rw [(hf.trans hg).2] at hs
  have hall := (hf.trans hg).trans hmeaning
  exact ⟨before, hbefore, _, _, he, hall, fun hd =>
    ⟨defined, between, meaning, hname, hbetween, hs hd, rfl, hall.over⟩⟩

/-- A separator goes as far as the layout does. -/
theorem matches_separator {c d : Cursor} {u : Unit} : separator.Matches c u d ↔
    (∃ cs ∈ Written.lineBreak, c.Passes cs d) ∧ (gap true).Fails d := by
  simp only [separator, matches_bind, matches_expecting, matches_charWhere]
  constructor
  · rintro ⟨_, e, hskip, a, f, ⟨ha, hf⟩, hskip'⟩
    obtain ⟨⟨before, hbefore, he⟩, -⟩ := matches_skip.1 hskip
    obtain ⟨⟨after, hafter, hd⟩, hstop⟩ := matches_skip.1 hskip'
    exact ⟨⟨_, Language.append_mem_mul (Language.append_mem_mul hbefore ⟨a, ha, rfl⟩) hafter,
      (he.trans hf).trans hd⟩, hstop⟩
  · rintro ⟨⟨_, ⟨_, ⟨before, hbefore, _, ⟨a, ha, rfl⟩, rfl⟩, after, hafter, rfl⟩, hp⟩, hstop⟩
    obtain ⟨f, hp, hd⟩ := hp.split
    obtain ⟨e, he, hf⟩ := hp.split
    -- layout within the line stops in front of the character that ends it
    have hskip : (skip false).Matches c () e := by
      refine skip_of_passes hbefore he fun b hb => ?_
      obtain rfl : a = b := by simpa [hf.1] using hb
      exact not_startsGap_of_isLineEnd ha
    exact ⟨(), e, hskip, a, f, ⟨ha, hf⟩, matches_skip.2 ⟨⟨after, hafter, hd⟩, hstop⟩⟩

/-- Further productions stand behind line breaks. -/
theorem soundBehind_separator (hitem : item.Sound (Item.SpelledWithin depth)) :
    (do separator; production item : Rule Production).SoundBehind Written.lineBreak
      (StopsAt isLineEnd) (Production.Spelled (Item.SpelledWithin depth)) := by
  intro c d p h
  obtain ⟨_, e, hseparator, h⟩ := matches_bind.1 h
  obtain ⟨⟨gap, hgap, he⟩, -⟩ := matches_separator.1 hseparator
  obtain ⟨before, hbefore, f, cs, hf, hd, hs⟩ := soundBehind_production hitem h
  exact ⟨_, append_mem_lineBreak hgap (mem_layout_true hbefore), f, cs, he.trans hf, hd, hs⟩

/-- What is read as a text is spelled like one, from the first character to the last. -/
theorem sound_document (hitem : item.Sound (Item.SpelledWithin depth)) {c d : Cursor}
    {v : Document} (hc : c.offset = 0) (h : (document item).Matches c v d) :
    v.Spelled (Item.SpelledWithin depth) c.rest := by
  simp only [document, matches_bind, matches_expecting, matches_atEnd, matches_pure] at h
  obtain ⟨_, e, hskip, first, f, hfirst, more, g, hmore, _, x, hskip', _, _, ⟨hend, rfl⟩, rfl,
    rfl⟩ := h
  obtain ⟨⟨before, hbefore, he⟩, -⟩ := matches_skip.1 hskip
  obtain ⟨⟨after, hafter, hd⟩, -⟩ := matches_skip.1 hskip'
  have hseparated := soundBehind_separator hitem
  obtain ⟨hr, -⟩ := (matches_many (hseparated.consumes nil_notMem_lineBreak)).1 hmore
  -- the layout at the end of the text has nothing behind it
  have hg : StopsAt isLineEnd g.rest := by
    rw [hd.1, hend, List.append_nil]
    exact stopsAt_isLineEnd_of_mem_layout hafter
  obtain ⟨gap, hgap, y, cs, hy, hcs, hs⟩ := soundBehind_production hitem hfirst
  obtain ⟨body, hbody, hsep⟩ := hseparated.separated
    (fun _ => stopsAt_isLineEnd_of_mem_lineBreak) hr hg hcs hs
  refine ⟨before ++ gap, body, after, append_mem_layout hbefore (mem_layout_true hgap), hafter,
    ?_, ?_⟩
  · rw [(((he.trans hy).trans hbody).trans hd).1, hend, List.append_nil]
  · rwa [(he.trans hy).2, hc, Nat.zero_add] at hsep

/-- What is read from a text is spelled by it. -/
theorem spelled_of_parse {text : String} {v : Document} (h : parse text = .ok v) :
    v.Spelled (Item.SpelledWithin maxNesting) text.toList := by
  unfold parse conclude at h
  split at h
  next found d hm =>
    obtain rfl : found = v := by simpa using h
    exact sound_document (d := d) (sound_item maxNesting) rfl hm
  · cases h
  · cases h

end Documents

end Railroad.Notation
