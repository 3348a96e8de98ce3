import Railroad.Proofs.Notation.Completeness
set_option autoImplicit false

/-!
# Reading a text is inverse to spelling it

What remains of completeness: definitions, productions and whole texts. A choice is read as one
unless it is a character class that could be a link and with which the line ends, because a class in
front of a mark, another item or a bar is followed by more of its line (`GoesOn`). Together with
soundness this determines what is read from a text by the spellings alone (`parse_eq_ok_iff`).
-/

namespace Railroad.Notation

open Rule

/-! ## Classes in front of something -/

/-- Behind the layout, the line goes on. -/
def GoesOn (cs : List Char) : Prop :=
  ∃ before ∈ Written.layout false, ∃ a rest, cs = before ++ a :: rest ∧
    startsGap false a = false ∧ isLineEnd a = false

/-- What goes on in a line does so with more text behind it. -/
theorem GoesOn.append {cs : List Char} (h : GoesOn cs) (more : List Char) :
    GoesOn (cs ++ more) := by
  obtain ⟨before, hbefore, a, rest, rfl, ha⟩ := h
  exact ⟨before, hbefore, a, rest ++ more, by simp, ha⟩

/-- A line that goes on does not end. -/
theorem GoesOn.not_stopsAt {cs : List Char} (h : GoesOn cs) : ¬ StopsAt isLineEnd cs := by
  obtain ⟨before, hbefore, a, rest, rfl, ha, hend⟩ := h
  -- the layout is skipped in one way only, wherever the text stands
  let c : Cursor := ⟨before ++ a :: rest, 0⟩
  intro hstop
  obtain ⟨d, hskip, hd⟩ :=
    (stopsAt_iff (c := c) fun _ => not_startsGap_of_isLineEnd).1 hstop
  have hskip' : (skip false).Matches c () (c.after before (a :: rest)) :=
    skip_of_passes hbefore (.after c rfl) (by simpa [Cursor.after] using ha)
  obtain ⟨-, rfl⟩ := hskip.unique hskip'
  rw [hd a (by simp [Cursor.after])] at hend
  cases hend

/-- A line goes on behind layout in it if a word follows that does not end it. -/
theorem goesOn_of_around {text : String} {a : Char} {as : List Char} (htext : text.toList = a :: as)
    (ha : startsGap false a = false) (hend : isLineEnd a = false) {gap : List Char}
    (hgap : gap ∈ Written.around text) : GoesOn gap := by
  obtain ⟨_, ⟨before, hbefore, _, rfl, rfl⟩, after, -, rfl⟩ := hgap
  exact ⟨before, hbefore, a, as ++ after, by simp [htext], ha, hend⟩

/-- The text begins with a class, and is no more than a class to which `lone` applies unless its
line goes on behind the class. -/
def BeginsWithClass (offset : Nat) (cs : List Char) (lone : CharClass → Prop) : Prop :=
  ∃ k body more, CharClass.Spelled offset body k ∧ cs = body ++ more ∧
    (lone k ∧ more = [] ∨ GoesOn more)

variable {offset : Nat} {cs : List Char}

/-- A text that begins with a class does so with more text behind it. -/
theorem BeginsWithClass.append {lone lone' : CharClass → Prop} (h : BeginsWithClass offset cs lone)
    {more : List Char} (hmore : GoesOn more) : BeginsWithClass offset (cs ++ more) lone' := by
  obtain ⟨k, body, between, hk, rfl, hbetween⟩ := h
  refine ⟨k, body, between ++ more, hk, List.append_assoc .., .inr ?_⟩
  rcases hbetween with ⟨-, rfl⟩ | hbetween
  · exact hmore
  · exact hbetween.append more

/-- What is said of the class can be weakened. -/
theorem BeginsWithClass.mono {lone lone' : CharClass → Prop} (h : BeginsWithClass offset cs lone)
    (hlone : ∀ k, lone k → lone' k) : BeginsWithClass offset cs lone' := by
  obtain ⟨k, body, more, hk, rfl, hmore⟩ := h
  exact ⟨k, body, more, hk, rfl, hmore.imp_left (And.imp_left (hlone k))⟩

/-- If separated trees begin with a bracket, their first one begins with a class. It is the class
alone only if there are no others. -/
theorem Separated.beginsWithClass {α : Type} {between : Language Char} {spelled : Spelling α}
    {lone : α → CharClass → Prop} (hopens : Spelling.Opens spelled)
    (hgap : ∀ gap ∈ between, ∀ a rest, startsItem a = true → GoesOn (gap ++ a :: rest))
    (hfirst : ∀ cs a, spelled offset cs a → cs.head? = some '[' →
      BeginsWithClass offset cs (lone a))
    {as : List α} (hs : Separated between spelled offset cs as) (hcs : cs.head? = some '[') :
    BeginsWithClass offset cs fun k => ∃ a, as = [a] ∧ lone a k := by
  cases hs with
  | one ha => exact (hfirst _ _ ha hcs).mono fun k hk => ⟨_, rfl, hk⟩
  | more ha hbetween hrest =>
      obtain ⟨b, rest, rfl, hb⟩ := Separated.opens hopens hrest
      obtain ⟨b', rest', rfl, -⟩ := hopens ha
      rw [List.append_assoc]
      exact (hfirst _ _ ha hcs).append (hgap _ hbetween b rest hb)

/-- No item begins with the end of a line. -/
theorem isLineEnd_eq_false_of_startsItem {a : Char} (h : startsItem a = true) :
    isLineEnd a = false := by
  rw [← Bool.not_eq_true]
  intro hend
  simp only [isLineEnd, Bool.or_eq_true, beq_iff_eq] at hend
  rcases hend with rfl | rfl <;> revert h <;> decide

/-- An item that begins with a bracket begins with a class, and with a mark behind it the line goes
on. -/
theorem Item.SpelledWithin.beginsWithClass {depth : Nat} {i : Item}
    (h : Item.SpelledWithin depth offset cs i) (hcs : cs.head? = some '[') :
    BeginsWithClass offset cs fun k => i.loneClass? = some k := by
  obtain ⟨group, body, hgroup, hbody, rfl⟩ := h.exists_body
  obtain ⟨p, v, span⟩ := i
  cases p with
  | charClass k =>
      refine ⟨k, body, markChars v, hbody, rfl, ?_⟩
      -- a mark is something behind the class
      cases v with
      | none => exact .inl ⟨rfl, rfl⟩
      | some m =>
          refine .inr ⟨[], Language.nil_mem_kstar _, m.mark, [], rfl, ?_⟩
          cases m <;> decide
  | name n =>
      -- all other primaries begin with another character
      obtain ⟨⟨_, ⟨a, ha, rfl⟩, more, -, rfl⟩, -⟩ := hbody
      obtain rfl : a = '[' := by simpa using hcs
      exact absurd ha (by decide)
  | string s =>
      obtain ⟨value, hquote, -, rfl, -⟩ := hbody
      obtain hbracket : s.quote = '[' := by simpa using hcs
      rcases hquote with hq | hq <;> rw [hq] at hbracket <;> cases hbracket
  | code k =>
      obtain ⟨digits, -, -, rfl, -⟩ := hbody
      cases hcs
  | group c =>
      obtain ⟨rest, rfl⟩ := hgroup _ _ _ hbody
      cases hcs

/-- A branch that begins with a bracket begins with a class. -/
theorem Branch.Spelled.beginsWithClass {depth : Nat} {b : Branch}
    (h : b.Spelled (Item.SpelledWithin depth) offset cs) (hcs : cs.head? = some '[') :
    BeginsWithClass offset cs fun k => b.loneClass? = some k := by
  have hopens := Item.SpelledWithin.opens depth
  have hfirst : ∀ cs i, Item.SpelledWithin depth offset cs i → cs.head? = some '[' →
      BeginsWithClass offset cs fun k => i.loneClass? = some k :=
    fun _ _ => Item.SpelledWithin.beginsWithClass
  cases b with
  | sequence items span =>
      refine (Separated.beginsWithClass hopens ?_ hfirst h.1 hcs).mono ?_
      -- layout and the next item follow in the same line
      · intro gap hgap a rest ha
        exact ⟨gap, mem_layout_of_mem_plus hgap, a, rest, rfl, not_startsGap_of_startsItem ha,
          isLineEnd_eq_false_of_startsItem ha⟩
      · rintro k ⟨i, rfl, hk⟩
        exact hk
  | difference left right span =>
      refine (Separated.beginsWithClass hopens ?_ hfirst h.1 hcs).mono ?_
      · intro gap hgap a rest _
        exact (goesOn_of_around (a := '-') rfl (by decide) (by decide) hgap).append _
      · rintro k ⟨i, hi, -⟩
        cases hi

/-- A choice in whose text a class comes first is that class, or its line goes on behind the
class. -/
theorem Choice.Spelled.beginsWithClass {depth : Nat} {v : Choice}
    (h : v.Spelled (Item.SpelledWithin depth) offset cs) (hcs : cs.head? = some '[') :
    BeginsWithClass offset cs fun k => v.loneClass? = some k := by
  obtain ⟨branches, span⟩ := v
  refine (Separated.beginsWithClass (Branch.Spelled.opens (Item.SpelledWithin.opens depth)) ?_
    (fun _ _ => Branch.Spelled.beginsWithClass) h.1 hcs).mono ?_
  · intro gap hgap a rest _
    exact (goesOn_of_around (a := '|') rfl (by decide) (by decide) hgap).append _
  · rintro k ⟨b, hb, hk⟩
    obtain rfl : branches = [b] := hb
    exact hk

/-! ## Definitions -/

/-- An address contains no bracket, so that a link ends at the first one. -/
theorem bracket_notMem_of_mem_address (h : cs ∈ Written.address) : ']' ∉ cs := by
  obtain ⟨_, ⟨scheme, hscheme, _, rfl, rfl⟩, body, hbody, rfl⟩ := h
  have hscheme := (Written.mem_plus_one.1 hscheme).2 ']'
  have hbody := (Written.mem_plus_one.1 hbody).2 ']'
  intro hmem
  rcases List.mem_append.1 hmem with hmem | hmem
  · rcases List.mem_append.1 hmem with hmem | hmem
    · exact absurd (hscheme hmem) (by decide)
    · exact absurd hmem (by decide)
  · exact absurd (hbody hmem) (by decide)

theorem bracket_notMem_of_mem_name (h : cs ∈ Written.name) : ']' ∉ cs := by
  obtain ⟨_, ⟨a, ha, rfl⟩, more, hmore, rfl⟩ := h
  have hmore := Written.mem_kstar_one.1 hmore ']'
  intro hmem
  rcases List.mem_append.1 hmem with hmem | hmem
  · obtain rfl := List.mem_singleton.1 hmem
    exact absurd ha (by decide)
  · exact absurd (hmore hmem) (by decide)

/-- The only closing bracket of a link is its last character. -/
theorem eq_append_of_mem_link (h : cs ∈ Written.link) :
    ∃ front, cs = front ++ [']'] ∧ ']' ∉ front := by
  obtain ⟨_, ⟨_, ⟨_, rfl, address, haddress, rfl⟩, found, hfound, rfl⟩, _, rfl, rfl⟩ := h
  have haddress := bracket_notMem_of_mem_address haddress
  have hfound : ']' ∉ found := by
    rcases hfound with rfl | ⟨_, rfl, name, hname, rfl⟩
    · exact List.not_mem_nil
    · have hname := bracket_notMem_of_mem_name hname
      simpa using hname
  exact ⟨['['] ++ address ++ found, rfl, by simp [haddress, hfound]⟩

/-- The text up to the first closing bracket is unique. -/
theorem front_eq_of_append {front front' rest rest' : List Char} (h : ']' ∉ front)
    (h' : ']' ∉ front') (k : front ++ ']' :: rest = front' ++ ']' :: rest') : front = front' := by
  have hall : ∀ {cs : List Char}, ']' ∉ cs → ∀ a ∈ cs, (a != ']') = true := by
    intro cs hcs a ha
    rw [bne_iff_ne]
    rintro rfl
    exact hcs ha
  have htake := congrArg (List.takeWhile (· != ']')) k
  rw [List.takeWhile_append_of_pos (hall h), List.takeWhile_append_of_pos (hall h')] at htake
  simpa using htake

section Documents

variable {depth : Nat}

/-- A link that is read where a choice is spelled ends before its line does. -/
theorem not_stopsAt_of_matches_link {c d e : Cursor} {cs : List Char} {v : Choice} {l : Link}
    (hp : c.Passes cs d) (hs : v.Spelled (Item.SpelledWithin depth) c.offset cs)
    (hlone : ∀ k ∈ v.loneClass?, k.chars ∉ Written.link) (hm : link.Matches c l e) :
    ¬ StopsAt isLineEnd e.rest := by
  obtain ⟨text, htext, hl⟩ := matches_link.1 hm
  have hcs : cs.head? = some '[' := by
    obtain ⟨rest, rfl⟩ := hl.head
    obtain ⟨b, more, rfl, -⟩ := Choice.Spelled.opens (Item.SpelledWithin.opens depth) hs
    have hhead := congrArg List.head? (htext.1.symm.trans hp.1)
    simpa [eq_comm] using hhead
  obtain ⟨k, body, more, hk, rfl, hmore⟩ := hs.beginsWithClass hcs
  -- the class and the link both end at the first closing bracket
  have hsame : body = text := by
    obtain ⟨front, hfront, hno⟩ := hk.eq_append
    obtain ⟨front', hfront', hno'⟩ := eq_append_of_mem_link hl.mem
    have hrest := hp.1.symm.trans htext.1
    simp only [hfront, hfront', List.append_assoc, List.singleton_append] at hrest
    rw [hfront, hfront', front_eq_of_append hno hno' hrest]
  subst hsame
  rcases hmore with ⟨hlone', -⟩ | hmore
  · -- a choice is spelled only if its lone class is no link
    have hnotlink := hlone k hlone'
    rw [hk.chars] at hnotlink
    exact absurd hl.mem hnotlink
  · obtain ⟨e', he, hmore'⟩ := hp.split
    obtain rfl := he.unique htext
    rw [hmore'.1]
    exact (hmore.append d.rest).not_stopsAt

/-- Definitions are read as they are spelled. A link is attempted first, and a choice that begins
with a class is not taken for one. -/
theorem complete_definition :
    (definition (item depth)).Complete (Definition.Spelled (Item.SpelledWithin depth))
      (StopsAt isLineEnd) := by
  intro c d cs v hp hs hd
  simp only [definition, matches_orElse, matches_map]
  cases v with
  | link l =>
      refine .inl ?_
      simp only [matches_bind, matches_pure]
      exact ⟨l, d, matches_link.2 ⟨cs, hp, hs⟩, (), d, matches_lineIsOver.2 ⟨hd, rfl⟩, rfl, rfl⟩
  | choice v =>
      obtain ⟨hs, hlone⟩ := hs
      -- the choice is read if the link in front of it is not
      have hm := complete_choice (readsItems_item depth) hp hs
        (hd.mono fun a ha => by simp [endsChoice, ha])
      refine .inr ⟨?_, v, hm, rfl⟩
      have hdecides :
          (do let target ← link; lineIsOver; return .link target : Rule Definition).Decides :=
        .bind decides_link fun _ => .bind decides_lineIsOver fun _ => .pure _
      apply hdecides.fails_of_not_matches
      intro _ _ hlink
      simp only [matches_bind, matches_pure] at hlink
      obtain ⟨l, e, hl, _, _, hover, -, -⟩ := hlink
      exact not_stopsAt_of_matches_link hp hs hlone hl (matches_lineIsOver.1 hover).1

/-! ## Productions and documents -/

/-- Productions are read as they are spelled, if the line is over behind them. -/
theorem complete_production :
    (production (item depth)).Complete (Production.Spelled (Item.SpelledWithin depth))
      (StopsAt isLineEnd) := by
  rintro c d cs ⟨n, v, span⟩ hp hs hd
  have hnogap := Production.Spelled.opens.not_startsGap hp hs false
  obtain ⟨defined, between, meaning, hname, hbetween, hmeaning, rfl, hspan⟩ := hs
  obtain ⟨f, hq, hf⟩ := hp.split
  obtain ⟨e, he, hbetween'⟩ := hq.split
  rw [← hq.2] at hmeaning
  -- the sign behind the name cannot go on in it
  have hn : name.Matches c n e := by
    refine matches_name.2 ⟨defined, he, hname, fun a ha => ?_⟩
    rw [hbetween'.1] at ha
    exact (Bool.or_eq_false_iff.1 (itemEnds_of_around (a := ':') rfl (by decide) hbetween _ a ha)).1
  have hopens := Definition.Spelled.opens (Item.SpelledWithin.opens depth)
  refine matches_bind.2 ⟨(), c, skip_of_passes (Language.nil_mem_kstar _) (.refl c) hnogap, ?_⟩
  refine matches_bind.2 ⟨_, c, matches_here.2 ⟨rfl, rfl⟩, matches_bind.2 ⟨n, e, hn, ?_⟩⟩
  refine matches_around_of_passes (a := ':') rfl (by decide) hbetween hbetween'
    (hopens.not_startsGap hf hmeaning false) ?_
  simp only [matches_bind, matches_here, matches_pure]
  refine ⟨v, d, complete_definition hf hmeaning hd, _, d, ⟨rfl, rfl⟩, ?_, rfl⟩
  rw [hp.over, ← hspan]

/-- Further productions are read behind the line breaks in front of them. -/
theorem completeBehind_separator :
    (do separator; production (item depth) : Rule Production).CompleteBehind Written.lineBreak
      (StopsAt isLineEnd) (Production.Spelled (Item.SpelledWithin depth)) := by
  intro c d e gap cs p hgap hp hq hs hd
  have hstop := fails_gap (Production.Spelled.opens.not_startsGap hq hs true)
  exact matches_bind.2 ⟨(), e, matches_separator.2 ⟨⟨gap, hgap, hp⟩, hstop⟩,
    complete_production hq hs hd⟩

/-- There is no production at the end of a text. -/
theorem fails_production_of_nil {item : Rule Item} {c : Cursor} (h : c.rest = []) :
    (production item).Fails c := by
  have hskip : (skip false).Matches c () c :=
    skip_of_passes (Language.nil_mem_kstar _) (.refl c) (by simp [h])
  exact fails_bind.2 (.inr ⟨(), c, hskip, fails_here_bind.2 (fails_bind.2 (.inl
    (fails_name (by simp [h]))))⟩)

/-- In layout that ends the text no further production is read. -/
theorem fails_separator {item : Rule Item} {c d : Cursor} {cs : List Char}
    (hcs : cs ∈ Written.layout true) (hp : c.Passes cs d) (hd : d.rest = []) :
    (do separator; production item : Rule Production).Fails c := by
  have hdecides : separator.Decides :=
    .bind (decides_skip false) fun _ => .bind (.expecting _ (.charWhere _)) fun _ =>
      decides_skip true
  rcases hdecides c with hf | ⟨_, e, hm⟩
  · exact fails_bind.2 (.inl hf)
  · -- a separator takes all the layout that there is, and with it the rest of the text
    obtain ⟨⟨gap, hgap, he⟩, hstop⟩ := matches_separator.1 hm
    have hskip : (skip true).Matches c () e :=
      matches_skip.2 ⟨⟨gap, mem_layout_of_mem_lineBreak hgap, he⟩, hstop⟩
    have hskip' : (skip true).Matches c () d := skip_of_passes hcs hp (by simp [hd])
    obtain ⟨-, rfl⟩ := hskip.unique hskip'
    exact fails_bind.2 (.inr ⟨(), e, hm, fails_production_of_nil hd⟩)

/-- Texts are read as they are spelled. A separator that is attempted behind the last production
takes the rest of the layout and then misses a production. -/
theorem complete_document {cs : List Char} {v : Document}
    (h : v.Spelled (Item.SpelledWithin depth) cs) :
    ∃ d, (document (item depth)).Matches ⟨cs, 0⟩ v d := by
  obtain ⟨productions⟩ := v
  obtain ⟨before, body, after, hbefore, hafter, hcs, hbody⟩ := h
  have hall : Cursor.Passes ⟨cs, 0⟩ (before ++ body ++ after)
      ⟨[], 0 + Text.byteLength (before ++ body ++ after)⟩ := ⟨by simp [hcs], rfl⟩
  obtain ⟨x, hp, hafterp⟩ := hall.split
  obtain ⟨e, he, hx⟩ := hp.split
  have ho : e.offset = Text.byteLength before := by rw [he.2, Nat.zero_add]
  have hend : StopsAt isLineEnd x.rest := by
    rw [hafterp.1, List.append_nil]
    exact stopsAt_isLineEnd_of_mem_layout hafter
  have hskip : (skip true).Matches ⟨cs, 0⟩ () e :=
    skip_of_passes hbefore he
      ((Separated.opens Production.Spelled.opens).not_startsGap hx (ho ▸ hbody) true)
  obtain ⟨first, more, f, rfl, hfirst, hr⟩ := completeBehind_separator.repeats complete_production
    (fun _ => stopsAt_isLineEnd_of_mem_lineBreak) hbody ho hx hend
  -- behind the last production there is only layout, where no further one is found
  have hmany := (matches_many
    ((soundBehind_separator (sound_item depth)).consumes nil_notMem_lineBreak)).2
    ⟨hr, fails_separator hafter hafterp rfl⟩
  simp only [document, matches_bind, matches_expecting, matches_atEnd, matches_pure]
  exact ⟨_, (), e, hskip, first, f, hfirst, more, x, hmany, (), _,
    skip_of_passes hafter hafterp (by simp), (), _, ⟨rfl, rfl⟩, rfl, rfl⟩

/-- A text is read as the tree that it spells. -/
theorem parse_eq_ok_iff {text : String} {v : Document} :
    parse text = .ok v ↔ v.Spelled (Item.SpelledWithin maxNesting) text.toList := by
  constructor
  · exact spelled_of_parse
  · intro h
    obtain ⟨d, hm⟩ := complete_document h
    have hrun : (run maxNesting text.toList).outcome = .matched v d := hm
    simp only [parse, conclude, hrun]

end Documents

end Railroad.Notation
