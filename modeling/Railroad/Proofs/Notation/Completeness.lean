import Railroad.Proofs.Notation.Soundness
set_option autoImplicit false

/-!
# What is spelled is matched

The converse of soundness: where a text that spells a part of a tree stands, the rule for that part
matches exactly this text and yields this part, provided that what follows does not continue it.
What follows an item must be no letter, digit or mark; what follows a branch must be, behind layout,
a bar, a closing parenthesis or the end of the line; and so on (`endsBranch`, `endsChoice`,
`isLineEnd`). The main statement is that items are read as they are spelled, at every depth
(`readsItems_item`).
-/

namespace Railroad.Notation

open Rule

variable {α : Type}

/-- Where a spelling of a value stands, and something suitable follows, the rule matches it. -/
def Rule.Complete (rule : Rule α) (spelled : Spelling α) (follow : List Char → Prop) : Prop :=
  ∀ ⦃c d : Cursor⦄ ⦃cs : List Char⦄ ⦃a : α⦄, c.Passes cs d → spelled c.offset cs a →
    follow d.rest → rule.Matches c a d

/-- Where a separator and a spelling of a value stand, and something suitable follows, the rule
matches both. -/
def Rule.CompleteBehind (rule : Rule α) (between : Language Char) (follow : List Char → Prop)
    (spelled : Spelling α) : Prop :=
  ∀ ⦃c d e : Cursor⦄ ⦃gap cs : List Char⦄ ⦃a : α⦄, gap ∈ between → c.Passes gap e →
    e.Passes cs d → spelled e.offset cs a → follow d.rest → rule.Matches c a d

/-- Separated values are read one by one: the first by one rule, and the others, each behind its
separator, by another. -/
theorem Rule.CompleteBehind.repeats {first rule : Rule α} {between : Language Char}
    {spelled : Spelling α} {follow : List Char → Prop}
    (h : rule.CompleteBehind between follow spelled) (hfirst : first.Complete spelled follow)
    (hfollow : ∀ gap ∈ between, ∀ rest, follow (gap ++ rest)) {offset : Nat} {cs : List Char}
    {as : List α} (hs : Separated between spelled offset cs as) :
    ∀ {c e : Cursor}, c.offset = offset → c.Passes cs e → follow e.rest →
      ∃ a more d, as = a :: more ∧ first.Matches c a d ∧ Repeats rule d more e := by
  -- read off the rule for the others first: it also reads the first one when the list goes on
  have key : ∀ {offset : Nat} {cs : List Char} {as : List α},
      Separated between spelled offset cs as → ∀ {c d e : Cursor} {gap : List Char}, gap ∈ between →
        c.Passes gap d → d.offset = offset → d.Passes cs e → follow e.rest →
          Repeats rule c as e := by
    intro offset cs as hs
    induction hs with
    | one hs =>
        intro c d e gap hgap hp ho hq he
        exact .step (h hgap hp hq (ho ▸ hs) he) (.done e)
    | more hs hgap' _ ih =>
        -- the next separator is what follows this value
        intro c d e gap hgap hp ho hq he
        obtain ⟨y, hy, hrest⟩ := hq.split
        obtain ⟨x, hx, hy'⟩ := hy.split
        refine .step (h hgap hp hx (ho ▸ hs) ?_) (ih hgap' hy' ?_ hrest he)
        · rw [hy'.1]
          exact hfollow _ hgap' _
        · rw [hy.2, ho]
  intro c e ho hp he
  cases hs with
  | one hs => exact ⟨_, [], e, rfl, hfirst hp (ho ▸ hs) he, .done e⟩
  | more hs hgap hrest =>
      obtain ⟨y, hy, hq⟩ := hp.split
      obtain ⟨x, hx, hy'⟩ := hy.split
      refine ⟨_, _, x, rfl, hfirst hx (ho ▸ hs) ?_, key hrest hgap hy' ?_ hq he⟩
      · rw [hy'.1]
        exact hfollow _ hgap _
      · rw [hy.2, ho]

/-! ## Where rules fail -/

section Fails

variable {c : Cursor} {β : Type}

/-- Asking for the place first does not make a rule fail. -/
theorem fails_here_bind {next : Nat → Rule β} :
    (here >>= next).Fails c ↔ (next c.offset).Fails c := by
  simp

/-- Names begin with a capital letter. -/
theorem fails_name (h : ∀ a ∈ c.rest.head?, a.isUpper = false) : name.Fails c :=
  fails_here_bind.2 (fails_bind.2 (.inl (fails_expecting.2
    (fails_bind.2 (.inl (fails_charWhere.2 h))))))

/-- String literals begin with a quote of either kind. -/
theorem fails_stringLiteral (h : ∀ a ∈ c.rest.head?, a ≠ '"' ∧ a ≠ '\'') :
    stringLiteral.Fails c := by
  refine fails_here_bind.2 (fails_bind.2 (.inl (fails_expecting.2 (fails_charWhere.2 ?_))))
  intro a ha
  simp [h a ha]

theorem fails_charCode (h : c.rest.head? ≠ some '#') : charCode.Fails c :=
  fails_here_bind.2 (fails_bind.2 (.inl (fails_expecting.2
    (fails_bind.2 (.inl (fails_literal_of_head rfl h))))))

/-- Classes begin with a bracket. -/
theorem fails_charClass (h : c.rest.head? ≠ some '[') : charClass.Fails c :=
  fails_here_bind.2 (fails_bind.2 (.inl (fails_literal_of_head rfl h)))

/-- Groups begin with a parenthesis, and so do refused ones. -/
theorem fails_group {choice : Rule Choice} (h : c.rest.head? ≠ some '(') : (group choice).Fails c :=
  fails_here_bind.2 (fails_bind.2 (.inl (fails_literal_of_head rfl h)))

theorem fails_refusedGroup (h : c.rest.head? ≠ some '(') : refusedGroup.Fails c :=
  fails_here_bind.2 (fails_bind.2 (.inl (fails_literal_of_head rfl h)))

end Fails

/-! ## From primaries to items -/

/-- The mark of an item is taken, and if there is none, nothing that could be one comes next. -/
theorem matches_mark_of_passes {c d : Cursor} {v : Option Cardinality}
    (hp : c.Passes (markChars v) d) (hd : ∀ a ∈ d.rest.head?, Written.isMark a = false) :
    (perhaps (charFor Cardinality.ofMark?)).Matches c v d := by
  rw [matches_perhaps]
  cases v with
  | some m => exact .inl ⟨m, matches_charFor.2 ⟨m.mark, m.ofMark?_mark, hp⟩, rfl⟩
  | none =>
      obtain rfl := Cursor.Passes.unique (.refl c) hp
      refine .inr ⟨fails_charFor.2 fun a ha => ?_, rfl, rfl⟩
      rw [Option.eq_none_iff_forall_ne_some]
      intro m hm
      have hmark := hd a ha
      rw [Cardinality.mark_of_ofMark? hm] at hmark
      cases m <;> cases hmark

/-- What follows does not continue a name or a code. -/
def PrimaryEnds (rest : List Char) : Prop := ∀ a ∈ rest.head?, a.isAlphanum = false

/-- What follows does not continue an item. -/
def ItemEnds (rest : List Char) : Prop := ∀ a ∈ rest.head?, continuesItem a = false

/-- Digits of codes could go on in a name. -/
theorem isAlphanum_of_isHexDigit {a : Char} (h : Text.isHexDigit a = true) :
    a.isAlphanum = true := by
  simp only [Text.isHexDigit, Text.hexDigit?, Char.le_def, UInt32.le_iff_toNat_le] at h
  unfold Char.isAlphanum Char.isAlpha Char.isUpper Char.isLower Char.isDigit
  simp only [Bool.or_eq_true, Bool.and_eq_true, decide_eq_true_eq, ge_iff_le,
    UInt32.le_iff_toNat_le]
  split at h
  · grind
  · grind

section Rules

variable {group : Rule Choice} {groupSpelled : Spelling Choice} {item : Rule Item}
  {itemSpelled : Spelling Item}

/-- What an item consists of is read if it is spelled in one of five ways: their first characters
differ, so that the alternatives in front of the right one fail. -/
theorem complete_primary (hgroup : group.Complete groupSpelled fun _ => True)
    (hopens : ∀ offset cs v, groupSpelled offset cs v → ∃ rest, cs = '(' :: rest) :
    (primary group).Complete (Primary.Spelled groupSpelled) PrimaryEnds := by
  intro c d cs p hp hs hd
  simp only [primary, matches_orElse, matches_map, fails_map]
  -- the first character tells the alternatives apart
  cases p with
  | name n => exact .inl ⟨n, matches_name.2 ⟨cs, hp, hs, hd⟩, rfl⟩
  | string s =>
      have hm := matches_stringLiteral.2 ⟨cs, hp, hs⟩
      obtain ⟨value, hquote, -, rfl, -⟩ := hs
      have hname : name.Fails c := by
        apply fails_name
        rcases hquote with hq | hq <;> simp [hp.1, hq]
      exact .inr ⟨hname, .inl ⟨s, hm, rfl⟩⟩
  | code k =>
      obtain ⟨digits, -, -, rfl, -⟩ := id hs
      have hm : charCode.Matches c k d := by
        -- no further digit follows, because no letter or digit does
        refine matches_charCode.2 ⟨_, hp, hs, fun a ha => ?_⟩
        have hno := hd a ha
        rw [← Bool.not_eq_true] at hno ⊢
        exact fun hex => hno (isAlphanum_of_isHexDigit hex)
      exact .inr ⟨fails_name (by simp [hp.1]), .inr ⟨fails_stringLiteral (by simp [hp.1]),
        .inl ⟨k, hm, rfl⟩⟩⟩
  | charClass k =>
      have hm := matches_charClass.2 ⟨cs, hp, hs⟩
      obtain ⟨body, -, -, -, rfl, -, -⟩ := hs
      exact .inr ⟨fails_name (by simp [hp.1]), .inr ⟨fails_stringLiteral (by simp [hp.1]),
        .inr ⟨fails_charCode (by simp [hp.1]), .inl ⟨k, hm, rfl⟩⟩⟩⟩
  | group v =>
      have hm := hgroup hp hs trivial
      obtain ⟨rest, rfl⟩ := hopens _ _ _ hs
      exact .inr ⟨fails_name (by simp [hp.1]), .inr ⟨fails_stringLiteral (by simp [hp.1]),
        .inr ⟨fails_charCode (by simp [hp.1]), .inr ⟨fails_charClass (by simp [hp.1]),
          v, hm, rfl⟩⟩⟩⟩

/-- No item begins with a character that none of the five kinds begins with. -/
theorem fails_primary (hgroup : ∀ c : Cursor, c.rest.head? ≠ some '(' → group.Fails c)
    {c : Cursor} (h : ∀ a ∈ c.rest.head?, startsItem a = false) : (primary group).Fails c := by
  -- each of the alternatives would have to begin with a character with which items begin
  have hne : ∀ b, startsItem b = true → c.rest.head? ≠ some b := by
    intro b hb hhead
    rw [h b hhead] at hb
    cases hb
  simp only [primary, fails_orElse, fails_map]
  refine ⟨fails_name fun a ha => ?_, fails_stringLiteral fun a ha => ⟨?_, ?_⟩, ?_, ?_, ?_⟩
  · have hstart := h a ha
    simp only [startsItem, Bool.or_eq_false_iff] at hstart
    exact hstart.1.1.1.1.1
  · rintro rfl
    exact hne '"' (by decide) ha
  · rintro rfl
    exact hne '\'' (by decide) ha
  · exact fails_charCode (hne '#' (by decide))
  · exact fails_charClass (hne '[' (by decide))
  · exact hgroup c (hne '(' (by decide))

/-- An item is read with its mark, if what comes next cannot be a mark. -/
theorem complete_itemOf {primary : Rule Primary} {primarySpelled : Spelling Primary}
    (hprimary : primary.Complete primarySpelled PrimaryEnds) :
    (itemOf primary).Complete (Item.SpelledAs primarySpelled) ItemEnds := by
  rintro c d _ ⟨p, v, span⟩ hp ⟨body, hbody, rfl, hspan⟩ hd
  obtain ⟨e, he, hmark⟩ := hp.split
  -- behind the primary comes its mark, or else what follows the item
  have hends : PrimaryEnds e.rest := by
    intro a ha
    rw [hmark.1] at ha
    cases v with
    | none => exact (Bool.or_eq_false_iff.1 (hd a ha)).1
    | some m =>
        obtain rfl : m.mark = a := by simpa [markChars] using ha
        cases m <;> decide
  have hm := matches_mark_of_passes hmark fun a ha => (Bool.or_eq_false_iff.1 (hd a ha)).2
  simp only [itemOf, matches_bind, matches_here, matches_pure]
  refine ⟨_, c, ⟨rfl, rfl⟩, p, e, hprimary he hbody hends, v, d, hm, _, d, ⟨rfl, rfl⟩, ?_, rfl⟩
  rw [hp.over, ← hspan]

theorem fails_itemOf {primary : Rule Primary} {c : Cursor} (h : primary.Fails c) :
    (itemOf primary).Fails c :=
  fails_here_bind.2 (fails_bind.2 (.inl h))

/-! ## Branches -/

/-- Whether a choice ends in front of a character. -/
def endsChoice (a : Char) : Bool := a == ')' || isLineEnd a

/-- Whether a branch ends in front of a character. -/
def endsBranch (a : Char) : Bool := a == '|' || endsChoice a

/-- What ends a branch is not layout. -/
theorem not_startsGap_of_endsBranch {a : Char} (h : endsBranch a = true) :
    startsGap false a = false := by
  simp only [endsBranch, endsChoice, isLineEnd, Bool.or_eq_true, beq_iff_eq] at h
  rcases h with rfl | rfl | rfl | rfl <;> decide

/-- What ends a branch begins no item. -/
theorem not_startsItem_of_endsBranch {a : Char} (h : endsBranch a = true) :
    startsItem a = false := by
  simp only [endsBranch, endsChoice, isLineEnd, Bool.or_eq_true, beq_iff_eq] at h
  rcases h with rfl | rfl | rfl | rfl <;> decide

/-- What begins an item is not layout. -/
theorem not_startsGap_of_startsItem {breaks : Bool} {a : Char} (h : startsItem a = true) :
    startsGap breaks a = false := by
  rw [← Bool.not_eq_true]
  intro hgap
  simp only [startsGap, isLineEnd, Bool.or_eq_true, Bool.and_eq_true, beq_iff_eq] at hgap
  rcases hgap with ((rfl | rfl) | rfl) | ⟨-, rfl | rfl⟩ <;> revert h <;> decide

theorem not_continuesItem_of_startsGap {a : Char} (h : startsGap false a = true) :
    continuesItem a = false := by
  simp only [startsGap, Bool.false_and, Bool.or_false, Bool.or_eq_true, beq_iff_eq] at h
  rcases h with (rfl | rfl) | rfl <;> decide

/-- What stands behind layout and does not continue an item ends it. -/
theorem itemEnds_of_stopsAt {stop : Char → Bool} (h : ∀ a, stop a = true → continuesItem a = false)
    {rest : List Char} (hs : StopsAt stop rest) : ItemEnds rest := fun a ha =>
  (hs.head a ha).elim not_continuesItem_of_startsGap (h a)

/-- Where a branch ends, its last item ends. -/
theorem itemEnds_of_endsBranch {rest : List Char} (hs : StopsAt endsBranch rest) :
    ItemEnds rest := by
  refine itemEnds_of_stopsAt (fun a ha => ?_) hs
  simp only [endsBranch, endsChoice, isLineEnd, Bool.or_eq_true, beq_iff_eq] at ha
  rcases ha with rfl | rfl | rfl | rfl <;> decide

/-- Where layout begins, the item in front of it ends. -/
theorem itemEnds_of_plus_gap {gap : List Char} (h : gap ∈ Written.plus (Written.gap false))
    (rest : List Char) : ItemEnds (gap ++ rest) := by
  obtain ⟨a, more, rfl, ha⟩ := exists_of_mem_plus_gap h
  intro b hb
  obtain rfl : a = b := by simpa using hb
  exact not_continuesItem_of_startsGap ha

/-- An item ends in front of a word with layout around it, if the word could not go on in it. -/
theorem itemEnds_of_around {text : String} {a : Char} {as : List Char}
    (htext : text.toList = a :: as) (ha : continuesItem a = false) {gap : List Char}
    (hgap : gap ∈ Written.around text) (rest : List Char) : ItemEnds (gap ++ rest) := by
  have hs : StopsAt (· == a) (gap ++ rest) := stopsAt_around_append htext (by simp) hgap rest
  exact itemEnds_of_stopsAt (fun b hb => by rwa [beq_iff_eq.1 hb]) hs

/-- A rule fails behind a space if what comes behind the layout cannot begin what it reads. -/
theorem fails_space {rule : Rule α} {c e : Cursor} (hskip : (skip false).Matches c () e)
    (he : rule.Fails e) : (do space; rule : Rule α).Fails c := by
  have hdecides : space.Decides := .bind (decides_gap false) fun _ => decides_skip false
  rcases hdecides c with hf | ⟨_, f, hm⟩
  · exact fails_bind.2 (.inl hf)
  · obtain ⟨-, rfl⟩ := hskip.unique (skip_of_matches_space hm)
    exact fails_bind.2 (.inr ⟨(), e, hm, he⟩)

/-- What items have to satisfy for branches, choices and groups to be read as they are spelled. -/
structure Rule.ReadsItems (item : Rule Item) (spelled : Spelling Item) : Prop where
  sound : item.Sound spelled
  complete : item.Complete spelled ItemEnds
  opens : Spelling.Opens spelled
  fails : ∀ c : Cursor, (∀ a ∈ c.rest.head?, startsItem a = false) → item.Fails c

/-- Where something that opens with an item stands, no gap begins. -/
theorem Spelling.Opens.not_startsGap {spelled : Spelling α} (h : Spelling.Opens spelled)
    {c d : Cursor} {offset : Nat} {cs : List Char} {a : α} (hp : c.Passes cs d)
    (hs : spelled offset cs a) (breaks : Bool) :
    ∀ b ∈ c.rest.head?, startsGap breaks b = false := by
  obtain ⟨b, rest, rfl, hb⟩ := h hs
  intro b' hb'
  obtain rfl : b = b' := by simpa [hp.1] using hb'
  exact not_startsGap_of_startsItem hb

/-- Further items of a sequence are read behind the layout that separates them. -/
theorem completeBehind_space (h : item.ReadsItems itemSpelled) :
    (do space; item : Rule Item).CompleteBehind (Written.plus (Written.gap false)) ItemEnds
      itemSpelled := by
  intro c d e gap cs i hgap hp hq hs hd
  have hspace : space.Matches c () e :=
    matches_space.2 ⟨⟨gap, hgap, hp⟩, fails_gap (h.opens.not_startsGap hq hs false)⟩
  exact matches_bind.2 ⟨(), e, hspace, h.complete hq hs hd⟩

/-- What a word introduces is read behind the word and the layout around it. -/
theorem completeBehind_around {text : String} {a : Char} {as : List Char}
    (htext : text.toList = a :: as) (ha : startsGap false a = false) {next : Rule α}
    {spelled : Spelling α} {follow : List Char → Prop} (hnext : next.Complete spelled follow)
    (hopens : Spelling.Opens spelled) :
    (do skip false; literal text; skip false; next : Rule α).CompleteBehind (Written.around text)
      follow spelled := by
  intro c d e gap cs b hgap hp hq hs hd
  exact matches_around_of_passes htext ha hgap hp (hopens.not_startsGap hq hs false)
    (hnext hq hs hd)

/-- Where a spelling of an item stands, the item is the first thing found there. -/
theorem startsItem_of_matches (h : item.ReadsItems itemSpelled) {c d : Cursor} {i : Item}
    (hm : item.Matches c i d) : ∃ a rest, c.rest = a :: rest ∧ startsItem a = true := by
  obtain ⟨cs, hp, hs⟩ := h.sound hm
  obtain ⟨a, rest, rfl, ha⟩ := h.opens hs
  exact ⟨a, rest ++ d.rest, hp.1, ha⟩

/-- A branch is read as a difference if a dash and a second item follow the first. -/
theorem matches_branch_of_difference (h : item.ReadsItems itemSpelled) {c d e f : Cursor}
    {left right : Item} {span : Span} {gap cs : List Char} (hleft : item.Matches c left e)
    (hgap : gap ∈ Written.around "-") (hp : e.Passes gap f) (hq : f.Passes cs d)
    (hright : itemSpelled f.offset cs right) (hd : ItemEnds d.rest)
    (hspan : span = ⟨c.offset, d.offset⟩) :
    (branch item).Matches c (.difference left right span) d := by
  have hm : (differenceFrom item c.offset left).Matches e (.difference left right span) d := by
    refine matches_around_of_passes (a := '-') rfl (by decide) hgap hp
      (h.opens.not_startsGap hq hright false) ?_
    simp only [matches_bind, matches_here, matches_pure]
    refine ⟨right, d, h.complete hq hright hd, _, d, ⟨rfl, rfl⟩, ?_, rfl⟩
    rw [hspan]
  simp only [branch, matches_bind, matches_here, matches_orElse]
  exact ⟨_, c, ⟨rfl, rfl⟩, left, e, hleft, .inl hm⟩

/-- Behind the first item of a sequence comes no dash: the next item does, or the branch ends. -/
theorem fails_differenceFrom (h : item.ReadsItems itemSpelled) {c d e : Cursor} {left : Item}
    {more : List Item} (hr : Repeats (do space; item : Rule Item) d more e)
    (he : StopsAt endsBranch e.rest) : (differenceFrom item c.offset left).Fails d := by
  apply fails_around (a := '-') rfl
  cases hr with
  | done =>
      -- the branch ends behind its first item
      obtain ⟨f, hskip, hf⟩ := (stopsAt_iff fun a => not_startsGap_of_endsBranch).1 he
      refine ⟨f, hskip, fun hdash => ?_⟩
      have hends := hf '-' hdash
      revert hends
      decide
  | step hm _ =>
      -- the next item begins where the layout ends
      obtain ⟨_, f, hspace, hi⟩ := matches_bind.1 hm
      refine ⟨f, skip_of_matches_space hspace, fun hdash => ?_⟩
      obtain ⟨a, rest, hrest, ha⟩ := startsItem_of_matches h hi
      obtain rfl : a = '-' := by simpa [hrest] using hdash
      revert ha
      decide

/-- A branch is read as a sequence if its items are not followed by a dash. -/
theorem matches_branch_of_sequence (h : item.ReadsItems itemSpelled) {c d e : Cursor}
    {first : Item} {more : List Item} {span : Span} (hfirst : item.Matches c first e)
    (hr : Repeats (do space; item : Rule Item) e more d) (hd : StopsAt endsBranch d.rest)
    (hspan : span = ⟨c.offset, d.offset⟩) :
    (branch item).Matches c (.sequence (first :: more) span) d := by
  obtain ⟨f, hskip, hf⟩ := (stopsAt_iff fun a => not_startsGap_of_endsBranch).1 hd
  -- behind the last item there may be layout, but no item
  have hstop : (do space; item : Rule Item).Fails d :=
    fails_space hskip (h.fails f fun a ha => not_startsItem_of_endsBranch (hf a ha))
  have hm : (sequenceFrom item c.offset first).Matches e (.sequence (first :: more) span) d := by
    have hmany := (matches_many ((soundBehind_space h.sound).consumes nil_notMem_plus_gap)).2
      ⟨hr, hstop⟩
    simp only [sequenceFrom, matches_bind, matches_here, matches_pure]
    refine ⟨more, d, hmany, _, d, ⟨rfl, rfl⟩, ?_, rfl⟩
    rw [hspan]
  simp only [branch, matches_bind, matches_here, matches_orElse]
  exact ⟨_, c, ⟨rfl, rfl⟩, first, e, hfirst, .inr ⟨fails_differenceFrom h hr hd, hm⟩⟩

/-- Branches are read as they are spelled. A difference is attempted first, and fails on
sequences. -/
theorem complete_branch (h : item.ReadsItems itemSpelled) :
    (branch item).Complete (Branch.Spelled itemSpelled) (StopsAt endsBranch) := by
  intro c d cs b hp hs hd
  have hends := itemEnds_of_endsBranch hd
  cases b with
  | sequence items span =>
      obtain ⟨hitems, hspan⟩ := hs
      obtain ⟨first, more, e, rfl, hfirst, hr⟩ := (completeBehind_space h).repeats h.complete
        (fun _ => itemEnds_of_plus_gap) hitems rfl hp hends
      exact matches_branch_of_sequence h hfirst hr hd (hspan.trans hp.over.symm)
  | difference left right span =>
      obtain ⟨hitems, hspan⟩ := hs
      have hover := hspan.trans hp.over.symm
      cases hitems with
      | more hleft hgap hright =>
          cases hright with
          | more _ _ hrest => cases hrest
          | one hright =>
              obtain ⟨f, hp, hq⟩ := hp.split
              obtain ⟨e, he, hf⟩ := hp.split
              -- the first item ends in front of the layout around the dash
              have hm : item.Matches c left e := by
                apply h.complete he hleft
                rw [hf.1]
                exact itemEnds_of_around rfl (by decide) hgap _
              rw [← (he.trans hf).2] at hright
              exact matches_branch_of_difference h hm hgap hf hq hright hends hover

/-! ## Choices -/

/-- Choices are read as they are spelled, up to where no bar follows. -/
theorem complete_choice (h : item.ReadsItems itemSpelled) :
    (choice item).Complete (Choice.Spelled itemSpelled) (StopsAt endsChoice) := by
  rintro c d cs ⟨branches, span⟩ hp ⟨hbranches, hspan⟩ hd
  have hbranch := complete_branch h
  have hopens := Branch.Spelled.opens h.opens
  obtain ⟨first, more, e, rfl, hfirst, hr⟩ :=
    (completeBehind_around (a := '|') rfl (by decide) hbranch hopens).repeats hbranch
      (fun _ => stopsAt_around_append rfl (by decide)) hbranches rfl hp
      (hd.mono fun a ha => by simp [endsBranch, ha])
  -- behind the last branch there may be layout, but no bar
  have hstop : (do skip false; literal "|"; skip false; branch item : Rule Branch).Fails d := by
    obtain ⟨f, hskip, hf⟩ := (stopsAt_iff fun a ha => not_startsGap_of_endsBranch
      (by simp [endsBranch, ha])).1 hd
    refine fails_around (a := '|') rfl ⟨f, hskip, fun hbar => ?_⟩
    have hends := hf '|' hbar
    revert hends
    decide
  have hmany := (matches_many ((soundBehind_around "|" (sound_branch h.sound)).consumes
    (nil_notMem_around rfl))).2 ⟨hr, hstop⟩
  simp only [choice, matches_bind, matches_here, matches_pure]
  refine ⟨_, c, ⟨rfl, rfl⟩, first, e, hfirst, more, d, hmany, _, d, ⟨rfl, rfl⟩, ?_, rfl⟩
  rw [hp.over, ← hspan]

/-- Groups are read as they are spelled, whatever comes behind the parenthesis. -/
theorem complete_group {choice : Rule Choice} {choiceSpelled : Spelling Choice}
    (hchoice : choice.Complete choiceSpelled (StopsAt endsChoice))
    (hopens : Spelling.Opens choiceSpelled) :
    (Notation.group choice).Complete (Choice.SpelledInGroup choiceSpelled) fun _ => True := by
  rintro c d _ v hp ⟨before, inner, after, hbefore, hafter, rfl, hinner⟩ -
  obtain ⟨x, hp, hd⟩ := hp.split
  obtain ⟨g, hp, hx⟩ := hp.split
  obtain ⟨f, hp, hg⟩ := hp.split
  obtain ⟨e, he, hf⟩ := hp.split
  rw [← (he.trans hf).2] at hinner
  -- the parenthesis ends the choice and the layout behind it
  have hclose : x.rest.head? = some ')' := by simp [hd.1]
  have hstop : StopsAt endsChoice g.rest :=
    ⟨after, hafter, x.rest, hx.1, by simp [hclose, endsChoice]⟩
  simp only [Notation.group, matches_bind, matches_here, matches_literal, matches_inside,
    matches_pure]
  exact ⟨_, c, ⟨rfl, rfl⟩, (), e, he, (), f,
    skip_of_passes hbefore hf (hopens.not_startsGap hg hinner false), v, g,
    hchoice hg hinner hstop, (), x, skip_of_passes hafter hx (by simp [hclose, startsGap]),
    (), d, hd, rfl, rfl⟩

/-- At every depth, items are read as they are spelled. -/
theorem readsItems_item : ∀ depth, (Notation.item depth).ReadsItems (Item.SpelledWithin depth)
  -- without depth no group is spelled, and parentheses are missed
  | 0 => {
      sound := sound_item 0
      complete := complete_itemOf (complete_primary (fun _ _ _ _ _ hs => hs.elim)
        fun _ _ _ hs => hs.elim)
      opens := Item.SpelledWithin.opens 0
      fails := fun _ hc => fails_itemOf (fails_primary (fun _ => fails_refusedGroup) hc) }
  -- a group contains a choice of items of one depth less
  | depth + 1 => {
      sound := sound_item (depth + 1)
      complete := complete_itemOf (complete_primary
        (complete_group (complete_choice (readsItems_item depth))
          (Choice.Spelled.opens (Item.SpelledWithin.opens depth)))
        fun _ _ _ => Choice.SpelledInGroup.head)
      opens := Item.SpelledWithin.opens (depth + 1)
      fails := fun _ hc => fails_itemOf (fails_primary (fun _ => fails_group) hc) }

end Rules

end Railroad.Notation
