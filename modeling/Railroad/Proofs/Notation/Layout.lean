import Railroad.Proofs.Notation.Language
import Railroad.Proofs.Notation.Outcome
set_option autoImplicit false

/-!
# Layout

What `gap`, `skip` and `space` take is layout of the language of the notation, and they take as much
of it as there is: `skip` ends where no gap begins. A character that can begin a gap is a blank, a
tab, a slash or, where lines may end, the end of a line. `StopsAt` says what comes behind the layout
at a place.
-/

namespace Railroad.Notation

open Computability Rule

/-! ## Comments -/

/-- Nothing of a text is lost when it is cut in front of a mark. -/
theorem append_of_splitBefore {mark cs taken rest : List Char}
    (h : splitBefore mark cs = (taken, rest)) : cs = taken ++ rest := by
  induction cs generalizing taken rest with
  | nil =>
      simp only [splitBefore, Prod.mk.injEq] at h
      obtain ⟨rfl, rfl⟩ := h
      rfl
  | cons c cs ih =>
      rw [splitBefore] at h
      split at h
      · simp only [Prod.mk.injEq] at h
        obtain ⟨rfl, rfl⟩ := h
        rfl
      -- the mark is further on, and the character stands in front of the cut
      · rcases hs : splitBefore mark cs with ⟨before, behind⟩
        simp only [hs, Prod.mk.injEq] at h
        obtain ⟨rfl, rfl⟩ := h
        rw [ih hs, List.cons_append]

/-- The first occurrence of a mark is the only one that ends where it ends. -/
theorem eq_nil_of_splitBefore {mark cs taken rest before after : List Char}
    (h : splitBefore mark cs = (taken, mark ++ rest))
    (k : taken ++ mark = before ++ mark ++ after) : after = [] := by
  induction cs generalizing taken before with
  | nil =>
      simp only [splitBefore, Prod.mk.injEq] at h
      have hl := congrArg List.length k
      simp only [← h.1, List.length_append, List.length_nil] at hl
      exact List.eq_nil_of_length_eq_zero (by omega)
  | cons c cs ih =>
      rw [splitBefore] at h
      split at h
      · simp only [Prod.mk.injEq] at h
        have hl := congrArg List.length k
        simp only [← h.1, List.length_append, List.length_nil] at hl
        exact List.eq_nil_of_length_eq_zero (by omega)
      next hno =>
        rcases hs : splitBefore mark cs with ⟨pre, behind⟩
        simp only [hs, Prod.mk.injEq] at h
        obtain ⟨rfl, rfl⟩ := h
        cases before with
        | nil =>
            -- an occurrence right at the start would have stopped the search there
            refine absurd (List.isPrefixOf_iff_prefix.2 ?_) hno
            rw [append_of_splitBefore hs, ← List.cons_append, ← List.append_assoc, k,
              List.nil_append, List.append_assoc]
            exact List.prefix_append _ _
        | cons b before =>
            simp only [List.cons_append, List.cons.injEq] at k
            exact ih hs (by simpa using k.2)

/-- A text is cut in front of the first mark in it. The mark must not begin earlier, not even if
some of it lies in what is taken. -/
theorem splitBefore_of_first {mark : List Char} (rest : List Char) :
    ∀ body : List Char, (∀ before after, body ++ mark = before ++ mark ++ after → after = []) →
      splitBefore mark (body ++ mark ++ rest) = (body, mark ++ rest)
  | [], _ => by
      -- the mark comes right at the start
      cases mark with
      | nil => cases rest <;> simp [splitBefore]
      | cons m mark =>
          have hp : (m :: mark).isPrefixOf (m :: (mark ++ rest)) = true :=
            List.isPrefixOf_iff_prefix.2 (List.prefix_append (m :: mark) rest)
          simp [splitBefore, hp]
  | b :: body, h => by
      -- an occurrence of the mark at the start would end before the first one does
      have hno : mark.isPrefixOf (b :: (body ++ mark ++ rest)) = false := by
        rw [← Bool.not_eq_true, List.isPrefixOf_iff_prefix]
        intro hp
        have hq : mark <+: b :: body ++ mark := by
          refine List.prefix_of_prefix_length_le hp ?_ (by simp; omega)
          exact ⟨rest, by simp⟩
        obtain ⟨after, ha⟩ := hq
        have hnil := h [] after (by rw [List.nil_append, ha])
        rw [hnil, List.append_nil] at ha
        have hl := congrArg List.length ha
        simp only [List.length_append, List.length_cons] at hl
        omega
      have ih := splitBefore_of_first rest body fun before after k =>
        h (b :: before) after (by rw [List.cons_append, k]; rfl)
      simp only [List.cons_append, splitBefore, hno, ih]
      rfl

/-- What is taken in front of a mark ends where the text is cut. -/
theorem matches_charsBefore {mark taken : List Char} {c d : Cursor} :
    (charsBefore mark).Matches c taken d ↔
      splitBefore mark c.rest = (taken, d.rest) ∧ c.Passes taken d := by
  rcases hs : splitBefore mark c.rest with ⟨before, behind⟩
  have hp : c.Passes before (c.after before behind) := .after c (append_of_splitBefore hs)
  have hrun : (charsBefore mark).Matches c before (c.after before behind) := by
    simp [Matches, charsBefore, hs]
  constructor
  · intro h
    obtain ⟨rfl, rfl⟩ := h.unique hrun
    exact ⟨rfl, hp⟩
  · rintro ⟨heq, hd⟩
    obtain ⟨rfl, -⟩ := Prod.mk.injEq .. ▸ heq
    rwa [hd.unique hp]

/-- A comment is taken up to the first mark that can end it. -/
theorem matches_comment {c d : Cursor} {u : Unit} :
    comment.Matches c u d ↔ ∃ cs ∈ Written.comment, c.Passes cs d := by
  simp only [comment, matches_bind, matches_literal, matches_charsBefore]
  constructor
  · rintro ⟨_, e, he, body, f, ⟨hs, hf⟩, hd⟩
    rw [hd.1] at hs
    exact ⟨_, ⟨body, rfl, fun before after => eq_nil_of_splitBefore hs⟩, (he.trans hf).trans hd⟩
  · rintro ⟨cs, ⟨body, rfl, hfirst⟩, hp⟩
    obtain ⟨f, hp, hd⟩ := hp.split
    obtain ⟨e, he, hf⟩ := hp.split
    refine ⟨(), e, he, body, f, ⟨?_, hf⟩, hd⟩
    rw [hf.1, hd.1, ← List.append_assoc]
    exact splitBefore_of_first _ body hfirst

/-! ## Gaps -/

/-- Whether a gap may begin with a character. -/
def startsGap (breaks : Bool) (c : Char) : Bool :=
  c == '/' || c == ' ' || c == '\t' || (breaks && isLineEnd c)

/-- Every gap begins with a character of its own. -/
theorem exists_of_mem_gap {breaks : Bool} {cs : List Char} (h : cs ∈ Written.gap breaks) :
    ∃ c rest, cs = c :: rest ∧ startsGap breaks c = true := by
  rcases h with ⟨body, rfl, -⟩ | ⟨c, hc, rfl⟩
  · exact ⟨'/', '*' :: (body ++ ['*', '/']), by simp, by simp [startsGap]⟩
  · refine ⟨c, [], rfl, ?_⟩
    simp only [startsGap, Bool.or_eq_true, Bool.and_eq_true] at hc ⊢
    grind

/-- Layout that is not empty begins with a blank or a comment. -/
theorem exists_of_mem_layout {breaks : Bool} {cs : List Char} (h : cs ∈ Written.layout breaks)
    (hne : cs ≠ []) : ∃ c rest, cs = c :: rest ∧ startsGap breaks c = true := by
  obtain ⟨pieces, rfl, hpieces⟩ := h
  cases pieces with
  | nil => exact absurd rfl hne
  | cons piece pieces =>
      obtain ⟨c, rest, rfl, hc⟩ := exists_of_mem_gap (hpieces piece (by simp))
      exact ⟨c, rest ++ pieces.flatten, by simp, hc⟩

theorem exists_of_mem_plus_gap {breaks : Bool} {cs : List Char}
    (h : cs ∈ Written.plus (Written.gap breaks)) :
    ∃ c rest, cs = c :: rest ∧ startsGap breaks c = true := by
  obtain ⟨gap, hgap, more, -, rfl⟩ := h
  obtain ⟨c, rest, rfl, hc⟩ := exists_of_mem_gap hgap
  exact ⟨c, rest ++ more, rfl, hc⟩

/-- Layout that has to be there is not empty. -/
theorem nil_notMem_plus_gap {breaks : Bool} : [] ∉ Written.plus (Written.gap breaks) := by
  intro h
  obtain ⟨c, rest, hcs, -⟩ := exists_of_mem_plus_gap h
  cases hcs

/-- A word with layout around it is not empty. -/
theorem nil_notMem_around {text : String} {a : Char} {as : List Char} (h : text.toList = a :: as) :
    [] ∉ Written.around text := by
  rintro ⟨_, ⟨before, -, _, rfl, rfl⟩, after, -, hnil⟩
  simp [h] at hnil

theorem nil_notMem_lineBreak : [] ∉ Written.lineBreak := by
  rintro ⟨_, ⟨before, -, _, ⟨a, -, rfl⟩, rfl⟩, after, -, hnil⟩
  simp at hnil

theorem mem_layout_of_mem_plus {breaks : Bool} {cs : List Char}
    (h : cs ∈ Written.plus (Written.gap breaks)) : cs ∈ Written.layout breaks := by
  obtain ⟨gap, hgap, more, hmore, rfl⟩ := h
  exact Written.append_mem_kstar hgap hmore

/-- Layout within a line is layout between lines. -/
theorem mem_gap_true {cs : List Char} (h : cs ∈ Written.gap false) : cs ∈ Written.gap true := by
  rcases h with h | ⟨c, hc, rfl⟩
  · exact .inl h
  · refine .inr ⟨c, ?_, rfl⟩
    simp only [Bool.or_eq_true, Bool.and_eq_true] at hc ⊢
    grind

/-- A gap stays within its line, or it is the end of that line. -/
theorem mem_gap_iff {cs : List Char} : cs ∈ Written.gap true ↔
    cs ∈ Written.gap false ∨ ∃ a, isLineEnd a = true ∧ cs = [a] := by
  constructor
  · rintro (hcomment | ⟨a, ha, rfl⟩)
    · exact .inl (.inl hcomment)
    · simp only [Bool.or_eq_true, Bool.and_eq_true] at ha
      rcases ha with ha | ⟨-, ha⟩
      · exact .inl (.inr ⟨a, by simpa using ha, rfl⟩)
      · exact .inr ⟨a, ha, rfl⟩
  · rintro (h | ⟨a, ha, rfl⟩)
    · exact mem_gap_true h
    · exact .inr ⟨a, by simp [ha], rfl⟩

/-- Layout within a line is layout also where lines may end. -/
theorem mem_layout_true {cs : List Char} (h : cs ∈ Written.layout false) :
    cs ∈ Written.layout true := by
  obtain ⟨pieces, rfl, hpieces⟩ := h
  exact ⟨pieces, rfl, fun piece hpiece => mem_gap_true (hpieces piece hpiece)⟩

/-- A piece of layout is a comment or a single blank. -/
theorem matches_gap {breaks : Bool} {c d : Cursor} {u : Unit} :
    (gap breaks).Matches c u d ↔ ∃ cs ∈ Written.gap breaks, c.Passes cs d := by
  simp only [gap, matches_orElse, matches_bind, matches_lookahead, matches_charWhere,
    matches_comment, matches_pure, fails_bind, fails_lookahead, fails_charWhere]
  constructor
  · rintro (⟨_, _, ⟨-, rfl⟩, cs, hcs, hp⟩ | ⟨-, a, _, ⟨ha, hp⟩, -, rfl⟩)
    · exact ⟨cs, .inl hcs, hp⟩
    · exact ⟨[a], .inr ⟨a, ha, rfl⟩, hp⟩
  · rintro ⟨cs, ⟨body, rfl, hfirst⟩ | ⟨a, ha, rfl⟩, hp⟩
    · -- the slash of a comment is what the first alternative looks for
      obtain ⟨e, he, -⟩ := Cursor.Passes.cons hp
      exact .inl ⟨(), c, ⟨⟨'/', e, rfl, he⟩, rfl⟩, _, ⟨body, rfl, hfirst⟩, hp⟩
    · -- any other gap is a single character, which is no slash
      refine .inr ⟨.inl ?_, a, d, ⟨ha, hp⟩, trivial, rfl⟩
      intro b hb
      obtain rfl : a = b := by simpa [hp.1] using hb
      simp only [Bool.or_eq_true, Bool.and_eq_true, beq_iff_eq, isLineEnd] at ha
      rw [beq_eq_false_iff_ne]
      rintro rfl
      simp at ha

theorem decides_gap (breaks : Bool) : (gap breaks).Decides :=
  .orElse (.bind (.lookahead (.charWhere _)) fun _ =>
      .bind (.literal _) fun _ => .bind (.charsBefore _) fun _ => .literal _)
    (.bind (.charWhere _) fun _ => .pure _)

/-- Each piece of layout takes something. -/
theorem consumes_gap (breaks : Bool) : (gap breaks).Consumes := by
  intro c u d h
  obtain ⟨cs, hcs, hp⟩ := matches_gap.1 h
  obtain ⟨a, rest, rfl, -⟩ := exists_of_mem_gap hcs
  rw [hp.length, List.length_cons]
  omega

/-- No gap begins with another character. -/
theorem fails_gap {breaks : Bool} {c : Cursor}
    (h : ∀ a ∈ c.rest.head?, startsGap breaks a = false) : (gap breaks).Fails c := by
  apply (decides_gap breaks).fails_of_not_matches
  intro u d hm
  obtain ⟨cs, hcs, hp⟩ := matches_gap.1 hm
  obtain ⟨a, rest, rfl, ha⟩ := exists_of_mem_gap hcs
  rw [h a (by simp [hp.1])] at ha
  cases ha

/-- Pieces of layout in a row are layout. -/
theorem repeats_gap {breaks : Bool} {c d : Cursor} :
    (∃ us, Repeats (gap breaks) c us d) ↔ ∃ cs ∈ Written.layout breaks, c.Passes cs d := by
  constructor
  · -- each match takes one gap more
    rintro ⟨us, h⟩
    induction h with
    | done c => exact ⟨[], Language.nil_mem_kstar _, .refl c⟩
    | step hm _ ih =>
        obtain ⟨piece, hpiece, hp⟩ := matches_gap.1 hm
        obtain ⟨cs, hcs, hq⟩ := ih
        exact ⟨piece ++ cs, Written.append_mem_kstar hpiece hcs, hp.trans hq⟩
  · -- each piece of the layout is matched by itself
    rintro ⟨_, ⟨pieces, rfl, hpieces⟩, hp⟩
    induction pieces generalizing c with
    | nil =>
        obtain rfl := Cursor.Passes.unique (.refl c) hp
        exact ⟨[], .done c⟩
    | cons piece pieces ih =>
        obtain ⟨e, he, hp⟩ := hp.split
        obtain ⟨us, hus⟩ := ih (fun y hy => hpieces y (List.mem_cons_of_mem piece hy)) hp
        exact ⟨() :: us, .step (matches_gap.2 ⟨piece, hpieces piece (by simp), he⟩) hus⟩

/-- Layout is skipped as far as it goes. -/
theorem matches_skip {breaks : Bool} {c d : Cursor} {u : Unit} :
    (skip breaks).Matches c u d ↔
      (∃ cs ∈ Written.layout breaks, c.Passes cs d) ∧ (gap breaks).Fails d := by
  simp only [skip, matches_bind, matches_pure, matches_many (consumes_gap breaks)]
  constructor
  · rintro ⟨us, e, ⟨hr, hf⟩, -, rfl⟩
    exact ⟨repeats_gap.1 ⟨us, hr⟩, hf⟩
  · rintro ⟨hl, hf⟩
    obtain ⟨us, hr⟩ := repeats_gap.2 hl
    exact ⟨us, d, ⟨hr, hf⟩, trivial, rfl⟩

theorem decides_skip (breaks : Bool) : (skip breaks).Decides :=
  .bind (.many (decides_gap breaks)) fun _ => .pure _

/-- Layout may be empty, so that it cannot be missed. -/
@[simp] theorem not_fails_skip {breaks : Bool} {c : Cursor} : ¬ (skip breaks).Fails c := by
  simp [skip]

/-- Layout in front of a character that begins no gap is skipped altogether. -/
theorem skip_of_passes {breaks : Bool} {c d : Cursor} {cs : List Char}
    (h : cs ∈ Written.layout breaks) (hp : c.Passes cs d)
    (hd : ∀ a ∈ d.rest.head?, startsGap breaks a = false) : (skip breaks).Matches c () d :=
  matches_skip.2 ⟨⟨cs, h, hp⟩, fails_gap hd⟩

/-- What has to separate items is layout within the line, and as much as there is of it. -/
theorem matches_space {c d : Cursor} {u : Unit} :
    space.Matches c u d ↔
      (∃ cs ∈ Written.plus (Written.gap false), c.Passes cs d) ∧ (gap false).Fails d := by
  simp only [space, matches_bind, matches_gap, matches_skip]
  constructor
  · rintro ⟨_, e, ⟨piece, hpiece, hp⟩, ⟨cs, hcs, hq⟩, hf⟩
    exact ⟨⟨piece ++ cs, ⟨piece, hpiece, cs, hcs, rfl⟩, hp.trans hq⟩, hf⟩
  · rintro ⟨⟨_, ⟨piece, hpiece, cs, hcs, rfl⟩, hp⟩, hf⟩
    obtain ⟨e, hp, hq⟩ := hp.split
    exact ⟨(), e, ⟨piece, hpiece, hp⟩, ⟨cs, hcs, hq⟩, hf⟩

/-- Where there is a space, skipping goes as far as the space does. -/
theorem skip_of_matches_space {c d : Cursor} {u : Unit} (h : space.Matches c u d) :
    (skip false).Matches c () d := by
  obtain ⟨⟨cs, hcs, hp⟩, hf⟩ := matches_space.1 h
  exact matches_skip.2 ⟨⟨cs, mem_layout_of_mem_plus hcs, hp⟩, hf⟩

/-- A fixed text is read with the layout around it. -/
theorem passes_of_matches_around {β : Type} {text : String} {next : Rule β} {c d : Cursor} {b : β}
    (h : (do skip false; literal text; skip false; next : Rule β).Matches c b d) :
    ∃ gap ∈ Written.around text, ∃ e, c.Passes gap e ∧ next.Matches e b d := by
  simp only [matches_bind, matches_literal] at h
  obtain ⟨_, e, hskip, _, f, hf, _, g, hskip', hnext⟩ := h
  obtain ⟨⟨before, hbefore, he⟩, -⟩ := matches_skip.1 hskip
  obtain ⟨⟨after, hafter, hg⟩, -⟩ := matches_skip.1 hskip'
  exact ⟨_, Language.append_mem_mul (Language.append_mem_mul hbefore rfl) hafter, g,
    (he.trans hf).trans hg, hnext⟩

/-- What a word introduces is read behind the word, with layout on both sides of it. -/
theorem matches_around_of_passes {β : Type} {text : String} {a : Char} {as : List Char}
    (htext : text.toList = a :: as) (ha : startsGap false a = false) {next : Rule β}
    {c d e : Cursor} {b : β} {gap : List Char} (hgap : gap ∈ Written.around text)
    (hp : c.Passes gap e) (he : ∀ x ∈ e.rest.head?, startsGap false x = false)
    (hnext : next.Matches e b d) :
    (do skip false; literal text; skip false; next : Rule β).Matches c b d := by
  obtain ⟨_, ⟨before, hbefore, _, rfl, rfl⟩, after, hafter, rfl⟩ := hgap
  obtain ⟨g, hp, hafterp⟩ := hp.split
  obtain ⟨f, hf, hg⟩ := hp.split
  simp only [matches_bind, matches_literal]
  refine ⟨(), f, skip_of_passes hbefore hf ?_, (), g, hg, (), e, skip_of_passes hafter hafterp he,
    hnext⟩
  simpa [hg.1, htext] using ha

/-- Where another character comes behind the layout, a fixed text does not. -/
theorem fails_around {β : Type} {text : String} {a : Char} {as : List Char}
    (htext : text.toList = a :: as) {next : Rule β} {c : Cursor}
    (hc : ∃ d, (skip false).Matches c () d ∧ d.rest.head? ≠ some a) :
    (do skip false; literal text; skip false; next : Rule β).Fails c := by
  obtain ⟨d, hskip, hd⟩ := hc
  exact fails_bind.2 (.inr ⟨(), d, hskip, fails_bind.2 (.inl (fails_literal_of_head htext hd))⟩)

/-! ## What comes behind layout -/

/-- Behind the layout within a line, the text ends or goes on with a character that satisfies a
condition. -/
def StopsAt (stop : Char → Bool) (cs : List Char) : Prop :=
  ∃ before ∈ Written.layout false, ∃ rest, cs = before ++ rest ∧ ∀ a ∈ rest.head?, stop a = true

/-- A text that stops at some characters stops at more of them. -/
theorem StopsAt.mono {stop stop' : Char → Bool} (h : ∀ a, stop a = true → stop' a = true)
    {cs : List Char} (hs : StopsAt stop cs) : StopsAt stop' cs := by
  obtain ⟨before, hbefore, rest, rfl, hrest⟩ := hs
  exact ⟨before, hbefore, rest, rfl, fun a ha => h a (hrest a ha)⟩

/-- What comes behind the layout is found by skipping it. -/
theorem stopsAt_iff {stop : Char → Bool} (h : ∀ a, stop a = true → startsGap false a = false)
    {c : Cursor} : StopsAt stop c.rest ↔
      ∃ d, (skip false).Matches c () d ∧ ∀ a ∈ d.rest.head?, stop a = true := by
  constructor
  · rintro ⟨before, hbefore, rest, hc, hrest⟩
    refine ⟨c.after before rest, ?_, hrest⟩
    exact skip_of_passes hbefore (.after c hc) fun a ha => h a (hrest a ha)
  · rintro ⟨d, hskip, hd⟩
    obtain ⟨⟨before, hbefore, hp⟩, -⟩ := matches_skip.1 hskip
    exact ⟨before, hbefore, d.rest, hp.1, hd⟩

/-- A character that ends no layout comes first, or else a gap does. -/
theorem StopsAt.head {stop : Char → Bool} {cs : List Char} (h : StopsAt stop cs) :
    ∀ a ∈ cs.head?, startsGap false a = true ∨ stop a = true := by
  obtain ⟨before, hbefore, rest, rfl, hrest⟩ := h
  intro a ha
  by_cases hne : before = []
  · -- there is no layout: the character is the one that has to satisfy the condition
    subst hne
    exact .inr (hrest a ha)
  · obtain ⟨b, more, rfl, hb⟩ := exists_of_mem_layout hbefore hne
    obtain rfl : b = a := by simpa using ha
    exact .inl hb

/-- A text goes on with a word behind layout, which is where the word stops it. -/
theorem stopsAt_around_append {stop : Char → Bool} {text : String} {a : Char} {as : List Char}
    (htext : text.toList = a :: as) (ha : stop a = true) {gap : List Char}
    (hgap : gap ∈ Written.around text) (rest : List Char) : StopsAt stop (gap ++ rest) := by
  obtain ⟨_, ⟨before, hbefore, _, rfl, rfl⟩, after, -, rfl⟩ := hgap
  refine ⟨before, hbefore, text.toList ++ after ++ rest, by simp only [List.append_assoc], ?_⟩
  simp [htext, ha]

/-- The end of a line is not layout within the line. -/
theorem not_startsGap_of_isLineEnd {a : Char} (h : isLineEnd a = true) :
    startsGap false a = false := by
  simp only [isLineEnd, Bool.or_eq_true, beq_iff_eq] at h
  rcases h with rfl | rfl <;> decide

/-- After layout in which lines may end, a text that ends has nothing left in its line. -/
theorem stopsAt_isLineEnd_of_mem_layout {cs : List Char} (h : cs ∈ Written.layout true) :
    StopsAt isLineEnd cs := by
  obtain ⟨pieces, rfl, hpieces⟩ := h
  induction pieces with
  | nil => exact ⟨[], Language.nil_mem_kstar _, [], rfl, by simp⟩
  | cons piece pieces ih =>
      obtain ⟨before, hbefore, rest, hrest, hstop⟩ :=
        ih fun y hy => hpieces y (List.mem_cons_of_mem piece hy)
      rw [List.flatten_cons]
      -- the first gap is layout within the line, or ends it
      rcases hpieces piece (by simp) with hcomment | ⟨a, ha, rfl⟩
      · refine ⟨piece ++ before, Written.append_mem_kstar (.inl hcomment) hbefore, rest, ?_, hstop⟩
        rw [hrest, List.append_assoc]
      · by_cases hend : isLineEnd a = true
        · -- the line ends right here
          exact ⟨[], Language.nil_mem_kstar _, _, rfl, by simpa using hend⟩
        · refine ⟨[a] ++ before, Written.append_mem_kstar (.inr ⟨a, ?_, rfl⟩) hbefore, rest, ?_,
            hstop⟩
          · simpa [hend] using ha
          · rw [hrest, List.append_assoc]

/-- A line break comes behind nothing but layout of its line. -/
theorem stopsAt_isLineEnd_of_mem_lineBreak {gap : List Char} (h : gap ∈ Written.lineBreak)
    (rest : List Char) : StopsAt isLineEnd (gap ++ rest) := by
  obtain ⟨_, ⟨before, hbefore, _, ⟨a, ha, rfl⟩, rfl⟩, after, -, rfl⟩ := h
  exact ⟨before, hbefore, [a] ++ after ++ rest, by simp only [List.append_assoc], by simpa using ha⟩

/-- Layout behind layout is layout. -/
theorem append_mem_layout {breaks : Bool} {xs ys : List Char} (hx : xs ∈ Written.layout breaks)
    (hy : ys ∈ Written.layout breaks) : xs ++ ys ∈ Written.layout breaks :=
  (kstar_mul_kstar (Written.gap breaks)).le (Language.append_mem_mul hx hy)

/-- Layout behind a line break belongs to it. -/
theorem append_mem_lineBreak {gap more : List Char} (hgap : gap ∈ Written.lineBreak)
    (hmore : more ∈ Written.layout true) : gap ++ more ∈ Written.lineBreak := by
  obtain ⟨front, hfront, after, hafter, rfl⟩ := hgap
  rw [List.append_assoc]
  exact Language.append_mem_mul hfront (append_mem_layout hafter hmore)

/-- A line break is layout where lines may end. -/
theorem mem_layout_of_mem_lineBreak {cs : List Char} (h : cs ∈ Written.lineBreak) :
    cs ∈ Written.layout true := by
  obtain ⟨_, ⟨before, hbefore, _, ⟨a, ha, rfl⟩, rfl⟩, after, hafter, rfl⟩ := h
  have hend : [a] ∈ Written.gap true := .inr ⟨a, by simp [ha], rfl⟩
  show before ++ [a] ++ after ∈ Written.layout true
  rw [List.append_assoc]
  exact append_mem_layout (mem_layout_true hbefore) (Written.append_mem_kstar hend hafter)

theorem newline_mem_lineBreak : ['\n'] ∈ Written.lineBreak :=
  Language.append_mem_mul (a := ['\n']) (Language.append_mem_mul (a := [])
    (Language.nil_mem_kstar _) ⟨'\n', by decide, rfl⟩) (Language.nil_mem_kstar _)

/-- Layout in front of a line break makes a longer line break. -/
theorem layout_append_mem_lineBreak {more gap : List Char} (hmore : more ∈ Written.layout true)
    (hgap : gap ∈ Written.lineBreak) : more ++ gap ∈ Written.lineBreak := by
  obtain ⟨pieces, rfl, hpieces⟩ := hmore
  induction pieces with
  | nil => exact hgap
  | cons piece pieces ih =>
      obtain ⟨hpiece, hrest⟩ := List.forall_mem_cons.1 hpieces
      have hbreak := ih hrest
      rw [List.flatten_cons, List.append_assoc]
      rcases mem_gap_iff.1 hpiece with hpiece | ⟨b, hb, rfl⟩
      · -- the gap goes in front of the first line end
        obtain ⟨_, ⟨before, hbefore, last, hlast, rfl⟩, after, hafter, heq⟩ := hbreak
        have hfront : piece ++ before ++ last ++ after ∈ Written.lineBreak :=
          Language.append_mem_mul (Language.append_mem_mul
            (Written.append_mem_kstar hpiece hbefore) hlast) hafter
        rw [← heq]
        simpa only [List.append_assoc] using hfront
      · -- the gap is itself the first line end
        exact Language.append_mem_mul (a := [b]) (Language.append_mem_mul (a := [])
          (Language.nil_mem_kstar _) ⟨b, hb, rfl⟩) (mem_layout_of_mem_lineBreak hbreak)

end Railroad.Notation
