import Railroad.Proofs.Notation.Outcome
set_option autoImplicit false

/-!
# Rules in another place

A text may be moved behind another text, and more text may be added at its end. Where a rule looks
at no more than what was there before, it does the same in the new place (`Rule.Mirrors`): it fails
where it failed, and it matches what it matched, with a value that differs only by the move.
-/

namespace Railroad.Notation

open Rule

variable {tail : List Char} {k : Nat} {α β : Type}

/-- The second place is `k` bytes further on in a text that has `tail` at its end. -/
def Cursor.Shifted (tail : List Char) (k : Nat) (c c' : Cursor) : Prop :=
  c'.rest = c.rest ++ tail ∧ c'.offset = c.offset + k

/-- What lies in front of a place lies in front of the shifted one as well. -/
theorem Cursor.Shifted.passes {c c' d : Cursor} {cs : List Char} (h : c.Shifted tail k c')
    (hp : c.Passes cs d) : ∃ d', d.Shifted tail k d' ∧ c'.Passes cs d' := by
  refine ⟨⟨d.rest ++ tail, d.offset + k⟩, ⟨rfl, rfl⟩, ?_, ?_⟩
  · rw [h.1, hp.1, List.append_assoc]
  · simp only [h.2, hp.2]
    omega

/-- Characters that do not occur at the start of the tail are also there without the tail. -/
theorem Cursor.Shifted.passes_back {c c' d' : Cursor} {cs : List Char} (h : c.Shifted tail k c')
    (hp : c'.Passes cs d') (hcs : ∀ a ∈ tail.head?, a ∉ cs) :
    ∃ d, d.Shifted tail k d' ∧ c.Passes cs d := by
  have hrest : c.rest ++ tail = cs ++ d'.rest := h.1.symm.trans hp.1
  -- either the characters reach into the tail, or they end before it
  rcases List.append_eq_append_iff.1 hrest with ⟨more, rfl, ht⟩ | ⟨more, hc, hd⟩
  · cases more with
    | nil =>
        refine ⟨c.after c.rest [], ⟨by simpa [Cursor.after] using ht.symm, ?_⟩, ?_⟩
        · simp only [hp.2, h.2, Cursor.after, List.append_nil]
          omega
        · rw [List.append_nil]
          exact .after c (by simp)
    | cons a more => exact absurd (by simp) (hcs a (by simp [ht]))
  · refine ⟨c.after cs more, ⟨hd, ?_⟩, .after c hc⟩
    simp only [hp.2, h.2, Cursor.after]
    omega

/-- What the first rule does in a place the second does in a shifted place, with `f` applied to the
value. -/
structure Mirrors (tail : List Char) (k : Nat) (f : α → β) (rule : Rule α) (rule' : Rule β) :
    Prop where
  matched : ∀ c c' a d, c.Shifted tail k c' → rule.Matches c a d →
    ∃ d', d.Shifted tail k d' ∧ rule'.Matches c' (f a) d'
  failed : ∀ c c', c.Shifted tail k c' → rule.Fails c → rule'.Fails c'

/-- What comes next satisfies a condition on both sides or on neither, provided that the tail behind
the shorter text begins with a character that satisfies it. -/
theorem Cursor.Shifted.head {c c' : Cursor} {condition : Char → Bool} (h : c.Shifted tail k c')
    (htail : ∀ b ∈ tail.head?, condition b = true) :
    (∀ b ∈ c'.rest.head?, condition b = true) ↔ ∀ b ∈ c.rest.head?, condition b = true := by
  rw [h.1]
  cases c.rest with
  | nil => simpa using htail
  | cons a rest => simp

/-- A rule that matches the spellings of its values, up to a character that continues none, does so
in every place where the tail does not continue them either. -/
theorem Mirrors.of_spelled (spelled : Nat → List Char → α → Prop) (stop : Char → Bool) {f : α → α}
    {rule : Rule α}
    (hrule : ∀ c a d, rule.Matches c a d ↔
      ∃ cs, c.Passes cs d ∧ spelled c.offset cs a ∧ ∀ b ∈ d.rest.head?, stop b = true)
    (hdecides : rule.Decides)
    (hshift : ∀ o cs a, spelled o cs a → spelled (o + k) cs (f a))
    (hback : ∀ o cs a, spelled (o + k) cs a → ∃ a', spelled o cs a')
    (htail : ∀ b ∈ tail.head?, stop b = true ∧ ∀ o cs a, spelled o cs a → b ∉ cs) :
    Mirrors tail k f rule rule where
  matched c c' a d hc hm := by
    obtain ⟨cs, hp, hs, hstop⟩ := (hrule c a d).1 hm
    obtain ⟨d', hd, hp'⟩ := hc.passes hp
    refine ⟨d', hd, (hrule c' (f a) d').2 ⟨cs, hp', ?_, ?_⟩⟩
    · rw [hc.2]
      exact hshift _ _ _ hs
    · exact (hd.head fun b hb => (htail b hb).1).2 hstop
  failed c c' hc hf := by
    -- a match in the new place would have been one in the old place
    apply hdecides.fails_of_not_matches
    intro a d' hm
    obtain ⟨cs, hp', hs, hstop⟩ := (hrule c' a d').1 hm
    obtain ⟨d, hd, hp⟩ := hc.passes_back hp' fun b hb => (htail b hb).2 _ _ _ hs
    rw [hc.2] at hs
    obtain ⟨a', hs⟩ := hback _ _ _ hs
    have hm' : rule.Matches c a' d :=
      (hrule c a' d).2 ⟨cs, hp, hs, (hd.head fun b hb => (htail b hb).1).1 hstop⟩
    exact hm'.not_fails hf

theorem Mirrors.pure {f : α → β} (a : α) : Mirrors tail k f (Pure.pure a) (Pure.pure (f a)) where
  matched c c' b d h hm := by
    obtain ⟨rfl, rfl⟩ := matches_pure.1 hm
    exact ⟨c', h, matches_pure.2 ⟨rfl, rfl⟩⟩
  failed c c' _ hf := absurd hf fails_pure

/-- Sequences of rules that mirror each other mirror each other. -/
theorem Mirrors.bind {γ δ : Type} {f : α → β} {g : γ → δ} {rule : Rule α} {rule' : Rule β}
    {next : α → Rule γ} {next' : β → Rule δ} (h : Mirrors tail k f rule rule')
    (hn : ∀ a, Mirrors tail k g (next a) (next' (f a))) :
    Mirrors tail k g (rule >>= next) (rule' >>= next') where
  matched c c' b e hc hm := by
    obtain ⟨a, d, hr, hm⟩ := matches_bind.1 hm
    obtain ⟨d', hd, hr'⟩ := h.matched c c' a d hc hr
    obtain ⟨e', he, hm'⟩ := (hn a).matched d d' b e hd hm
    exact ⟨e', he, matches_bind.2 ⟨f a, d', hr', hm'⟩⟩
  failed c c' hc hf := by
    rcases fails_bind.1 hf with hf | ⟨a, d, hr, hf⟩
    · exact fails_bind.2 (.inl (h.failed c c' hc hf))
    · obtain ⟨d', hd, hr'⟩ := h.matched c c' a d hc hr
      exact fails_bind.2 (.inr ⟨f a, d', hr', (hn a).failed d d' hd hf⟩)

/-- So do alternatives: the first ones fail on both sides or on neither. -/
theorem Mirrors.orElse {f : α → β} {rule other : Rule α} {rule' other' : Rule β}
    (h : Mirrors tail k f rule rule') (ho : Mirrors tail k f other other') :
    Mirrors tail k f (rule <|> other) (rule' <|> other') where
  matched c c' a d hc hm := by
    rcases matches_orElse.1 hm with hm | ⟨hf, hm⟩
    · obtain ⟨d', hd, hm'⟩ := h.matched c c' a d hc hm
      exact ⟨d', hd, matches_orElse.2 (.inl hm')⟩
    · obtain ⟨d', hd, hm'⟩ := ho.matched c c' a d hc hm
      exact ⟨d', hd, matches_orElse.2 (.inr ⟨h.failed c c' hc hf, hm'⟩)⟩
  failed c c' hc hf := by
    obtain ⟨hr, hf⟩ := fails_orElse.1 hf
    exact fails_orElse.2 ⟨h.failed c c' hc hr, ho.failed c c' hc hf⟩

theorem Mirrors.map {γ δ : Type} {f : α → β} {g : γ → δ} {rule : Rule α} {rule' : Rule β}
    {into : α → γ} {into' : β → δ} (h : Mirrors tail k f rule rule')
    (hi : ∀ a, g (into a) = into' (f a)) :
    Mirrors tail k g (into <$> rule) (into' <$> rule') where
  matched c c' b d hc hm := by
    obtain ⟨a, hr, rfl⟩ := matches_map.1 hm
    obtain ⟨d', hd, hr'⟩ := h.matched c c' a d hc hr
    exact ⟨d', hd, matches_map.2 ⟨f a, hr', hi a⟩⟩
  failed c c' hc hf := fails_map.2 (h.failed c c' hc (fails_map.1 hf))

/-- Matches in a row are mirrored one by one. -/
theorem Mirrors.repeats {f : α → β} {rule : Rule α} {rule' : Rule β}
    (h : Mirrors tail k f rule rule') {c c' d : Cursor} {as : List α} (hc : c.Shifted tail k c')
    (hr : Repeats rule c as d) :
    ∃ d', d.Shifted tail k d' ∧ Repeats rule' c' (as.map f) d' := by
  induction hr generalizing c' with
  | done c => exact ⟨c', hc, .done c'⟩
  | step hm _ ih =>
      obtain ⟨d', hd, hm'⟩ := h.matched _ _ _ _ hc hm
      obtain ⟨e', he, hr'⟩ := ih hd
      exact ⟨e', he, .step hm' hr'⟩

end Railroad.Notation
