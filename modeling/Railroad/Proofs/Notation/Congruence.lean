import Railroad.Notation.Parser
import Railroad.Proofs.Notation.Layout
set_option autoImplicit false

/-!
# Relations that the rules of the notation keep

The rules from items to documents are made from lexemes and from the rule for the groups by three
means only: one rule after another, alternatives, and a rule that depends on the text that is left.
A relation between rules that these means keep, and in which every rule stands to itself that has
nothing to do with groups (`Rule.Flat`), is therefore kept by everything that is made of items
(`Rule.Congruence`). What an attempt at combined rules consists of is said once for each combination
and each way in which its first attempt can end (`Rule.bind_of_matches`, `Rule.orElse_of_fails` and
so on).
-/

namespace Railroad.Notation

namespace Rule

variable {α β : Type} {rule other : Rule α} {c : Cursor}

/-! ## Attempts at combined rules -/

/-- An attempt matches, fails or is refused. -/
theorem attempt_cases (rule : Rule α) (c : Cursor) :
    (∃ a d, rule.Matches c a d) ∨ rule.Fails c ∨ ∃ offset, (rule c).outcome = .tooDeep offset := by
  unfold Matches Fails
  cases (rule c).outcome with
  | matched a d => exact .inl ⟨a, d, rfl⟩
  | mismatch => exact .inr (.inl rfl)
  | tooDeep offset => exact .inr (.inr ⟨offset, rfl⟩)

/-- Where the first rule has matched, the second is attempted behind it. -/
theorem bind_of_matches {next : α → Rule β} {a : α} {d : Cursor} (h : rule.Matches c a d) :
    (rule >>= next) c = ⟨(next a d).outcome, (rule c).events ++ (next a d).events⟩ := by
  show Rule.bind rule next c = _
  rcases hr : rule c with ⟨outcome, events⟩
  obtain rfl : outcome = .matched a d := by rwa [Matches, hr] at h
  simp only [Rule.bind, hr]

/-- Where the first rule has failed, the second is not attempted. -/
theorem bind_of_fails {next : α → Rule β} (h : rule.Fails c) :
    (rule >>= next) c = ⟨.mismatch, (rule c).events⟩ := by
  show Rule.bind rule next c = _
  rcases hr : rule c with ⟨outcome, events⟩
  obtain rfl : outcome = .mismatch := by rwa [Fails, hr] at h
  simp only [Rule.bind, hr]

/-- Where the first rule has refused the text, the second is not attempted either. -/
theorem bind_of_tooDeep {next : α → Rule β} {offset : Nat}
    (h : (rule c).outcome = .tooDeep offset) :
    (rule >>= next) c = ⟨.tooDeep offset, (rule c).events⟩ := by
  show Rule.bind rule next c = _
  rcases hr : rule c with ⟨outcome, events⟩
  obtain rfl : outcome = .tooDeep offset := by rwa [hr] at h
  simp only [Rule.bind, hr]

/-- Where the first alternative has failed, the second is attempted. -/
theorem orElse_of_fails (h : rule.Fails c) :
    (rule <|> other) c = ⟨(other c).outcome, (rule c).events ++ (other c).events⟩ := by
  show Rule.orElse rule other c = _
  rcases hr : rule c with ⟨outcome, events⟩
  obtain rfl : outcome = .mismatch := by rwa [Fails, hr] at h
  simp only [Rule.orElse, hr]

/-- The second alternative is attempted only where the first has failed: a match is kept, and a
refused text is refused. -/
theorem orElse_of_not_fails (h : ¬ rule.Fails c) : (rule <|> other) c = rule c := by
  show Rule.orElse rule other c = _
  rcases hr : rule c with ⟨outcome, events⟩
  cases outcome with
  | mismatch => exact absurd (by rw [Fails, hr]) h
  | matched a d => simp only [Rule.orElse, hr]
  | tooDeep offset => simp only [Rule.orElse, hr]

/-- What happens in the first of two rules happens first. -/
theorem events_bind (rule : Rule α) (next : α → Rule β) (c : Cursor) :
    ∃ more, ((rule >>= next) c).events = (rule c).events ++ more := by
  rcases attempt_cases rule c with ⟨a, d, hm⟩ | hf | ⟨offset, ht⟩
  · exact ⟨_, by rw [bind_of_matches hm]⟩
  · exact ⟨[], by rw [bind_of_fails hf, List.append_nil]⟩
  · exact ⟨[], by rw [bind_of_tooDeep ht, List.append_nil]⟩

/-- What happens in the first of two alternatives happens first. -/
theorem events_orElse (rule other : Rule α) (c : Cursor) :
    ∃ more, ((rule <|> other) c).events = (rule c).events ++ more := by
  by_cases hf : rule.Fails c
  · exact ⟨_, by rw [orElse_of_fails hf]⟩
  · exact ⟨[], by rw [orElse_of_not_fails hf, List.append_nil]⟩

/-- Two rules one after the other take what the first takes and behind it what the second takes. -/
theorem ends_bind {next : α → Rule β}
    (h : rule.Fails c ∨ ∃ a d taken, rule.Matches c a d ∧ c.Passes taken d)
    (k : ∀ a d taken, rule.Matches c a d → c.Passes taken d →
      (next a).Fails d ∨ ∃ b e more, (next a).Matches d b e ∧ d.Passes more e) :
    (rule >>= next).Fails c ∨ ∃ b e taken, (rule >>= next).Matches c b e ∧ c.Passes taken e := by
  rcases h with hf | ⟨a, d, taken, hm, hp⟩
  · exact .inl (fails_bind.2 (.inl hf))
  · rcases k a d taken hm hp with hf | ⟨b, e, more, hn, hq⟩
    · exact .inl (fails_bind.2 (.inr ⟨a, d, hm, hf⟩))
    · exact .inr ⟨b, e, taken ++ more, matches_bind.2 ⟨a, d, hm, hn⟩, hp.trans hq⟩

/-- Alternatives take what one of them takes. -/
theorem ends_orElse (h : rule.Fails c ∨ ∃ a d taken, rule.Matches c a d ∧ c.Passes taken d)
    (k : other.Fails c ∨ ∃ a d taken, other.Matches c a d ∧ c.Passes taken d) :
    (rule <|> other).Fails c ∨ ∃ a d taken, (rule <|> other).Matches c a d ∧ c.Passes taken d := by
  rcases h with hf | ⟨a, d, taken, hm, hp⟩
  · rcases k with kf | ⟨a, d, taken, hm, hp⟩
    · exact .inl (fails_orElse.2 ⟨hf, kf⟩)
    · exact .inr ⟨a, d, taken, matches_orElse.2 (.inr ⟨hf, hm⟩), hp⟩
  · exact .inr ⟨a, d, taken, matches_orElse.2 (.inl hm), hp⟩

/-- Changing the value of a rule is one of the ways to put rules one after another. -/
theorem map_eq_bind (f : α → β) (rule : Rule α) : f <$> rule = rule >>= fun a => pure (f a) := by
  funext c
  show Rule.map f rule c = Rule.bind rule (fun a => Rule.pure (f a)) c
  rcases h : rule c with ⟨outcome, events⟩
  cases outcome <;> simp [Rule.map, Rule.bind, Rule.pure, h]

/-! ## Rules that have nothing to do with groups -/

/-- The rule opens no group and refuses no text. All that happens on its way are failures, and what
it takes lies between the places where it begins and ends. -/
structure Flat (rule : Rule α) : Prop where
  ends : ∀ c, rule.Fails c ∨ ∃ a d taken, rule.Matches c a d ∧ c.Passes taken d
  failed : ∀ c, ∀ e ∈ (rule c).events, ∃ offset expected, e = .failed offset expected

namespace Flat

/-- A rule on which no events are recorded. -/
theorem silent (hends : ∀ c, rule.Fails c ∨ ∃ a d taken, rule.Matches c a d ∧ c.Passes taken d)
    (hevents : ∀ c, (rule c).events = []) : rule.Flat where
  ends := hends
  failed c e he := by
    rw [hevents] at he
    cases he

/-- Giving a value takes nothing and can miss nothing. -/
theorem pure (a : α) : (Pure.pure a : Rule α).Flat :=
  silent (fun c => .inr ⟨a, c, [], rfl, .refl c⟩) fun _ => rfl

theorem here : Rule.here.Flat :=
  silent (fun c => .inr ⟨c.offset, c, [], rfl, .refl c⟩) fun _ => rfl

theorem mismatch : (Rule.mismatch : Rule α).Flat := silent (fun _ => .inl rfl) fun _ => rfl

/-- Rules that have nothing to do with groups can be put one after another. -/
theorem bind {next : α → Rule β} (h : rule.Flat) (k : ∀ a, (next a).Flat) :
    (rule >>= next).Flat where
  ends c := ends_bind (h.ends c) fun a d _ _ _ => (k a).ends d
  failed c e he := by
    rcases h.ends c with hf | ⟨a, d, -, hm, -⟩
    · rw [bind_of_fails hf] at he
      exact h.failed c e he
    · rw [bind_of_matches hm] at he
      rcases List.mem_append.1 he with he | he
      · exact h.failed c e he
      · exact (k a).failed d e he

/-- A value can be changed. -/
theorem map (f : α → β) (h : rule.Flat) : (f <$> rule).Flat := by
  rw [map_eq_bind]
  exact h.bind fun a => .pure (f a)

/-- Rules that have nothing to do with groups can be alternatives. -/
theorem orElse (h : rule.Flat) (k : other.Flat) : (rule <|> other).Flat where
  ends c := ends_orElse (h.ends c) (k.ends c)
  failed c e he := by
    by_cases hf : rule.Fails c
    · rw [orElse_of_fails hf] at he
      rcases List.mem_append.1 he with he | he
      · exact h.failed c e he
      · exact k.failed c e he
    · rw [orElse_of_not_fails hf] at he
      exact h.failed c e he

theorem perhaps (h : rule.Flat) : (perhaps rule).Flat := (h.map some).orElse (.pure none)

/-- A repetition is made of rules one after another and alternatives, by induction on its budget. -/
theorem many (h : rule.Flat) : (many rule).Flat := by
  have key : ∀ budget, (manyWithin rule budget).Flat := by
    intro budget
    induction budget with
    | nil => exact .orElse (.bind h fun _ => .mismatch) (.pure [])
    | cons _ budget ih => exact .orElse (.bind h fun a => ih.map _) (.pure [])
  exact ⟨fun c => (key c.rest).ends c, fun c => (key c.rest).failed c⟩

/-- A failure is the one event that happens where something is missed. -/
theorem fail (expected : Expected) : (Rule.fail expected : Rule α).Flat where
  ends _ := .inl rfl
  failed c _ he := ⟨c.offset, expected, List.mem_singleton.1 he⟩

/-- What is missed on the way is left out, and what was expected is recorded in its place. -/
theorem expecting (expected : Expected) (h : rule.Flat) : (expecting expected rule).Flat where
  ends c := by simpa using h.ends c
  failed c e he := by
    rcases hr : rule c with ⟨outcome, events⟩
    cases outcome with
    | mismatch =>
        simp only [Rule.expecting, hr] at he
        exact ⟨c.offset, expected, List.mem_singleton.1 he⟩
    | matched a d =>
        simp only [Rule.expecting, hr] at he
        exact h.failed c e (by rwa [hr])
    | tooDeep offset =>
        simp only [Rule.expecting, hr] at he
        exact h.failed c e (by rwa [hr])

/-- What is missed while looking ahead is recorded, although nothing is taken. -/
theorem lookahead (h : rule.Flat) : (lookahead rule).Flat where
  ends c := by
    rcases h.ends c with hf | ⟨a, d, xs, hm, -⟩
    · exact .inl (fails_lookahead.2 hf)
    · exact .inr ⟨(), c, [], matches_lookahead.2 ⟨⟨a, d, hm⟩, rfl⟩, .refl c⟩
  failed c e he := by
    refine h.failed c e ?_
    rcases hr : rule c with ⟨outcome, events⟩
    cases outcome <;> simpa only [Rule.lookahead, hr] using he

theorem atEnd : atEnd.Flat := by
  refine silent (fun c => ?_) fun c => ?_
  · by_cases h : c.rest = []
    · exact .inr ⟨(), c, [], matches_atEnd.2 ⟨h, rfl⟩, .refl c⟩
    · exact .inl (fails_atEnd.2 h)
  · unfold Rule.atEnd
    split <;> rfl

/-- A single character takes no event to miss. -/
theorem charFor (value? : Char → Option α) : (charFor value?).Flat := by
  refine silent (fun c => ?_) fun c => ?_
  · by_cases h : (Rule.charFor value?).Fails c
    · exact .inl h
    · -- there is a character, and it has a value
      rw [fails_charFor] at h
      push Not at h
      obtain ⟨a, ha, hvalue⟩ := h
      obtain ⟨v, hv⟩ := Option.ne_none_iff_exists'.1 hvalue
      obtain ⟨rest, hrest⟩ : ∃ rest, c.rest = [a] ++ rest := by
        cases hc : c.rest with
        | nil => simp [hc] at ha
        | cons b rest => exact ⟨rest, by simpa [hc] using ha⟩
      exact .inr ⟨v, _, [a], matches_charFor.2 ⟨a, hv, .after c hrest⟩, .after c hrest⟩
  -- whether or not there is a character with a value, nothing is recorded
  · unfold Rule.charFor
    split
    · rfl
    · split <;> rfl

theorem charWhere (condition : Char → Bool) : (charWhere condition).Flat := charFor _

theorem charsWhile (condition : Char → Bool) : (charsWhile condition).Flat :=
  silent (fun c => .inr ⟨_, _, _, rfl, .after c (List.takeWhile_append_dropWhile ..).symm⟩)
    fun _ => rfl

theorem someCharsWhile (condition : Char → Bool) : (someCharsWhile condition).Flat :=
  .bind (charWhere _) fun _ => .bind (charsWhile _) fun _ => .pure _

theorem charsBefore (mark : List Char) : (charsBefore mark).Flat :=
  silent (fun c => .inr ⟨_, _, _, rfl, .after c (append_of_splitBefore rfl)⟩) fun _ => rfl

/-- A fixed text records a failure if it is missed, and takes all of its characters if it is not. -/
theorem literal (text : String) : (literal text).Flat where
  ends c := by
    rcases Decides.literal text c with hf | ⟨u, d, hm⟩
    · exact .inl hf
    · exact .inr ⟨u, d, _, hm, matches_literal.1 hm⟩
  failed c e he := by
    unfold Rule.literal at he
    split at he
    · cases he
    · exact ⟨c.offset, .literal text, List.mem_singleton.1 he⟩

end Flat

end Rule

open Rule

/-! ## Lexemes -/

/-- Comments are fixed marks with any text between them. -/
theorem flat_comment : comment.Flat :=
  .bind (.literal _) fun _ => .bind (.charsBefore _) fun _ => .literal _

theorem flat_gap (breaks : Bool) : (gap breaks).Flat :=
  .orElse (.bind (.lookahead (.charWhere _)) fun _ => flat_comment)
    (.bind (.charWhere _) fun _ => .pure _)

theorem flat_skip (breaks : Bool) : (skip breaks).Flat :=
  .bind (.many (flat_gap breaks)) fun _ => .pure _

theorem flat_space : space.Flat := .bind (flat_gap false) fun _ => flat_skip false

theorem flat_name : name.Flat :=
  .bind .here fun _ => .bind
    (.expecting _ (.bind (.charWhere _) fun _ => .bind (.charsWhile _) fun _ => .pure _)) fun _ =>
      .bind .here fun _ => .pure _

theorem flat_stringLiteral : stringLiteral.Flat :=
  .bind .here fun _ => .bind (.expecting _ (.charWhere _)) fun _ => .bind (.charsWhile _) fun _ =>
    .bind (.literal _) fun _ => .bind .here fun _ => .pure _

theorem flat_charCode : charCode.Flat :=
  .bind .here fun _ => .bind (.expecting _ (.bind (.literal _) fun _ => .someCharsWhile _)) fun _ =>
    .bind .here fun _ => .pure _

theorem flat_classChar : classChar.Flat := .expecting _ (.charWhere _)

theorem flat_dash : dash.Flat := .bind (.charWhere _) fun _ => .pure _

/-- Ranges of codes, ranges of characters, codes and characters have nothing to do with groups. -/
theorem flat_classItem : classItem.Flat :=
  .orElse (.bind flat_charCode fun _ => .bind flat_dash fun _ =>
      .bind flat_charCode fun _ => .pure _)
    (.orElse (.bind flat_classChar fun _ => .bind flat_dash fun _ =>
        .bind flat_classChar fun _ => .pure _)
      (.orElse (.map _ flat_charCode) (.map _ flat_classChar)))

/-- A character class without items is missed as a whole, and there are no groups in one with
items. -/
theorem flat_charClass : charClass.Flat := by
  refine .bind .here fun _ => .bind (.literal _) fun _ => .bind (.perhaps (.charWhere _)) fun _ =>
    .bind (.many flat_classItem) fun items => ?_
  cases items with
  | nil => exact .mismatch
  | cons i items => exact .bind (.literal _) fun _ => .bind .here fun _ => .pure _

theorem flat_url : url.Flat :=
  .bind (.expecting _ (.bind (.someCharsWhile _) fun _ => .bind (.literal _) fun _ =>
    .bind (.someCharsWhile _) fun _ => .pure _)) fun _ => .pure _

/-- There are no groups in a link, so that a definition that is not a link can be read from its
start again. -/
theorem flat_link : link.Flat :=
  .bind .here fun _ => .bind (.literal _) fun _ => .bind flat_url fun _ =>
    .bind (.perhaps (.bind (.charWhere _) fun _ => flat_name)) fun _ => .bind (.literal _) fun _ =>
      .bind .here fun _ => .pure _

theorem flat_lineIsOver : lineIsOver.Flat :=
  .lookahead (.bind (flat_skip false) fun _ =>
    .orElse .atEnd (.bind (.charWhere _) fun _ => .pure _))

theorem flat_separator : separator.Flat :=
  .bind (flat_skip false) fun _ => .bind (.expecting _ (.charWhere _)) fun _ => flat_skip true

/-! ## From groups to documents -/

/-- The groups of items in which groups are nested at most `depth` deep. -/
def groupWithin : Nat → Rule Choice
  | 0 => refusedGroup
  | depth + 1 => group (choice (item depth))

/-- At every depth an item is read in the same way, except for the groups in it. -/
theorem item_eq (depth : Nat) : item depth = itemOf (primary (groupWithin depth)) := by
  cases depth <;> rfl

/-- What a group reads behind its parenthesis. -/
def groupRest (choice : Rule Choice) : Rule Choice := do
  skip false
  let within ← choice
  skip false
  literal ")"
  return within

theorem here_bind {β : Type} (next : Nat → Rule β) (c : Cursor) :
    (here >>= next) c = next c.offset c := rfl

/-- Where a fixed text comes next, what follows is read behind it. -/
theorem literal_bind_of_matches {β : Type} {text : String} {next : Unit → Rule β} {c : Cursor}
    {rest : List Char} (h : c.rest = text.toList ++ rest) :
    (literal text >>= next) c = next () (c.after text.toList rest) := by
  have hsome : text.toList.isPrefixOf? c.rest = some rest :=
    List.isPrefixOf?_eq_some_iff_append_eq.2 h.symm
  show Rule.bind (literal text) next c = _
  simp only [Rule.bind, literal, hsome]
  rfl

/-- Where a fixed text does not come next, it is all that is expected. -/
theorem literal_bind_of_fails {β : Type} {text : String} {next : Unit → Rule β} {c : Cursor}
    (h : ¬ text.toList <+: c.rest) :
    (literal text >>= next) c = fail (.literal text) c := by
  have hnone : text.toList.isPrefixOf? c.rest = none := by
    rw [Option.eq_none_iff_forall_ne_some]
    intro rest hrest
    exact h ⟨rest, List.isPrefixOf?_eq_some_iff_append_eq.1 hrest⟩
  show Rule.bind (literal text) next c = _
  simp only [Rule.bind, literal, hnone, fail]

/-- Where a group begins, everything but the parenthesis is read inside it. -/
theorem group_of_paren {choice : Rule Choice} {c : Cursor} {rest : List Char}
    (h : c.rest = ['('] ++ rest) :
    group choice c = inside c.offset (groupRest choice) (c.after ['('] rest) := by
  rw [group, here_bind]
  exact literal_bind_of_matches h

/-- Where a group begins that is too deep, the text is refused at once, with the offset of the
parenthesis. -/
theorem refusedGroup_of_paren {c : Cursor} {rest : List Char} (h : c.rest = ['('] ++ rest) :
    refusedGroup c = ⟨.tooDeep c.offset, []⟩ := by
  rw [refusedGroup, here_bind]
  exact literal_bind_of_matches h

/-- Where no group begins, the parenthesis is missed, whether or not a group would be refused. -/
theorem group_of_not_paren {choice : Rule Choice} {c : Cursor} (h : ¬ ['('] <+: c.rest) :
    group choice c = fail (.literal "(") c := by
  rw [group, here_bind]
  exact literal_bind_of_fails h

/-- A group that would be too deep is missed like any other if there is none. -/
theorem refusedGroup_of_not_paren {c : Cursor} (h : ¬ ['('] <+: c.rest) :
    refusedGroup c = fail (.literal "(") c := by
  rw [refusedGroup, here_bind]
  exact literal_bind_of_fails h

/-! ## Relations -/

/-- A relation between rules that is kept by the means of which rules are made, and in which the
rules that have nothing to do with groups stand to themselves. -/
structure Rule.Congruence (R : (α : Type) → Rule α → Rule α → Prop) : Prop where
  flat : ∀ {α : Type} {rule : Rule α}, rule.Flat → R α rule rule
  bind : ∀ {α β : Type} {rule rule' : Rule α} {next next' : α → Rule β},
    R α rule rule' → (∀ a, R β (next a) (next' a)) → R β (rule >>= next) (rule' >>= next')
  orElse : ∀ {α : Type} {rule rule' other other' : Rule α},
    R α rule rule' → R α other other' → R α (rule <|> other) (rule' <|> other')
  point : ∀ {α : Type} {rule rule' : List Char → Rule α},
    (∀ cs, R α (rule cs) (rule' cs)) → R α (fun c => rule c.rest c) fun c => rule' c.rest c

namespace Rule.Congruence

variable {R : (α : Type) → Rule α → Rule α → Prop} (h : Congruence R) {α β : Type}
  {rule rule' : Rule α}

include h

/-- A related rule stays so if the value is changed. -/
theorem map (f : α → β) (hr : R α rule rule') : R β (f <$> rule) (f <$> rule') := by
  rw [map_eq_bind, map_eq_bind]
  exact h.bind hr fun a => h.flat (.pure (f a))

/-- Repetitions of related rules are related. They depend on the text that is left as a budget, and
for each budget they are made of sequences and alternatives. -/
theorem many (hr : R α rule rule') : R (List α) (many rule) (many rule') := by
  -- the budget is the text that is left, so that the place decides which one it is
  refine h.point fun budget => ?_
  induction budget with
  | nil => exact h.orElse (h.bind hr fun _ => h.flat .mismatch) (h.flat (.pure []))
  | cons _ budget ih => exact h.orElse (h.bind hr fun a => h.map _ ih) (h.flat (.pure []))

variable {g g' : Rule Choice} {i i' : Rule Item}

/-- Groups of related rules are related behind their parentheses. -/
theorem groupRest (hr : R _ g g') : R _ (groupRest g) (groupRest g') :=
  h.bind (h.flat (flat_skip false)) fun _ => h.bind hr fun _ =>
    h.flat (.bind (flat_skip false) fun _ => .bind (.literal _) fun _ => .pure _)

/-- Items are related if their groups are: nothing else in them depends on the depth. -/
theorem item (hr : R _ g g') : R _ (itemOf (primary g)) (itemOf (primary g')) := by
  have hprimary : R _ (primary g) (primary g') :=
    h.orElse (h.flat (flat_name.map _)) (h.orElse (h.flat (flat_stringLiteral.map _))
      (h.orElse (h.flat (flat_charCode.map _)) (h.orElse (h.flat (flat_charClass.map _))
        (h.map _ hr))))
  exact h.bind (h.flat .here) fun _ => h.bind hprimary fun _ =>
    h.flat (.bind (.perhaps (.charFor _)) fun _ => .bind .here fun _ => .pure _)

/-- Sequences and differences of related items are related. -/
theorem branch (hr : R _ i i') : R _ (branch i) (branch i') := by
  have hdifference : ∀ start left,
      R _ (differenceFrom i start left) (differenceFrom i' start left) := fun _ _ =>
    h.bind (h.flat (flat_skip false)) fun _ => h.bind (h.flat (.literal _)) fun _ =>
      h.bind (h.flat (flat_skip false)) fun _ => h.bind hr fun _ =>
        h.flat (.bind .here fun _ => .pure _)
  have hsequence : ∀ start first,
      R _ (sequenceFrom i start first) (sequenceFrom i' start first) := fun _ _ =>
    h.bind (h.many (h.bind (h.flat flat_space) fun _ => hr)) fun _ =>
      h.flat (.bind .here fun _ => .pure _)
  exact h.bind (h.flat .here) fun start => h.bind hr fun first =>
    h.orElse (hdifference start first) (hsequence start first)

/-- Choices of branches of related items are related. -/
theorem choice (hr : R _ i i') : R _ (Notation.choice i) (Notation.choice i') :=
  h.bind (h.flat .here) fun _ => h.bind (h.branch hr) fun _ =>
    h.bind (h.many (h.bind (h.flat (flat_skip false)) fun _ => h.bind (h.flat (.literal _)) fun _ =>
      h.bind (h.flat (flat_skip false)) fun _ => h.branch hr)) fun _ =>
        h.flat (.bind .here fun _ => .pure _)

/-- Productions with definitions of related items are related, since links and names are the same on
both sides. -/
theorem production (hr : R _ i i') : R _ (production i) (production i') := by
  have hdefinition : R _ (definition i) (definition i') :=
    h.orElse (h.flat (.bind flat_link fun _ => .bind flat_lineIsOver fun _ => .pure _))
      (h.map _ (h.choice hr))
  exact h.bind (h.flat (flat_skip false)) fun _ => h.bind (h.flat .here) fun _ =>
    h.bind (h.flat flat_name) fun _ => h.bind (h.flat (flat_skip false)) fun _ =>
      h.bind (h.flat (.literal _)) fun _ => h.bind (h.flat (flat_skip false)) fun _ =>
        h.bind hdefinition fun _ => h.flat (.bind .here fun _ => .pure _)

/-- Texts of related items are related as a whole. -/
theorem document (hr : R _ i i') : R _ (document i) (document i') :=
  h.bind (h.flat (flat_skip true)) fun _ => h.bind (h.production hr) fun _ =>
    h.bind (h.many (h.bind (h.flat flat_separator) fun _ => h.production hr)) fun _ =>
      h.flat (.bind (flat_skip true) fun _ => .bind (.expecting _ .atEnd) fun _ => .pure _)

end Rule.Congruence

end Railroad.Notation
