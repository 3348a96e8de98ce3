import Mathlib.Data.List.Infix
import Mathlib.Data.List.TakeWhile
import Railroad.Notation.Rule
set_option autoImplicit false

/-!
# How attempts end

What a rule does at a place is said by two relations: it matches there, with a value and the place
where it ends (`Rule.Matches`), or it does not match (`Rule.Fails`). For every way to combine rules,
one lemma says when the combination matches and one when it fails, so that statements about a rule
of the notation never look into an attempt. A repetition (`Rule.many`) of a rule that takes at least
one character matches exactly what repeated matches take until the rule fails (`Rule.matches_many`).
-/

namespace Railroad.Notation

/-- The characters `taken` lie between two places of a text. -/
def Cursor.Passes (c : Cursor) (taken : List Char) (d : Cursor) : Prop :=
  c.rest = taken ++ d.rest ∧ d.offset = c.offset + Text.byteLength taken

namespace Cursor.Passes

variable {c d e : Cursor} {xs ys : List Char}

/-- Nothing lies between a place and itself. -/
theorem refl (c : Cursor) : c.Passes [] c := ⟨rfl, rfl⟩

/-- What lies between three places is put together at the one in the middle. -/
theorem trans (h : c.Passes xs d) (k : d.Passes ys e) : c.Passes (xs ++ ys) e := by
  obtain ⟨hr, ho⟩ := h
  obtain ⟨kr, ko⟩ := k
  refine ⟨?_, ?_⟩
  · rw [hr, kr, List.append_assoc]
  · rw [ko, ho, Text.byteLength_append, Nat.add_assoc]

/-- Characters that lie between two places can be cut in two. -/
theorem split (h : c.Passes (xs ++ ys) e) : ∃ d, c.Passes xs d ∧ d.Passes ys e := by
  obtain ⟨hr, ho⟩ := h
  refine ⟨c.after xs (ys ++ e.rest), ⟨?_, rfl⟩, ⟨rfl, ?_⟩⟩
  · rw [hr, List.append_assoc]
    rfl
  · rw [ho, Text.byteLength_append, ← Nat.add_assoc]
    rfl

/-- What lies between two places begins with its first character. -/
theorem cons {a : Char} (h : c.Passes (a :: xs) e) : ∃ d, c.Passes [a] d ∧ d.Passes xs e :=
  split h

/-- The place behind given characters is unique. -/
theorem unique (h : c.Passes xs d) (k : c.Passes xs e) : d = e := by
  rcases d with ⟨drest, doffset⟩
  rcases e with ⟨erest, eoffset⟩
  obtain ⟨hr, rfl⟩ := h
  obtain ⟨kr, rfl⟩ := k
  obtain rfl : drest = erest := List.append_cancel_left (hr.symm.trans kr)
  rfl

/-- What lies between two places is unique. -/
theorem inj (h : c.Passes xs d) (k : c.Passes ys d) : xs = ys :=
  List.append_cancel_right (h.1.symm.trans k.1)

/-- The place behind the characters that the text goes on with is reached by passing them. -/
theorem after (c : Cursor) {rest : List Char} (h : c.rest = xs ++ rest) :
    c.Passes xs (c.after xs rest) := ⟨h, rfl⟩

/-- What has been passed is no longer ahead. -/
theorem length (h : c.Passes xs d) : c.rest.length = xs.length + d.rest.length := by
  rw [h.1, List.length_append]

end Cursor.Passes

namespace Rule

variable {α β : Type} {rule other : Rule α} {c d : Cursor}

/-- The rule matches what lies between two places, and yields a value. -/
def Matches (rule : Rule α) (c : Cursor) (a : α) (d : Cursor) : Prop :=
  (rule c).outcome = .matched a d

/-- The rule does not match at a place. -/
def Fails (rule : Rule α) (c : Cursor) : Prop := (rule c).outcome = .mismatch

/-- The rule never refuses a text as a whole. -/
def Decides (rule : Rule α) : Prop := ∀ c, rule.Fails c ∨ ∃ a d, rule.Matches c a d

/-- A rule is a function: at one place it matches in at most one way. -/
theorem Matches.unique {a b : α} {e : Cursor} (h : rule.Matches c a d) (k : rule.Matches c b e) :
    a = b ∧ d = e := by
  have hk : Outcome.matched a d = .matched b e := h.symm.trans k
  simpa using hk

/-- A rule that matches at a place does not fail there. -/
theorem Matches.not_fails {a : α} (h : rule.Matches c a d) : ¬ rule.Fails c := by
  intro k
  have hk : Outcome.matched a d = .mismatch := h.symm.trans k
  cases hk

/-- A rule that never refuses a text fails wherever it does not match. -/
theorem Decides.fails_of_not_matches (h : rule.Decides)
    (k : ∀ a d, ¬ rule.Matches c a d) : rule.Fails c := by
  rcases h c with hf | ⟨a, d, hm⟩
  · exact hf
  · exact absurd hm (k a d)

/-! ## Sequences and alternatives -/

@[simp] theorem matches_pure {a b : α} : (pure a : Rule α).Matches c b d ↔ b = a ∧ d = c := by
  show Outcome.matched a c = .matched b d ↔ _
  rw [Outcome.matched.injEq, eq_comm, eq_comm (a := c)]

@[simp] theorem fails_pure {a : α} : ¬ (pure a : Rule α).Fails c := by
  intro h
  have h' : Outcome.matched a c = .mismatch := h
  cases h'

/-- A sequence matches if the second rule goes on where the first one has matched, with the value
that the first one has given it. -/
@[simp] theorem matches_bind {next : α → Rule β} {b : β} {e : Cursor} :
    (rule >>= next).Matches c b e ↔ ∃ a d, rule.Matches c a d ∧ (next a).Matches d b e := by
  show ((Rule.bind rule next) c).outcome = _ ↔ _
  rcases h : rule c with ⟨outcome, events⟩
  cases outcome with
  | matched a d => simp [Rule.bind, Matches, h, and_assoc]
  | mismatch => simp [Rule.bind, Matches, h]
  | tooDeep offset => simp [Rule.bind, Matches, h]

/-- A sequence fails if its first rule fails, or else if the second fails behind it. -/
@[simp] theorem fails_bind {next : α → Rule β} :
    (rule >>= next).Fails c ↔ rule.Fails c ∨ ∃ a d, rule.Matches c a d ∧ (next a).Fails d := by
  show ((Rule.bind rule next) c).outcome = _ ↔ _
  rcases h : rule c with ⟨outcome, events⟩
  cases outcome with
  | matched a d => simp [Rule.bind, Matches, Fails, h, and_assoc]
  | mismatch => simp [Rule.bind, Matches, Fails, h]
  | tooDeep offset => simp [Rule.bind, Matches, Fails, h]

/-- Changing the value of a rule does not change what it takes. -/
@[simp] theorem matches_map {f : α → β} {b : β} :
    (f <$> rule).Matches c b d ↔ ∃ a, rule.Matches c a d ∧ b = f a := by
  show ((Rule.map f rule) c).outcome = _ ↔ _
  rcases h : rule c with ⟨outcome, events⟩
  cases outcome with
  | matched a e =>
      simp only [Rule.map, Matches, h, Outcome.matched.injEq]
      constructor
      · rintro ⟨rfl, rfl⟩
        exact ⟨a, ⟨rfl, rfl⟩, rfl⟩
      · rintro ⟨_, ⟨rfl, rfl⟩, rfl⟩
        exact ⟨rfl, rfl⟩
  | mismatch => simp [Rule.map, Matches, h]
  | tooDeep offset => simp [Rule.map, Matches, h]

@[simp] theorem fails_map {f : α → β} : (f <$> rule).Fails c ↔ rule.Fails c := by
  show ((Rule.map f rule) c).outcome = _ ↔ _
  rcases h : rule c with ⟨outcome, events⟩
  cases outcome <;> simp [Rule.map, Fails, h]

/-- The second alternative counts only where the first one fails, even if it would match there. -/
@[simp] theorem matches_orElse {a : α} :
    (rule <|> other).Matches c a d ↔ rule.Matches c a d ∨ rule.Fails c ∧ other.Matches c a d := by
  show ((Rule.orElse rule other) c).outcome = _ ↔ _
  rcases h : rule c with ⟨outcome, events⟩
  cases outcome <;> simp [Rule.orElse, Matches, Fails, h]

/-- Alternatives fail where both of them do. -/
@[simp] theorem fails_orElse : (rule <|> other).Fails c ↔ rule.Fails c ∧ other.Fails c := by
  show ((Rule.orElse rule other) c).outcome = _ ↔ _
  rcases h : rule c with ⟨outcome, events⟩
  cases outcome <;> simp [Rule.orElse, Fails, h]

/-- What may be left out is taken if it is there, and nothing is taken if it is not. -/
@[simp] theorem matches_perhaps {v : Option α} :
    (perhaps rule).Matches c v d ↔
      (∃ a, rule.Matches c a d ∧ v = some a) ∨ rule.Fails c ∧ v = none ∧ d = c := by
  simp [perhaps]

/-- What may be left out cannot be missed. -/
@[simp] theorem fails_perhaps : ¬ (perhaps rule).Fails c := by
  simp [perhaps]

/-! ## Single rules -/

@[simp] theorem matches_here {n : Nat} : here.Matches c n d ↔ n = c.offset ∧ d = c := by
  show Outcome.matched c.offset c = .matched n d ↔ _
  rw [Outcome.matched.injEq, eq_comm, eq_comm (a := c)]

@[simp] theorem fails_here : ¬ here.Fails c := by
  intro h
  have h' : Outcome.matched c.offset c = .mismatch := h
  cases h'

@[simp] theorem matches_mismatch {a : α} : ¬ (mismatch : Rule α).Matches c a d := by
  intro h
  have h' : (Outcome.mismatch : Outcome α) = .matched a d := h
  cases h'

@[simp] theorem fails_mismatch : (mismatch : Rule α).Fails c := rfl

@[simp] theorem matches_refuse {a : α} {n : Nat} : ¬ (refuse n : Rule α).Matches c a d := by
  intro h
  have h' : (Outcome.tooDeep n : Outcome α) = .matched a d := h
  cases h'

/-- Being inside a group is recorded, and has no influence on what is read there. -/
@[simp] theorem matches_inside {a : α} {n : Nat} :
    (inside n rule).Matches c a d ↔ rule.Matches c a d := by
  rcases h : rule c with ⟨outcome, events⟩
  cases outcome <;> simp [inside, Matches, h]

@[simp] theorem fails_inside {n : Nat} : (inside n rule).Fails c ↔ rule.Fails c := by
  rcases h : rule c with ⟨outcome, events⟩
  cases outcome <;> simp [inside, Fails, h]

/-- What is said to have been expected has no influence on what is taken. -/
@[simp] theorem matches_expecting {a : α} {expected : Expected} :
    (expecting expected rule).Matches c a d ↔ rule.Matches c a d := by
  rcases h : rule c with ⟨outcome, events⟩
  cases outcome <;> simp [expecting, fail, Matches, h]

@[simp] theorem fails_expecting {expected : Expected} :
    (expecting expected rule).Fails c ↔ rule.Fails c := by
  rcases h : rule c with ⟨outcome, events⟩
  cases outcome <;> simp [expecting, fail, Fails, h]

/-- Looking ahead takes nothing, whatever it sees. -/
@[simp] theorem matches_lookahead {u : Unit} :
    (lookahead rule).Matches c u d ↔ (∃ a e, rule.Matches c a e) ∧ d = c := by
  rcases h : rule c with ⟨outcome, events⟩
  cases outcome <;> simp [lookahead, Matches, h, eq_comm]

@[simp] theorem fails_lookahead : (lookahead rule).Fails c ↔ rule.Fails c := by
  rcases h : rule c with ⟨outcome, events⟩
  cases outcome <;> simp [lookahead, Fails, h]

/-- The text is over where no character is left. -/
@[simp] theorem matches_atEnd {u : Unit} : atEnd.Matches c u d ↔ c.rest = [] ∧ d = c := by
  rcases c with ⟨rest, offset⟩
  cases rest <;> simp [atEnd, Matches, eq_comm]

@[simp] theorem fails_atEnd : atEnd.Fails c ↔ c.rest ≠ [] := by
  rcases c with ⟨rest, offset⟩
  cases rest <;> simp [atEnd, Fails]

/-- A character is taken if it has a value. -/
theorem matches_charFor {value? : Char → Option α} {v : α} :
    (charFor value?).Matches c v d ↔ ∃ a, value? a = some v ∧ c.Passes [a] d := by
  rcases c with ⟨rest, offset⟩
  rcases d with ⟨rest', offset'⟩
  cases rest with
  | nil => simp [charFor, Matches, Cursor.Passes]
  | cons a rest =>
      cases h : value? a <;>
        simp [charFor, Matches, Cursor.Passes, Cursor.after, h]
      grind

/-- A character is missed at the end of the text and in front of one without a value. -/
theorem fails_charFor {value? : Char → Option α} :
    (charFor value?).Fails c ↔ ∀ a ∈ c.rest.head?, value? a = none := by
  rcases c with ⟨rest, offset⟩
  cases rest with
  | nil => simp [charFor, Fails]
  | cons a rest => cases h : value? a <;> simp [charFor, Fails, h]

/-- One character that satisfies the condition is taken, and it is the value. -/
theorem matches_charWhere {condition : Char → Bool} {a : Char} :
    (charWhere condition).Matches c a d ↔ condition a = true ∧ c.Passes [a] d := by
  rw [charWhere, matches_charFor]
  constructor
  · rintro ⟨b, h, hp⟩
    obtain ⟨hb, rfl⟩ : condition b = true ∧ b = a := by simpa using h
    exact ⟨hb, hp⟩
  · rintro ⟨ha, hp⟩
    exact ⟨a, by simp [ha], hp⟩

/-- A character is missed at the end of the text and in front of one that does not satisfy the
condition. -/
theorem fails_charWhere {condition : Char → Bool} :
    (charWhere condition).Fails c ↔ ∀ a ∈ c.rest.head?, condition a = false := by
  rw [charWhere, fails_charFor]
  simp

/-- As many characters as possible are taken: all of them satisfy the condition, and the one behind
them, if there is one, does not. -/
theorem matches_charsWhile {condition : Char → Bool} {taken : List Char} :
    (charsWhile condition).Matches c taken d ↔
      c.Passes taken d ∧ (∀ a ∈ taken, condition a = true) ∧
        ∀ a ∈ d.rest.head?, condition a = false := by
  -- there is one run of the rule, with which either side has to agree
  have hrun : (charsWhile condition).Matches c (c.rest.takeWhile condition)
      (c.after (c.rest.takeWhile condition) (c.rest.dropWhile condition)) := rfl
  constructor
  · intro h
    obtain ⟨rfl, rfl⟩ := h.unique hrun
    refine ⟨.after c (List.takeWhile_append_dropWhile ..).symm, ?_, ?_⟩
    · intro a ha
      exact List.mem_takeWhile_imp ha
    · intro a ha
      have hd := List.head?_dropWhile_not condition c.rest
      rw [show (c.rest.dropWhile condition).head? = some a from ha] at hd
      simpa using hd
  · rintro ⟨hp, hall, hstop⟩
    -- what satisfies the condition ends where `taken` does, so that the run takes just that
    have htake : c.rest.takeWhile condition = taken := by
      rw [hp.1, List.takeWhile_append_of_pos hall]
      cases hd : d.rest with
      | nil => simp
      | cons a rest => simp [hstop a (by simp [hd])]
    have hdrop : c.rest.dropWhile condition = d.rest := by
      rw [hp.1, List.dropWhile_append_of_pos hall]
      cases hd : d.rest with
      | nil => simp
      | cons a rest => simp [hstop a (by simp [hd])]
    rw [htake, hdrop] at hrun
    have hd : d = c.after taken d.rest := hp.unique (.after c hp.1)
    rw [hd]
    exact hrun

@[simp] theorem fails_charsWhile {condition : Char → Bool} : ¬ (charsWhile condition).Fails c := by
  intro h
  exact absurd h (Matches.not_fails (a := c.rest.takeWhile condition) rfl)

/-- The same, with at least one character. -/
theorem matches_someCharsWhile {condition : Char → Bool} {taken : List Char} :
    (someCharsWhile condition).Matches c taken d ↔
      taken ≠ [] ∧ c.Passes taken d ∧ (∀ a ∈ taken, condition a = true) ∧
        ∀ a ∈ d.rest.head?, condition a = false := by
  simp only [someCharsWhile, matches_bind, matches_pure, matches_charWhere, matches_charsWhile]
  constructor
  · rintro ⟨first, e, ⟨hfirst, hp⟩, more, f, ⟨hq, hmore, hstop⟩, rfl, rfl⟩
    refine ⟨by simp, hp.trans hq, ?_, hstop⟩
    simpa [hfirst] using hmore
  · rintro ⟨hne, hp, hall, hstop⟩
    -- the first of the characters is read on its own
    obtain ⟨first, more, rfl⟩ := List.exists_cons_of_ne_nil hne
    obtain ⟨e, hp, hq⟩ := hp.cons
    exact ⟨first, e, ⟨hall first (by simp), hp⟩, more, d,
      ⟨hq, fun a ha => hall a (by simp [ha]), hstop⟩, rfl, rfl⟩

/-- A fixed text is taken as it is. -/
theorem matches_literal {text : String} {u : Unit} :
    (literal text).Matches c u d ↔ c.Passes text.toList d := by
  cases h : text.toList.isPrefixOf? c.rest with
  | none =>
      simp only [literal, Matches, h, fail, reduceCtorEq, false_iff]
      intro hp
      have hsome := List.isPrefixOf?_eq_some_iff_append_eq.2 hp.1.symm
      rw [h] at hsome
      cases hsome
  | some rest =>
      -- the text that is left is what stands behind the fixed one, and places behind it are equal
      have hrest := List.isPrefixOf?_eq_some_iff_append_eq.1 h
      simp only [literal, Matches, h, Outcome.matched.injEq, true_and]
      constructor
      · rintro rfl
        exact .after c hrest.symm
      · intro hp
        exact Cursor.Passes.unique (.after c hrest.symm) hp

/-! ## Repetition -/

/-- Matches of a rule in a row, each of which begins where the one before it ends. -/
inductive Repeats (rule : Rule α) : Cursor → List α → Cursor → Prop where
  | done (c : Cursor) : Repeats rule c [] c
  | step {c d e : Cursor} {a : α} {as : List α} :
      rule.Matches c a d → Repeats rule d as e → Repeats rule c (a :: as) e

/-- The rule takes at least one character whenever it matches. -/
def Consumes (rule : Rule α) : Prop :=
  ∀ c a d, rule.Matches c a d → d.rest.length < c.rest.length

/-- Repeating a rule no times at all is a match, so a repetition never fails. -/
theorem fails_manyWithin : ∀ (budget : List Char) (c : Cursor), ¬ (manyWithin rule budget).Fails c
  | [], c => by simp [manyWithin]
  | _ :: _, c => by simp [manyWithin]

@[simp] theorem fails_many : ¬ (many rule).Fails c := fails_manyWithin c.rest c

/-- With a budget that cannot run out, a repetition goes on until the rule fails. -/
theorem matches_manyWithin (hrule : rule.Consumes) :
    ∀ (budget : List Char) (c : Cursor) (as : List α) (d : Cursor),
      c.rest.length ≤ budget.length →
        ((manyWithin rule budget).Matches c as d ↔ Repeats rule c as d ∧ rule.Fails d)
  | [], c, as, d, hc => by
      -- no characters are left, so that the rule cannot match
      -- no characters are left, so that the rule cannot match
      have hnone : ∀ a e, ¬ rule.Matches c a e := by
        intro a e h
        have := hrule c a e h
        simp only [List.length_nil] at hc
        omega
      simp only [manyWithin, matches_orElse, matches_bind, matches_mismatch, matches_pure,
        fails_bind, fails_mismatch, and_false, exists_false, false_or, and_true]
      constructor
      · rintro ⟨hf, rfl, rfl⟩
        refine ⟨.done d, hf.resolve_right ?_⟩
        rintro ⟨a, e, h⟩
        exact hnone a e h
      · rintro ⟨hr, hf⟩
        cases hr with
        | done => exact ⟨.inl hf, rfl, rfl⟩
        | step h _ => exact absurd h (hnone _ _)
  | _ :: budget, c, as, d, hc => by
      simp only [manyWithin, matches_orElse, matches_bind, matches_map, matches_pure, fails_bind,
        fails_map]
      constructor
      · rintro (⟨a, e, h, as', hm, rfl⟩ | ⟨hf, rfl, rfl⟩)
        · -- the first match takes a character, and one character of the budget is spent
          have hlt := hrule c a e h
          simp only [List.length_cons] at hc
          obtain ⟨hr, hf⟩ := (matches_manyWithin hrule budget e as' d (by omega)).1 hm
          exact ⟨.step h hr, hf⟩
        · refine ⟨.done d, hf.resolve_right ?_⟩
          rintro ⟨a, e, _, hf⟩
          exact fails_manyWithin budget e hf
      · rintro ⟨hr, hf⟩
        cases hr with
        | done => exact .inr ⟨.inl hf, rfl, rfl⟩
        | @step _ e _ a as h hr =>
            have hlt := hrule c a e h
            simp only [List.length_cons] at hc
            exact .inl ⟨a, e, h, as,
              (matches_manyWithin hrule budget e as d (by omega)).2 ⟨hr, hf⟩, rfl⟩

/-- A repetition takes as many matches in a row as there are. Its budget, the text that is left, is
never used up before them, since each of them takes a character. -/
theorem matches_many (hrule : rule.Consumes) {as : List α} :
    (many rule).Matches c as d ↔ Repeats rule c as d ∧ rule.Fails d :=
  matches_manyWithin hrule c.rest c as d (Nat.le_refl _)

/-! ## Rules that never refuse a text -/

theorem Decides.pure (a : α) : (Pure.pure a : Rule α).Decides :=
  fun c => .inr ⟨a, c, matches_pure.2 ⟨rfl, rfl⟩⟩

/-- A sequence of rules that never refuse a text does not refuse one. -/
theorem Decides.bind {next : α → Rule β} (h : rule.Decides) (k : ∀ a, (next a).Decides) :
    (rule >>= next).Decides := by
  intro c
  rcases h c with hf | ⟨a, d, hm⟩
  · exact .inl (fails_bind.2 (.inl hf))
  · rcases k a d with hf | ⟨b, e, hn⟩
    · exact .inl (fails_bind.2 (.inr ⟨a, d, hm, hf⟩))
    · exact .inr ⟨b, e, matches_bind.2 ⟨a, d, hm, hn⟩⟩

theorem Decides.map (f : α → β) (h : rule.Decides) : (f <$> rule).Decides := by
  intro c
  rcases h c with hf | ⟨a, d, hm⟩
  · exact .inl (fails_map.2 hf)
  · exact .inr ⟨f a, d, matches_map.2 ⟨a, hm, rfl⟩⟩

/-- Neither do alternatives. -/
theorem Decides.orElse (h : rule.Decides) (k : other.Decides) : (rule <|> other).Decides := by
  intro c
  rcases h c with hf | ⟨a, d, hm⟩
  · rcases k c with kf | ⟨b, e, km⟩
    · exact .inl (fails_orElse.2 ⟨hf, kf⟩)
    · exact .inr ⟨b, e, matches_orElse.2 (.inr ⟨hf, km⟩)⟩
  · exact .inr ⟨a, d, matches_orElse.2 (.inl hm)⟩

theorem Decides.perhaps (h : rule.Decides) : (perhaps rule).Decides :=
  Decides.orElse (h.map some) (.pure none)

theorem Decides.expecting (expected : Expected) (h : rule.Decides) :
    (expecting expected rule).Decides := by
  intro c
  simpa using h c

theorem Decides.lookahead (h : rule.Decides) : (lookahead rule).Decides := by
  intro c
  rcases h c with hf | ⟨a, d, hm⟩
  · exact .inl (fails_lookahead.2 hf)
  · exact .inr ⟨(), c, matches_lookahead.2 ⟨⟨a, d, hm⟩, rfl⟩⟩

theorem Decides.here : here.Decides := fun c => .inr ⟨c.offset, c, rfl⟩

theorem Decides.mismatch : (mismatch : Rule α).Decides := fun _ => .inl rfl

theorem Decides.charWhere (condition : Char → Bool) : (charWhere condition).Decides := by
  rintro ⟨rest, offset⟩
  rw [fails_charWhere]
  cases rest with
  | nil => exact .inl (by simp)
  | cons a rest =>
      cases h : condition a with
      | false => exact .inl (by simp [h])
      | true => exact .inr ⟨a, _, matches_charWhere.2 ⟨h, .after _ rfl⟩⟩

theorem Decides.charsWhile (condition : Char → Bool) : (charsWhile condition).Decides :=
  fun _ => .inr ⟨_, _, rfl⟩

/-- Taking all characters in front of a mark always succeeds, since there is the rest of the text if
the mark does not occur. -/
theorem Decides.charsBefore (mark : List Char) : (charsBefore mark).Decides :=
  fun _ => .inr ⟨_, _, rfl⟩

/-- A fixed text comes next or it does not. -/
theorem Decides.literal (text : String) : (literal text).Decides := by
  intro c
  cases h : text.toList.isPrefixOf? c.rest with
  | none => exact .inl (by simp [Fails, Rule.literal, h, fail])
  | some rest =>
      have hr := List.isPrefixOf?_eq_some_iff_append_eq.1 h
      exact .inr ⟨(), _, matches_literal.2 (.after c hr.symm)⟩

theorem Decides.atEnd : atEnd.Decides := by
  intro c
  by_cases h : c.rest = []
  · exact .inr ⟨(), c, matches_atEnd.2 ⟨h, rfl⟩⟩
  · exact .inl (fails_atEnd.2 h)

/-- A repetition is made of alternatives, so that it does not refuse a text if the rule does not. -/
theorem Decides.many (h : rule.Decides) : (many rule).Decides := by
  -- whatever the budget is, a repetition is made of rules that decide
  have key : ∀ budget, (manyWithin rule budget).Decides := by
    intro budget
    induction budget with
    | nil => exact .orElse (.bind h fun _ => .mismatch) (.pure [])
    | cons _ budget ih => exact .orElse (.bind h fun a => ih.map _) (.pure [])
  exact fun c => key c.rest c

/-- A fixed text is missed where the text does not go on with it. -/
theorem fails_literal {text : String} :
    (literal text).Fails c ↔ ¬ text.toList <+: c.rest := by
  constructor
  · rintro hf ⟨rest, hr⟩
    -- if the text does go on with it, the rule matches
    have hm : (literal text).Matches c () _ := matches_literal.2 (.after c hr.symm)
    exact hm.not_fails hf
  · intro h
    refine (Decides.literal text).fails_of_not_matches fun u d hm => h ?_
    exact ⟨d.rest, (matches_literal.1 hm).1.symm⟩

/-- A fixed text does not come next if its first character does not. -/
theorem fails_literal_of_head {text : String} {a : Char} {as : List Char}
    (htext : text.toList = a :: as) (h : c.rest.head? ≠ some a) : (literal text).Fails c := by
  rw [fails_literal, htext]
  rintro ⟨rest, hrest⟩
  exact h (by rw [← hrest]; rfl)

end Rule

end Railroad.Notation
