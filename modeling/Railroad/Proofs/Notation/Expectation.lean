import Railroad.Proofs.Notation.Acceptance
import Railroad.Proofs.Notation.Nesting
set_option autoImplicit false

/-!
# Expectations lead on

Whatever a rule misses on its way through a text of the notation would have allowed the text to go
on: the text in front of the place, followed by a text of what was missed (`Expected.texts`), is the
beginning of a text that the rule reads. Each rule is given the language of the texts it takes and a
language into which its failures lead (`Rule.Reads`), and both are put together along with the
rules. The failures of a whole document therefore lead to documents, except that a document may end
where its end is missed, and that a parenthesis leads nowhere where as many groups are open as may
be. A text that is not read has failures, and its error lists those that lie furthest
(`exists_continuation_of_parse_error`).
-/

namespace Railroad.Notation

open Computability Rule

/-- The texts that an expectation stands for. Nothing comes where the end of the text is
expected. -/
def Expected.texts : Expected → Language Char
  | .name => Written.name
  | .stringLiteral => Written.string
  | .charCode => Written.code
  | .classItem => Written.one Written.isClassChar
  | .url => Written.address
  | .newline => Written.one isLineEnd
  | .endOfText => 1
  | .literal text => Written.word text

/-! ## Beginnings and continuations -/

namespace Written

/-- The texts with which those of a language begin. -/
def beginnings (texts : Language Char) : Language Char := {cs | ∃ rest, cs ++ rest ∈ texts}

/-- What may follow a text in those of a language. -/
def behind (front : List Char) (texts : Language Char) : Language Char := {cs | front ++ cs ∈ texts}

variable {texts more : Language Char} {cs front : List Char}

@[simp] theorem mem_behind : cs ∈ behind front texts ↔ front ++ cs ∈ texts := Iff.rfl

/-- A text is one of its own beginnings. -/
theorem mem_beginnings (h : cs ∈ texts) : cs ∈ beginnings texts := ⟨[], by rwa [List.append_nil]⟩

/-- A beginning of a beginning is a beginning. -/
theorem mem_beginnings_of_append {rest : List Char} (h : cs ++ rest ∈ beginnings texts) :
    cs ∈ beginnings texts := by
  obtain ⟨more, hmore⟩ := h
  exact ⟨rest ++ more, by rwa [← List.append_assoc]⟩

/-- Beginnings of texts that begin other texts begin these as well. -/
theorem beginnings_trans (h : texts ≤ beginnings more) (hcs : cs ∈ beginnings texts) :
    cs ∈ beginnings more := by
  obtain ⟨rest, hrest⟩ := hcs
  exact mem_beginnings_of_append (h hrest)

/-- What begins a text together with what stands in front of it begins the rest behind that. -/
theorem mem_beginnings_behind (h : front ++ cs ∈ beginnings texts) :
    cs ∈ beginnings (behind front texts) := by
  obtain ⟨rest, hrest⟩ := h
  exact ⟨rest, by rwa [mem_behind, ← List.append_assoc]⟩

/-- What begins a first part begins the whole, if there is a second part at all. -/
theorem beginnings_mul {first second : Language Char} (hcs : cs ∈ beginnings first)
    (hsecond : ∃ x, x ∈ second) : cs ∈ beginnings (first * second) := by
  obtain ⟨rest, hrest⟩ := hcs
  obtain ⟨x, hx⟩ := hsecond
  exact ⟨rest ++ x, by
    rw [← List.append_assoc]
    exact Language.append_mem_mul hrest hx⟩

/-- If there are texts of both kinds, there are texts one after the other. -/
theorem exists_mem_mul {first second : Language Char} (h : ∃ cs, cs ∈ first)
    (k : ∃ cs, cs ∈ second) : ∃ cs, cs ∈ first * second := by
  obtain ⟨xs, hxs⟩ := h
  obtain ⟨ys, hys⟩ := k
  exact ⟨xs ++ ys, Language.append_mem_mul hxs hys⟩

/-- Texts of the first kind begin texts one after the other, provided that there is something to go
on with. -/
theorem le_beginnings_mul {first second : Language Char} (h : ∃ cs, cs ∈ second) :
    first ≤ beginnings (first * second) :=
  fun _ hcs => beginnings_mul (mem_beginnings hcs) h

end Written

open Written

/-! ## Failures that lead on -/

/-- At each failure among some events a condition holds of the number of open groups, the offset and
what was missed, if `n` groups are open before the events. -/
def Event.Each (condition : Nat → Nat → Expected → Prop) : Nat → List Event → Prop
  | _, [] => True
  | n, e :: rest =>
      (∀ offset expected, e = .failed offset expected → condition n offset expected) ∧
        Each condition (e.groupsAfter n) rest

namespace Event

variable {condition condition' : Nat → Nat → Expected → Prop} {n : Nat}

/-- A condition on failures that depends on the groups that are open is looked at in two parts, the
second with the groups that the first leaves open. -/
theorem each_append {xs ys : List Event} :
    Each condition n (xs ++ ys) ↔ Each condition n xs ∧ Each condition (openAfter n xs) ys := by
  induction xs generalizing n with
  | nil => simp [Each]
  | cons e xs ih => rw [List.cons_append, Each, Each, ih, openAfter_cons, and_assoc]

/-- What all failures satisfy can be weakened. -/
theorem Each.imp {events : List Event} (h : Each condition n events)
    (himp : ∀ n offset expected, condition n offset expected → condition' n offset expected) :
    Each condition' n events := by
  induction events generalizing n with
  | nil => trivial
  | cons e rest ih => exact ⟨fun offset expected he => himp _ _ _ (h.1 offset expected he), ih h.2⟩

/-- The groups that are open at a failure are those that the events before it leave open. -/
theorem each_iff {events : List Event} : Each condition n events ↔
    ∀ before offset expected after, events = before ++ .failed offset expected :: after →
      condition (openAfter n before) offset expected := by
  constructor
  · rintro h before offset expected after rfl
    exact (each_append.1 h).2.1 offset expected rfl
  · intro h
    induction events generalizing n with
    | nil => trivial
    | cons e rest ih =>
        refine ⟨fun offset expected he => h [] offset expected rest (by rw [he]; rfl), ih ?_⟩
        intro before offset expected after hrest
        exact h (e :: before) offset expected after (by rw [hrest]; rfl)

end Event

/-- A failure leads into a language: what lies between a place and the failure, followed by a text
of what was missed, begins a text of the language. A parenthesis may also be missed where `full`
groups are open, and then only what lies in front of it begins a text of the language. -/
def Cursor.Foresees (c : Cursor) (ahead : Language Char) (full n offset : Nat)
    (expected : Expected) : Prop :=
  ∃ taken, taken <+: c.rest ∧ offset = c.offset + Text.byteLength taken ∧
    ((expected ≠ .endOfText ∧ ∃ w ∈ expected.texts, taken ++ w ∈ beginnings ahead) ∨
      (expected = .literal "(" ∧ n = full ∧ taken ∈ beginnings ahead))

namespace Cursor.Foresees

variable {c d : Cursor} {ahead ahead' : Language Char} {full n offset : Nat} {expected : Expected}

/-- A failure at the place of the attempt is foreseen if what was expected begins what can come
there. -/
theorem here (hend : expected ≠ .endOfText) {w : List Char} (hw : w ∈ expected.texts)
    (hahead : w ∈ beginnings ahead) : c.Foresees ahead full n c.offset expected :=
  ⟨[], List.nil_prefix, rfl, .inl ⟨hend, w, hw, hahead⟩⟩

/-- More texts can be foreseen if more can come. -/
theorem mono (h : c.Foresees ahead full n offset expected) (hle : ahead ≤ beginnings ahead') :
    c.Foresees ahead' full n offset expected := by
  obtain ⟨taken, htaken, hoffset, ⟨hend, w, hw, hahead⟩ | ⟨heq, hn, hahead⟩⟩ := h
  · exact ⟨taken, htaken, hoffset, .inl ⟨hend, w, hw, beginnings_trans hle hahead⟩⟩
  · exact ⟨taken, htaken, hoffset, .inr ⟨heq, hn, beginnings_trans hle hahead⟩⟩

/-- What leads on behind some text leads on together with it. -/
theorem behind {taken : List Char} (hp : c.Passes taken d)
    (h : d.Foresees (Written.behind taken ahead) full n offset expected) :
    c.Foresees ahead full n offset expected := by
  -- a text that goes on behind the characters goes on with them in front
  have hbegin : ∀ {cs}, cs ∈ beginnings (Written.behind taken ahead) →
      taken ++ cs ∈ beginnings ahead := by
    rintro cs ⟨rest, hrest⟩
    exact ⟨rest, by rwa [List.append_assoc]⟩
  obtain ⟨more, hmore, rfl, hleads⟩ := h
  refine ⟨taken ++ more, ?_, ?_, ?_⟩
  · rw [hp.1]
    exact (List.prefix_append_right_inj taken).2 hmore
  · rw [hp.2, Text.byteLength_append, Nat.add_assoc]
  · rcases hleads with ⟨hend, w, hw, hahead⟩ | ⟨heq, hn, hahead⟩
    · exact .inl ⟨hend, w, hw, by rw [List.append_assoc]; exact hbegin hahead⟩
    · exact .inr ⟨heq, hn, hbegin hahead⟩

end Cursor.Foresees

namespace Rule

variable {α β : Type} {rule other : Rule α} {depth : Nat} {ahead ahead' texts : Language Char}
  {c d : Cursor}

/-- No events are recorded on a rule. -/
def Silent (rule : Rule α) : Prop := ∀ c, (rule c).events = []

/-- Rules on which nothing is recorded can be put one after another. -/
theorem Silent.bind {next : α → Rule β} (h : rule.Silent) (k : ∀ a, (next a).Silent) :
    (rule >>= next).Silent := by
  intro c
  rcases attempt_cases rule c with ⟨a, d, hm⟩ | hf | ⟨offset, ht⟩
  · rw [bind_of_matches hm, h c, k a d]
    rfl
  · rw [bind_of_fails hf, h c]
  · rw [bind_of_tooDeep ht, h c]

/-- They can be alternatives. -/
theorem Silent.orElse (h : rule.Silent) (k : other.Silent) : (rule <|> other).Silent := by
  intro c
  by_cases hf : rule.Fails c
  · rw [orElse_of_fails hf, h c, k c]
    rfl
  · rw [orElse_of_not_fails hf, h c]

/-- A character is missed without a record, unless it is said what was expected. -/
theorem Silent.charFor (value? : Char → Option α) : (charFor value?).Silent := by
  intro c
  unfold Rule.charFor
  split
  · rfl
  · split <;> rfl

theorem Silent.charWhere (condition : Char → Bool) : (charWhere condition).Silent := .charFor _

theorem Silent.pure (a : α) : (Pure.pure a : Rule α).Silent := fun _ => rfl

theorem Silent.perhaps (h : rule.Silent) : (perhaps rule).Silent := by
  refine .orElse ?_ (.pure none)
  rw [map_eq_bind]
  exact h.bind fun a => .pure (some a)

theorem Silent.someCharsWhile (condition : Char → Bool) : (someCharsWhile condition).Silent :=
  .bind (.charWhere _) fun _ => .bind (fun _ => rfl) fun _ => .pure _

/-- The attempt at a place is refused or orderly. -/
def SteadyAt (rule : Rule α) (c : Cursor) : Prop :=
  (∃ offset, (rule c).outcome = .tooDeep offset) ∨ rule.OrderlyAt c

/-- An attempt that is not refused is orderly. -/
theorem SteadyAt.orderlyAt (h : rule.SteadyAt c)
    (hne : ∀ offset, (rule c).outcome ≠ .tooDeep offset) : rule.OrderlyAt c := by
  rcases h with ⟨offset, ht⟩ | h
  · exact absurd ht (hne offset)
  · exact h

/-- An attempt that matches is orderly. -/
theorem SteadyAt.orderlyAt_of_matches (h : rule.SteadyAt c) {a : α} (hm : rule.Matches c a d) :
    rule.OrderlyAt c := by
  apply h.orderlyAt
  intro offset ht
  rw [Matches, ht] at hm
  cases hm

/-- An attempt that fails is orderly. -/
theorem SteadyAt.orderlyAt_of_fails (h : rule.SteadyAt c) (hf : rule.Fails c) :
    rule.OrderlyAt c := by
  apply h.orderlyAt
  intro offset ht
  rw [Fails, ht] at hf
  cases hf

/-- Two attempts one after the other are orderly, or one of them is refused. -/
theorem SteadyAt.bind {next : α → Rule β} (h : rule.SteadyAt c)
    (k : ∀ a d, rule.Matches c a d → (next a).SteadyAt d) : (rule >>= next).SteadyAt c := by
  rcases attempt_cases rule c with ⟨a, d, hm⟩ | hf | ⟨offset, ht⟩
  · rcases k a d hm with ⟨offset, ht⟩ | hnext
    · exact .inl ⟨offset, by rw [bind_of_matches hm, ht]⟩
    · refine .inr ((h.orderlyAt_of_matches hm).bind fun b e _ hm' _ => ?_)
      obtain ⟨rfl, rfl⟩ := hm.unique hm'
      exact hnext
  · exact .inr ((h.orderlyAt_of_fails hf).bind fun b e _ hm' _ => absurd hf hm'.not_fails)
  · exact .inl ⟨offset, by rw [bind_of_tooDeep ht]⟩

/-- The second of two alternatives is attempted only if the first is orderly. -/
theorem SteadyAt.orElse (h : rule.SteadyAt c) (k : other.SteadyAt c) :
    (rule <|> other).SteadyAt c := by
  by_cases hf : rule.Fails c
  · rcases k with ⟨offset, ht⟩ | k
    · exact .inl ⟨offset, by rw [orElse_of_fails hf, ht]⟩
    · exact .inr ((h.orderlyAt_of_fails hf).orElse k)
  · rcases h with ⟨offset, ht⟩ | h
    · exact .inl ⟨offset, by rw [orElse_of_not_fails hf, ht]⟩
    · exact .inr (h.congr (orElse_of_not_fails hf))

theorem SteadyAt.congr {rule' : Rule α} (h : rule.SteadyAt c) (hrun : rule' c = rule c) :
    rule'.SteadyAt c := by
  rcases h with ⟨offset, ht⟩ | h
  · exact .inl ⟨offset, by rw [hrun, ht]⟩
  · exact .inr (h.congr hrun)

theorem SteadyAt.expecting {expected : Expected} (h : rule.SteadyAt c) :
    (expecting expected rule).SteadyAt c := by
  rcases hr : rule c with ⟨outcome, events⟩
  cases outcome with
  | mismatch =>
      exact .inr (((Flat.fail expected).orderly c).congr (by simp only [Rule.expecting, hr]))
  | matched a d => exact h.congr (by simp only [Rule.expecting, hr])
  | tooDeep offset => exact h.congr (by simp only [Rule.expecting, hr])

/-- At a place, every failure of a rule that reads items in which groups are nested at most `depth`
deep leads into a language. -/
def LeadsAt (depth : Nat) (rule : Rule α) (ahead : Language Char) (c : Cursor) : Prop :=
  ∀ n, Event.Each (c.Foresees ahead (n + depth)) n (rule c).events

namespace LeadsAt

/-- An attempt on which nothing is recorded has nothing to foresee. -/
theorem silent (h : (rule c).events = []) : rule.LeadsAt depth ahead c := by
  intro n
  rw [h]
  trivial

/-- More failures are foreseen if more texts can come. -/
theorem mono (h : rule.LeadsAt depth ahead c) (hle : ahead ≤ beginnings ahead') :
    rule.LeadsAt depth ahead' c :=
  fun n => (h n).imp fun _ _ _ hfail => hfail.mono hle

/-- Something that is missed is foreseen if it could come. -/
theorem fail {expected : Expected} (hend : expected ≠ .endOfText) {w : List Char}
    (hw : w ∈ expected.texts) (hahead : w ∈ beginnings ahead) :
    (fail expected : Rule α).LeadsAt depth ahead c := by
  intro n
  refine ⟨?_, trivial⟩
  rintro _ _ ⟨rfl, rfl⟩
  exact .here hend hw hahead

/-- A fixed text is foreseen if it begins what can come. -/
theorem literal {text : String} (h : text.toList ∈ beginnings ahead) :
    (literal text).LeadsAt depth ahead c := by
  unfold LeadsAt Rule.literal
  split
  · exact fun _ => trivial
  · exact LeadsAt.fail (α := Unit) (by simp) rfl h

/-- Naming what was expected instead of what was missed on the way needs it to begin what can
come. -/
theorem expecting {expected : Expected} (h : rule.LeadsAt depth ahead c)
    (hend : expected ≠ .endOfText) {w : List Char} (hw : w ∈ expected.texts)
    (hahead : w ∈ beginnings ahead) : (expecting expected rule).LeadsAt depth ahead c := by
  unfold LeadsAt Rule.expecting
  split
  · exact LeadsAt.fail (α := α) hend hw hahead
  · exact h

/-- What is missed while looking ahead has to be foreseen like everything else. -/
theorem lookahead (h : rule.LeadsAt depth ahead c) : (lookahead rule).LeadsAt depth ahead c := by
  intro n
  have hn := h n
  rcases hr : rule c with ⟨outcome, events⟩
  rw [hr] at hn
  cases outcome <;> simpa only [Rule.lookahead, hr] using hn

/-- Behind a match, what can come is what can come behind the text that was taken. -/
theorem bind {next : α → Rule β} (hs : rule.SteadyAt c) (h : rule.LeadsAt depth ahead c)
    (k : ∀ a d taken, rule.Matches c a d → c.Passes taken d →
      (next a).LeadsAt depth (behind taken ahead) d) :
    (rule >>= next).LeadsAt depth ahead c := by
  intro n
  rcases attempt_cases rule c with ⟨a, d, hm⟩ | hf | ⟨offset, ht⟩
  · have horderly := hs.orderlyAt_of_matches hm
    obtain ⟨taken, hp⟩ := horderly.passes hm
    -- the first rule leaves no group open, so the second begins with as many as the first
    rw [bind_of_matches hm, Event.each_append, horderly.balanced]
    exact ⟨h n, (k a d taken hm hp n).imp fun _ _ _ hfail => hfail.behind hp⟩
  · rw [bind_of_fails hf]
    exact h n
  · rw [bind_of_tooDeep ht]
    exact h n

theorem here_bind {next : Nat → Rule β} (h : (next c.offset).LeadsAt depth ahead c) :
    (Rule.here >>= next).LeadsAt depth ahead c := h

/-- A rule on which nothing is recorded can follow without being foreseen. -/
theorem bind_silent {next : α → Rule β} (h : rule.LeadsAt depth ahead c)
    (k : ∀ a, (next a).Silent) : (rule >>= next).LeadsAt depth ahead c := by
  intro n
  rcases attempt_cases rule c with ⟨a, d, hm⟩ | hf | ⟨offset, ht⟩
  · rw [bind_of_matches hm, k a d, List.append_nil]
    exact h n
  · rw [bind_of_fails hf]
    exact h n
  · rw [bind_of_tooDeep ht]
    exact h n

/-- Both alternatives have to foresee what they miss. -/
theorem orElse (hs : rule.SteadyAt c) (h : rule.LeadsAt depth ahead c)
    (k : other.LeadsAt depth ahead c) : (rule <|> other).LeadsAt depth ahead c := by
  intro n
  by_cases hf : rule.Fails c
  · rw [orElse_of_fails hf, Event.each_append, (hs.orderlyAt_of_fails hf).balanced]
    exact ⟨h n, k n⟩
  · rw [orElse_of_not_fails hf]
    exact h n

/-- In a group, one group less may be opened. -/
theorem inside {offset : Nat} (h : rule.LeadsAt depth ahead c) :
    (inside offset rule).LeadsAt (depth + 1) ahead c := by
  intro n
  have hn : Event.Each (c.Foresees ahead (n + (depth + 1))) (n + 1) (rule c).events := by
    have := h (n + 1)
    rwa [Nat.add_right_comm] at this
  have hopened : ∀ offset' expected, Event.opened offset = .failed offset' expected →
      c.Foresees ahead (n + (depth + 1)) n offset' expected := nofun
  rcases hr : rule c with ⟨outcome, events⟩
  rw [hr] at hn
  -- the group stays open until all that happens in it has happened
  have hclosed : Event.Each (c.Foresees ahead (n + (depth + 1))) (n + 1) (events ++ [.closed]) :=
    Event.each_append.2 ⟨hn, nofun, trivial⟩
  cases outcome with
  | matched a d => simpa only [Rule.inside, hr] using ⟨hopened, hclosed⟩
  | mismatch => simpa only [Rule.inside, hr] using ⟨hopened, hclosed⟩
  | tooDeep refused => simpa only [Rule.inside, hr] using ⟨hopened, hn⟩

end LeadsAt

/-! ## Rules with their languages -/

/-- The rule takes texts of one language, its failures lead into another, and its attempts are
steady. -/
structure Reads (depth : Nat) (rule : Rule α) (texts ahead : Language Char) : Prop where
  steady : ∀ c, rule.SteadyAt c
  takes : ∀ ⦃c : Cursor⦄ ⦃a : α⦄ ⦃d : Cursor⦄, rule.Matches c a d → ∃ cs ∈ texts, c.Passes cs d
  leads : ∀ c, rule.LeadsAt depth ahead c

namespace Reads

/-- A rule that reads some texts reads these and others. -/
theorem mono {texts' : Language Char} (h : rule.Reads depth texts ahead) (ht : texts ≤ texts')
    (ha : ahead ≤ beginnings ahead') : rule.Reads depth texts' ahead' where
  steady := h.steady
  takes _ _ _ hm := by
    obtain ⟨cs, hcs, hp⟩ := h.takes hm
    exact ⟨cs, ht hcs, hp⟩
  leads c := (h.leads c).mono ha

/-- A rule on which nothing is recorded. -/
theorem silent (hflat : rule.Flat) (hs : rule.Silent)
    (ht : ∀ c a d, rule.Matches c a d → ∃ cs ∈ texts, c.Passes cs d) :
    rule.Reads depth texts ahead where
  steady c := .inr (hflat.orderly c)
  takes := ht
  leads c := .silent (hs c)

theorem pure (a : α) : (Pure.pure a : Rule α).Reads depth 1 ahead :=
  .silent (.pure a) (.pure a) fun c b d hm => by
    obtain ⟨-, rfl⟩ := matches_pure.1 hm
    exact ⟨[], rfl, .refl d⟩

theorem here : Rule.here.Reads depth 1 ahead :=
  .silent .here (fun _ => rfl) fun c b d hm => by
    obtain ⟨-, rfl⟩ := matches_here.1 hm
    exact ⟨[], rfl, .refl d⟩

theorem charWhere (condition : Char → Bool) :
    (charWhere condition).Reads depth (one condition) ahead :=
  .silent (.charWhere _) (.charWhere _) fun c a d hm => by
    obtain ⟨ha, hp⟩ := matches_charWhere.1 hm
    exact ⟨[a], ⟨a, ha, rfl⟩, hp⟩

theorem someCharsWhile (condition : Char → Bool) :
    (someCharsWhile condition).Reads depth (plus (one condition)) ahead :=
  .silent (.someCharsWhile _) (.someCharsWhile _) fun c cs d hm => by
    obtain ⟨hne, hp, hall, -⟩ := matches_someCharsWhile.1 hm
    exact ⟨cs, mem_plus_one.2 ⟨hne, hall⟩, hp⟩

theorem charsWhile (condition : Char → Bool) :
    (charsWhile condition).Reads depth (one condition)∗ ahead :=
  .silent (.charsWhile _) (fun _ => rfl) fun c cs d hm => by
    obtain ⟨hp, hall, -⟩ := matches_charsWhile.1 hm
    exact ⟨cs, mem_kstar_one.2 hall, hp⟩

theorem literal (text : String) : (literal text).Reads depth (word text) (word text) where
  steady c := .inr ((Flat.literal text).orderly c)
  takes _ _ _ hm := ⟨_, rfl, matches_literal.1 hm⟩
  leads _ := .literal (mem_beginnings rfl)

/-- A rule that reads texts still does if it is said what was expected. -/
theorem expecting {expected : Expected} (h : rule.Reads depth texts ahead)
    (hend : expected ≠ .endOfText) {w : List Char} (hw : w ∈ expected.texts)
    (hahead : w ∈ beginnings ahead) : (expecting expected rule).Reads depth texts ahead where
  steady c := (h.steady c).expecting
  takes _ _ _ hm := h.takes (matches_expecting.1 hm)
  leads c := (h.leads c).expecting hend hw hahead

/-- One rule after another. -/
theorem bind {next : α → Rule β} {first second rest whole : Language Char}
    (h : rule.Reads depth first ahead) (k : ∀ a, (next a).Reads depth second rest)
    (hfirst : ahead ≤ beginnings whole) (hrest : first * rest ≤ beginnings whole) :
    (rule >>= next).Reads depth (first * second) whole where
  steady c := (h.steady c).bind fun a d _ => (k a).steady d
  takes c b e hm := by
    obtain ⟨a, d, hm, hn⟩ := matches_bind.1 hm
    obtain ⟨xs, hxs, hp⟩ := h.takes hm
    obtain ⟨ys, hys, hq⟩ := (k a).takes hn
    exact ⟨xs ++ ys, Language.append_mem_mul hxs hys, hp.trans hq⟩
  leads c := by
    refine .bind (h.steady c) ((h.leads c).mono hfirst) fun a d taken hm hp => ?_
    obtain ⟨xs, hxs, hp'⟩ := h.takes hm
    obtain rfl : taken = xs := hp.inj hp'
    -- what the first rule took stands in front of all that the second leads to
    exact ((k a).leads d).mono fun cs hcs =>
      mem_beginnings_behind (hrest (Language.append_mem_mul hxs hcs))

/-- One rule after another, where the failures of the first lead to texts of the first or
further. -/
theorem mul {next : α → Rule β} {first second rest : Language Char}
    (h : rule.Reads depth first ahead) (k : ∀ a, (next a).Reads depth second rest)
    (hle : ahead ≤ beginnings (first * rest)) :
    (rule >>= next).Reads depth (first * second) (first * rest) :=
  h.bind k hle fun _ => mem_beginnings

/-- Two rules both of which take pieces of one language and lead there. -/
theorem bind_kstar {next : α → Rule β} (h : rule.Reads depth texts∗ texts∗)
    (k : ∀ a, (next a).Reads depth texts∗ texts∗) : (rule >>= next).Reads depth texts∗ texts∗ := by
  have hle : texts∗ ≤ beginnings (texts∗ * texts∗) := by
    rw [kstar_mul_kstar]
    exact fun _ => mem_beginnings
  have hall := h.mul k hle
  rwa [kstar_mul_kstar] at hall

/-- Rules that take nothing in front of another one make no difference. -/
theorem empty_bind {next : α → Rule β} (h : rule.Reads depth 1 0)
    (k : ∀ a, (next a).Reads depth texts ahead) : (rule >>= next).Reads depth texts ahead := by
  have hall := h.mul k bot_le
  rwa [one_mul, one_mul] at hall

/-- Rules that take nothing behind another one make no difference. -/
theorem bind_empty {next : α → Rule β} (h : rule.Reads depth texts ahead)
    (k : ∀ a, (next a).Reads depth 1 0) : (rule >>= next).Reads depth texts ahead where
  steady c := (h.steady c).bind fun a d _ => (k a).steady d
  takes c b e hm := by
    obtain ⟨a, d, hm, hn⟩ := matches_bind.1 hm
    obtain ⟨xs, hxs, hp⟩ := h.takes hm
    obtain ⟨ys, rfl, hq⟩ := (k a).takes hn
    exact ⟨xs ++ [], by rwa [List.append_nil], hp.trans hq⟩
  leads c := .bind (h.steady c) (h.leads c) fun a d _ _ _ => ((k a).leads d).mono bot_le

theorem map (f : α → β) (h : rule.Reads depth texts ahead) :
    (f <$> rule).Reads depth texts ahead := by
  rw [map_eq_bind]
  exact h.bind_empty fun a => .pure (f a)

/-- Alternatives read the texts of both and lead to the texts of both. -/
theorem orElse {texts' : Language Char} (h : rule.Reads depth texts ahead)
    (k : other.Reads depth texts' ahead') :
    (rule <|> other).Reads depth (texts + texts') (ahead + ahead') where
  steady c := (h.steady c).orElse (k.steady c)
  takes c a d hm := by
    rcases matches_orElse.1 hm with hm | ⟨-, hm⟩
    · obtain ⟨cs, hcs, hp⟩ := h.takes hm
      exact ⟨cs, .inl hcs, hp⟩
    · obtain ⟨cs, hcs, hp⟩ := k.takes hm
      exact ⟨cs, .inr hcs, hp⟩
  leads c := .orElse (h.steady c) ((h.leads c).mono fun _ hcs => mem_beginnings (.inl hcs))
    ((k.leads c).mono fun _ hcs => mem_beginnings (.inr hcs))

/-- What may be left out is read or not. -/
theorem perhaps (h : rule.Reads depth texts ahead) :
    (perhaps rule).Reads depth (1 + texts) ahead := by
  have hnone : (Pure.pure none : Rule (Option α)).Reads depth 1 0 := .pure none
  have hall := (h.map some).orElse hnone
  rwa [add_zero, add_comm] at hall

/-- A rule in a row, whose failures lead to more of it. -/
theorem many (h : rule.Reads depth texts ahead) (hle : ahead ≤ beginnings texts∗) :
    (many rule).Reads depth texts∗ texts∗ := by
  have hnil : (Pure.pure [] : Rule (List α)).Reads depth 1 0 := .pure []
  have hone : (1 : Language Char) ≤ texts∗ := one_le_kstar
  have key : ∀ budget, (manyWithin rule budget).Reads depth texts∗ texts∗ := by
    intro budget
    -- one more match and whatever follows it are again texts in a row
    induction budget with
    | nil =>
        have hmismatch : ∀ _ : α, (mismatch : Rule (List α)).Reads depth 0 0 := fun _ =>
          .silent .mismatch (fun _ => rfl) fun c b d hm => absurd hm matches_mismatch
        have hall := (h.bind hmismatch hle (by rw [mul_zero]; exact bot_le)).orElse hnil
        rw [mul_zero, zero_add, add_zero] at hall
        exact hall.mono hone fun _ => mem_beginnings
    | cons _ budget ih =>
        have hstep : texts * texts∗ ≤ texts∗ := mul_kstar_le_kstar
        have hall := (h.bind (fun a => ih.map (a :: ·)) hle fun _ hcs =>
          mem_beginnings (hstep hcs)).orElse hnil
        rw [add_zero] at hall
        refine hall.mono (fun cs hcs => ?_) fun _ => mem_beginnings
        exact hcs.elim (fun hcs => hstep hcs) fun hcs => hone hcs
  exact ⟨fun c => ((key c.rest).steady c).congr rfl, fun c _ _ hm => (key c.rest).takes hm,
    fun c => (key c.rest).leads c⟩

end Reads

end Rule

end Railroad.Notation
