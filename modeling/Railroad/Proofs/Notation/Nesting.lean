import Railroad.Proofs.Notation.Acceptance
import Railroad.Proofs.Notation.Congruence
set_option autoImplicit false

/-!
# The limit of nesting

Groups may be nested in each other only so deeply (`maxNesting`). The rule for items that knows no
such limit (`unlimitedItem`) is the one that allows as many groups as there are characters left, and
it is what the rule for items would be if groups could simply contain choices again
(`unlimitedItem_eq`). A limited reading does the same as the unlimited one up to where the unlimited
one opens a group too many, and is refused there (`Run.Cut`). Up to that point the events tell how
many groups are open (`Event.openAfter`), because every group that is opened is closed again before
anything outside it goes on (`Rule.Orderly`). So the limit shows only in texts that exceed it
(`parse_eq_unlimited`).
-/

namespace Railroad.Notation

open Rule

/-! ## Open groups -/

namespace Event

/-- How many groups are open after an event, if `n` are open before it. -/
def groupsAfter (n : Nat) : Event → Nat
  | .failed _ _ => n
  | .opened _ => n + 1
  | .closed => n - 1

/-- How many groups are open after some events, if `n` are open before them. -/
def openAfter (n : Nat) (events : List Event) : Nat := events.foldl groupsAfter n

/-- The greatest number of groups that are open at once during some events, if `n` are open before
them. -/
def mostOpen (n : Nat) : List Event → Nat
  | [] => n
  | e :: rest => max n (mostOpen (e.groupsAfter n) rest)

@[simp] theorem openAfter_nil (n : Nat) : openAfter n [] = n := rfl

@[simp] theorem openAfter_cons (n : Nat) (e : Event) (rest : List Event) :
    openAfter n (e :: rest) = openAfter (e.groupsAfter n) rest := rfl

@[simp] theorem openAfter_append (n : Nat) (xs ys : List Event) :
    openAfter n (xs ++ ys) = openAfter (openAfter n xs) ys := List.foldl_append

/-- The groups that are open at the start count. -/
theorem le_mostOpen (n : Nat) (events : List Event) : n ≤ mostOpen n events := by
  cases events with
  | nil => exact Nat.le_refl n
  | cons e rest => exact Nat.le_max_left _ _

/-- The most groups are open either during the first events or during the others, which begin with
the groups that the first leave open. -/
theorem mostOpen_append (n : Nat) (xs ys : List Event) :
    mostOpen n (xs ++ ys) = max (mostOpen n xs) (mostOpen (openAfter n xs) ys) := by
  induction xs generalizing n with
  | nil =>
      have hle := le_mostOpen n ys
      simp only [List.nil_append, mostOpen, openAfter_nil]
      omega
  | cons e xs ih => simp only [List.cons_append, mostOpen, openAfter_cons, ih, Nat.max_assoc]

/-- Failures leave the groups as they are. -/
theorem openAfter_of_failed {events : List Event}
    (h : ∀ e ∈ events, ∃ offset expected, e = .failed offset expected) (n : Nat) :
    openAfter n events = n ∧ mostOpen n events = n := by
  induction events with
  | nil => exact ⟨rfl, rfl⟩
  | cons e rest ih =>
      obtain ⟨hopen, hmost⟩ := ih fun a ha => h a (List.mem_cons_of_mem e ha)
      obtain ⟨offset, expected, rfl⟩ := h e (by simp)
      exact ⟨hopen, by rw [mostOpen, groupsAfter, hmost, Nat.max_self]⟩

end Event

/-! ## Orderly attempts -/

/-- A character stands at an offset in what is left of a text. -/
def Cursor.Shows (c : Cursor) (offset : Nat) (a : Char) : Prop :=
  ∃ before after, c.rest = before ++ a :: after ∧ offset = c.offset + Text.byteLength before

/-- What is shown behind some characters is shown in front of them as well. -/
theorem Cursor.Passes.shows {c d : Cursor} {taken : List Char} (hp : c.Passes taken d)
    {offset : Nat} {a : Char} (h : d.Shows offset a) : c.Shows offset a := by
  obtain ⟨before, after, hrest, rfl⟩ := h
  refine ⟨taken ++ before, after, ?_, ?_⟩
  · rw [hp.1, hrest, List.append_assoc]
  · rw [hp.2, Text.byteLength_append, Nat.add_assoc]

namespace Rule

variable {α β : Type} {rule rule' : Rule α} {c d : Cursor}

/-- The attempt at a place comes to an end without a refusal, and what it takes lies between the
places where it begins and ends. Every group is opened at a parenthesis, and no group stays open. -/
structure OrderlyAt (rule : Rule α) (c : Cursor) : Prop where
  ends : rule.Fails c ∨ ∃ a d taken, rule.Matches c a d ∧ c.Passes taken d
  shows : ∀ offset, .opened offset ∈ (rule c).events → c.Shows offset '('
  balanced : ∀ n, Event.openAfter n (rule c).events = n

/-- All attempts at the rule are orderly. -/
def Orderly (rule : Rule α) : Prop := ∀ c, rule.OrderlyAt c

/-- A rule that has nothing to do with groups records failures only, so that there are no groups to
be closed. -/
theorem Flat.orderly (h : rule.Flat) : rule.Orderly := fun c => {
  ends := h.ends c
  shows := by
    intro offset ho
    obtain ⟨_, _, heq⟩ := h.failed c _ ho
    cases heq
  balanced := fun n => (Event.openAfter_of_failed (h.failed c) n).1 }

/-- An orderly attempt refuses nothing. -/
theorem OrderlyAt.ne_tooDeep (h : rule.OrderlyAt c) (offset : Nat) :
    (rule c).outcome ≠ .tooDeep offset := by
  intro ht
  rcases h.ends with hf | ⟨a, d, _, hm, -⟩
  · rw [Fails, ht] at hf
    cases hf
  · rw [Matches, ht] at hm
    cases hm

theorem OrderlyAt.passes (h : rule.OrderlyAt c) {a : α} (hm : rule.Matches c a d) :
    ∃ taken, c.Passes taken d := by
  rcases h.ends with hf | ⟨b, e, taken, hm', hp⟩
  · exact absurd hf hm.not_fails
  · obtain ⟨-, rfl⟩ := hm.unique hm'
    exact ⟨taken, hp⟩

/-- Two orderly attempts one after the other are orderly: the second begins with the groups closed
that the first has opened. -/
theorem OrderlyAt.bind {next : α → Rule β} (h : rule.OrderlyAt c)
    (k : ∀ a d taken, rule.Matches c a d → c.Passes taken d → (next a).OrderlyAt d) :
    (rule >>= next).OrderlyAt c := by
  refine ⟨ends_bind h.ends fun a d taken hm hp => (k a d taken hm hp).ends, ?_, ?_⟩
  -- a group is opened in one of the two rules, and the second looks at a part of what is left
  · intro offset ho
    rcases h.ends with hf | ⟨a, d, taken, hm, hp⟩
    · rw [bind_of_fails hf] at ho
      exact h.shows offset ho
    · rw [bind_of_matches hm] at ho
      rcases List.mem_append.1 ho with ho | ho
      · exact h.shows offset ho
      · exact hp.shows ((k a d taken hm hp).shows offset ho)
  -- the second rule begins with as many open groups as the first
  · intro n
    rcases h.ends with hf | ⟨a, d, taken, hm, hp⟩
    · rw [bind_of_fails hf, h.balanced]
    · rw [bind_of_matches hm, Event.openAfter_append, h.balanced, (k a d taken hm hp).balanced]

/-- So are two alternatives, whether or not the second one is attempted. -/
theorem OrderlyAt.orElse {other : Rule α} (h : rule.OrderlyAt c) (k : other.OrderlyAt c) :
    (rule <|> other).OrderlyAt c := by
  refine ⟨ends_orElse h.ends k.ends, ?_, ?_⟩
  -- the second alternative is attempted at the same place
  · intro offset ho
    by_cases hf : rule.Fails c
    · rw [orElse_of_fails hf] at ho
      rcases List.mem_append.1 ho with ho | ho
      · exact h.shows offset ho
      · exact k.shows offset ho
    · rw [orElse_of_not_fails hf] at ho
      exact h.shows offset ho
  · intro n
    by_cases hf : rule.Fails c
    · rw [orElse_of_fails hf, Event.openAfter_append, h.balanced, k.balanced]
    · rw [orElse_of_not_fails hf, h.balanced]

/-- Whether attempts are orderly is seen in the attempts alone. -/
theorem OrderlyAt.congr (h : rule.OrderlyAt c) (hrun : rule' c = rule c) : rule'.OrderlyAt c := by
  obtain ⟨hends, hshows, hbalanced⟩ := h
  refine ⟨?_, ?_, ?_⟩
  · simpa only [Fails, Matches, hrun] using hends
  · rwa [hrun]
  · rwa [hrun]

/-- What happens in a group happens between its being opened and closed. -/
theorem OrderlyAt.events_inside (h : rule.OrderlyAt c) (offset : Nat) :
    (inside offset rule c).events = [.opened offset] ++ (rule c).events ++ [.closed] := by
  rcases hr : rule c with ⟨outcome, events⟩
  cases outcome with
  | matched a d => simp only [inside, hr]; rfl
  | mismatch => simp only [inside, hr]; rfl
  | tooDeep o => exact absurd (by rw [hr]) (h.ne_tooDeep o)

/-- A group is orderly if what stands behind its parenthesis is. -/
theorem OrderlyAt.inside {whole : Rule α} (h : rule.OrderlyAt d) (hp : c.Passes ['('] d)
    (hrun : whole c = inside c.offset rule d) : whole.OrderlyAt c := by
  refine ⟨?_, ?_, ?_⟩
  -- what is recorded on the way does not change how the attempt ends
  · have hfails : whole.Fails c ↔ rule.Fails d := by rw [Fails, hrun]; exact fails_inside
    have hmatches : ∀ a e, whole.Matches c a e ↔ rule.Matches d a e := by
      intro a e
      rw [Matches, hrun]
      exact matches_inside
    rcases h.ends with hf | ⟨a, e, taken, hm, hq⟩
    · exact .inl (hfails.2 hf)
    · exact .inr ⟨a, e, _, (hmatches a e).2 hm, hp.trans hq⟩
  -- the group itself is opened at its parenthesis, the others behind it
  · intro offset ho
    rw [hrun, h.events_inside] at ho
    rcases List.mem_append.1 ho with ho | ho
    · rcases List.mem_append.1 ho with ho | ho
      · obtain rfl : offset = c.offset := by simpa using ho
        exact ⟨[], d.rest, hp.1, rfl⟩
      · exact hp.shows (h.shows offset ho)
    · simp at ho
  · intro n
    rw [hrun, h.events_inside, Event.openAfter_append, Event.openAfter_append, h.balanced _]
    -- one group more is open inside, and it is closed again
    show n + 1 - 1 = n
    omega

end Rule

/-! ## Items without a limit -/

/-- Two rules do the same, and that in an orderly way, wherever at most `n` characters are left. -/
def Rule.Agree (n : Nat) (α : Type) (rule rule' : Rule α) : Prop :=
  ∀ c, c.rest.length ≤ n → rule.OrderlyAt c ∧ rule' c = rule c

/-- Agreement with at most `n` characters left is kept by the means of which rules are made, since
no rule goes back in the text. -/
theorem congruence_agree (n : Nat) : Congruence (Agree n) where
  flat h c _ := ⟨h.orderly c, rfl⟩
  bind := by
    intro α β rule rule' next next' h k c hc
    obtain ⟨horderly, hrun⟩ := h c hc
    -- behind a match at most as many characters are left
    have hnext : ∀ a d taken, rule.Matches c a d → c.Passes taken d →
        (next a).OrderlyAt d ∧ next' a d = next a d := by
      intro a d taken _ hp
      refine k a d ?_
      rw [hp.length] at hc
      omega
    refine ⟨horderly.bind fun a d taken hm hp => (hnext a d taken hm hp).1, ?_⟩
    show Rule.bind rule' next' c = Rule.bind rule next c
    rcases hr : rule c with ⟨outcome, events⟩
    rw [hr] at hrun
    cases outcome with
    | matched a d =>
        have hm : rule.Matches c a d := by rw [Matches, hr]
        obtain ⟨taken, hp⟩ := horderly.passes hm
        simp only [Rule.bind, hr, hrun, (hnext a d taken hm hp).2]
    | mismatch => simp only [Rule.bind, hr, hrun]
    | tooDeep offset => simp only [Rule.bind, hr, hrun]
  orElse := by
    intro α rule rule' other other' h k c hc
    obtain ⟨horderly, hrun⟩ := h c hc
    obtain ⟨horderly', hrun'⟩ := k c hc
    refine ⟨horderly.orElse horderly', ?_⟩
    show Rule.orElse rule' other' c = Rule.orElse rule other c
    simp only [Rule.orElse, hrun, hrun']
  point h c hc := ⟨(h c.rest c hc).1.congr rfl, (h c.rest c hc).2⟩

/-- Groups agree where one character more is left than the choices in them need to agree. -/
theorem agree_group {n : Nat} {choice choice' : Rule Choice} (h : Agree n _ choice choice') :
    Agree (n + 1) _ (group choice) (group choice') := by
  intro c hc
  by_cases hparen : ['('] <+: c.rest
  · obtain ⟨rest, hrest⟩ := hparen
    have hp : c.Passes ['('] (c.after ['('] rest) := .after c hrest.symm
    -- behind the parenthesis one character less is left
    have hlength := hp.length
    rw [List.length_singleton] at hlength
    obtain ⟨horderly, hrun⟩ := (congruence_agree n).groupRest h (c.after ['('] rest) (by omega)
    refine ⟨horderly.inside hp (group_of_paren hrest.symm), ?_⟩
    rw [group_of_paren hrest.symm, group_of_paren hrest.symm]
    simp only [inside, hrun]
  · refine ⟨((Flat.fail _).orderly c).congr (group_of_not_paren hparen), ?_⟩
    rw [group_of_not_paren hparen, group_of_not_paren hparen]

theorem Rule.Orderly.agree {α : Type} {rule : Rule α} (h : rule.Orderly) (n : Nat) :
    Agree n α rule rule := fun c _ => ⟨h c, rfl⟩

theorem Rule.Orderly.groupRest {choice : Rule Choice} (h : choice.Orderly) :
    (groupRest choice).Orderly :=
  fun c => ((congruence_agree _).groupRest (h.agree c.rest.length) c (Nat.le_refl _)).1

theorem Rule.Orderly.group {choice : Rule Choice} (h : choice.Orderly) : (group choice).Orderly :=
  fun c => (agree_group (h.agree c.rest.length) c (Nat.le_succ _)).1

theorem Rule.Orderly.choice {item : Rule Item} (h : item.Orderly) : (choice item).Orderly :=
  fun c => ((congruence_agree _).choice (h.agree c.rest.length) c (Nat.le_refl _)).1

/-- Where no character is left, it does not matter how many groups are allowed. -/
theorem agree_groupWithin_zero (depth depth' : Nat) :
    Agree 0 _ (groupWithin depth) (groupWithin depth') := by
  intro c hc
  have hparen : ¬ ['('] <+: c.rest := by
    rw [List.eq_nil_of_length_eq_zero (Nat.le_zero.1 hc)]
    simp
  have hrun : ∀ depth, groupWithin depth c = fail (.literal "(") c
    | 0 => refusedGroup_of_not_paren hparen
    | _ + 1 => group_of_not_paren hparen
  exact ⟨((Flat.fail _).orderly c).congr (hrun depth), by rw [hrun, hrun]⟩

/-- Where at most `n` characters are left, no more than `n` groups can be nested in each other. -/
theorem agree_item {n depth depth' : Nat} (h : n ≤ depth) (h' : n ≤ depth') :
    Agree n _ (item depth) (item depth') := by
  rw [item_eq, item_eq]
  apply (congruence_agree n).item
  induction n generalizing depth depth' with
  | zero => exact agree_groupWithin_zero depth depth'
  | succ n ih =>
      -- each level of groups uses up one of the characters that are left
      obtain ⟨depth, rfl⟩ : ∃ k, depth = k + 1 := ⟨depth - 1, by omega⟩
      obtain ⟨depth', rfl⟩ : ∃ k, depth' = k + 1 := ⟨depth' - 1, by omega⟩
      have hitem : Agree n _ (itemOf (primary (groupWithin depth)))
          (itemOf (primary (groupWithin depth'))) :=
            (congruence_agree n).item (ih (by omega) (by omega))
      rw [← item_eq, ← item_eq] at hitem
      exact agree_group ((congruence_agree n).choice hitem)

/-- An item in which groups are nested as deeply as the text allows. -/
def unlimitedItem : Rule Item := fun c => item c.rest.length c

/-- An item without a limit agrees with a limited one if no more characters are left than groups are
allowed. -/
theorem agree_unlimitedItem {n depth : Nat} (h : n ≤ depth) :
    Agree n _ unlimitedItem (item depth) := by
  intro c hc
  obtain ⟨horderly, hrun⟩ := agree_item (Nat.le_refl _) (Nat.le_trans hc h) c (Nat.le_refl _)
  exact ⟨horderly.congr rfl, hrun⟩

/-- Groups contain choices again, and nothing is refused. -/
theorem unlimitedItem_eq : unlimitedItem = itemOf (primary (group (choice unlimitedItem))) := by
  funext c
  have hchoice := (congruence_agree c.rest.length).choice
    (agree_unlimitedItem (Nat.le_refl c.rest.length))
  -- a group takes at least a character, so that more groups than characters make no difference
  have hitem := (congruence_agree _).item (agree_group hchoice) c (Nat.le_succ _)
  rw [← hitem.2]
  exact (agree_item (Nat.le_refl _) (Nat.le_succ _) c (Nat.le_refl _)).2.symm

/-- Items without a limit are orderly, since they agree with limited ones that refuse nothing. -/
theorem orderly_unlimitedItem : unlimitedItem.Orderly :=
  fun c => (agree_unlimitedItem (Nat.le_refl _) c (Nat.le_refl _)).1

/-! ## Refusals -/

/-- An attempt is cut where it would open more than `limit` groups, if `n` are open before it: it is
the same up to there, and then the text is refused because of the group that is one too many. -/
inductive Run.Cut {α : Type} (limit n : Nat) (run run' : Run α) : Prop where
  | within (hmost : Event.mostOpen n run.events ≤ limit) (hsame : run' = run)
  | beyond (before : List Event) (offset : Nat) (after : List Event)
      (hevents : run.events = before ++ .opened offset :: after)
      (hopen : Event.openAfter n before = limit) (hmost : Event.mostOpen n before ≤ limit)
      (hrefused : run' = ⟨.tooDeep offset, before⟩)

/-- Events in front of an attempt, during which no group too many is opened and which leave no group
open, make no difference. -/
theorem Run.Cut.cons {α : Type} {limit n : Nat} {run run' : Run α} {events : List Event}
    (h : Run.Cut limit n run run') (hmost : Event.mostOpen n events ≤ limit)
    (hopen : Event.openAfter n events = n) :
    Run.Cut limit n ⟨run.outcome, events ++ run.events⟩ ⟨run'.outcome, events ++ run'.events⟩ := by
  -- the events in front leave as many groups open as they found
  have hmore : ∀ more, Event.mostOpen n more ≤ limit →
      Event.mostOpen n (events ++ more) ≤ limit := by
    intro more hle
    rw [Event.mostOpen_append, hopen]
    exact max_le hmost hle
  rcases h with ⟨hrun, rfl⟩ | ⟨before, offset, after, hevents, hat, hbefore, rfl⟩
  · exact .within (hmore _ hrun) rfl
  · refine .beyond (events ++ before) offset after ?_ ?_ (hmore _ hbefore) rfl
    · rw [hevents, List.append_assoc]
    · rw [Event.openAfter_append, hopen, hat]

/-- A rule whose attempts are orderly, and another rule whose attempts are the same but for being
cut where more than `limit` groups would be open, if `n` are open before. -/
def Rule.Cut (limit n : Nat) (α : Type) (rule rule' : Rule α) : Prop :=
  ∀ c, rule.OrderlyAt c ∧ Run.Cut limit n (rule c) (rule' c)

/-- Being cut is kept by the means of which rules are made. What happens behind the cut on the uncut
side makes no difference. -/
theorem congruence_cut {limit n : Nat} (hn : n ≤ limit) : Congruence (Rule.Cut limit n) where
  flat := by
    intro α rule h c
    refine ⟨h.orderly c, .within ?_ rfl⟩
    rwa [(Event.openAfter_of_failed (h.failed c) n).2]
  bind := by
    intro α β rule rule' next next' h k c
    obtain ⟨horderly, hcut⟩ := h c
    refine ⟨horderly.bind fun a d taken hm hp => (k a d).1, ?_⟩
    rcases hcut with ⟨hmost, hsame⟩ | ⟨before, offset, after, hevents, hopen, hmost, hrefused⟩
    · rcases horderly.ends with hf | ⟨a, d, -, hm, -⟩
      · have hf' : rule'.Fails c := by rwa [Fails, hsame]
        rw [bind_of_fails hf, bind_of_fails hf', hsame]
        exact .within hmost rfl
      · have hm' : rule'.Matches c a d := by rwa [Matches, hsame]
        rw [bind_of_matches hm, bind_of_matches hm', hsame]
        exact (k a d).2.cons hmost (horderly.balanced n)
    · -- what happens behind the group too many does not matter
      obtain ⟨more, hmore⟩ := events_bind rule next c
      refine .beyond before offset (after ++ more) ?_ hopen hmost ?_
      · rw [hmore, hevents, List.append_assoc, List.cons_append]
      · have ht : (rule' c).outcome = .tooDeep offset := by rw [hrefused]
        rw [bind_of_tooDeep ht, hrefused]
  orElse := by
    intro α rule rule' other other' h k c
    obtain ⟨horderly, hcut⟩ := h c
    refine ⟨horderly.orElse (k c).1, ?_⟩
    rcases hcut with ⟨hmost, hsame⟩ | ⟨before, offset, after, hevents, hopen, hmost, hrefused⟩
    · by_cases hf : rule.Fails c
      · have hf' : rule'.Fails c := by rwa [Fails, hsame]
        rw [orElse_of_fails hf, orElse_of_fails hf', hsame]
        exact (k c).2.cons hmost (horderly.balanced n)
      -- the first alternative is not cut, and the second is attempted on both sides or on neither
      · have hf' : ¬ rule'.Fails c := by rwa [Fails, hsame]
        rw [orElse_of_not_fails hf, orElse_of_not_fails hf', hsame]
        exact .within hmost rfl
    · obtain ⟨more, hmore⟩ := events_orElse rule other c
      have hf' : ¬ rule'.Fails c := by
        rw [Fails, hrefused]
        intro h
        cases h
      refine .beyond before offset (after ++ more) ?_ hopen hmost ?_
      · rw [hmore, hevents, List.append_assoc, List.cons_append]
      · rw [orElse_of_not_fails hf', hrefused]
  point h c := ⟨(h c.rest c).1.congr rfl, (h c.rest c).2⟩

/-- In a group, an attempt is cut with one group more open. -/
theorem Run.Cut.inside {α : Type} {limit n : Nat} {rule rule' : Rule α} {c : Cursor} {offset : Nat}
    (h : Run.Cut limit (n + 1) (rule c) (rule' c)) (horderly : rule.OrderlyAt c) :
    Run.Cut limit n (inside offset rule c) (inside offset rule' c) := by
  rcases h with ⟨hmost, hsame⟩ | ⟨before, refused, after, hevents, hopen, hmost, hrefused⟩
  · refine .within ?_ (by simp only [Rule.inside, hsame])
    -- inside one group more is open, from its parenthesis on
    have hle := Event.le_mostOpen (n + 1) (rule c).events
    rw [horderly.events_inside, Event.mostOpen_append, Event.mostOpen_append,
      Event.openAfter_append]
    simp only [Event.mostOpen, Event.openAfter_cons, Event.openAfter_nil, Event.groupsAfter,
      horderly.balanced]
    omega
  · refine .beyond (.opened offset :: before) refused (after ++ [.closed]) ?_ hopen ?_ ?_
    · rw [horderly.events_inside, hevents]
      simp only [List.append_assoc, List.cons_append, List.nil_append]
    · have hle := Event.le_mostOpen (n + 1) before
      simp only [Event.mostOpen, Event.groupsAfter]
      omega
    · simp only [Rule.inside, hrefused]

/-- Where as many groups are open as may be, every further one is refused. -/
theorem cut_refusedGroup {limit : Nat} {choice : Rule Choice} (h : choice.Orderly) :
    Rule.Cut limit limit _ (group choice) refusedGroup := by
  intro c
  refine ⟨h.group c, ?_⟩
  by_cases hparen : ['('] <+: c.rest
  -- the group opens as the first event, when as many groups are open as the limit allows
  · obtain ⟨rest, hrest⟩ := hparen
    rw [group_of_paren hrest.symm, refusedGroup_of_paren hrest.symm]
    refine .beyond [] c.offset ((groupRest choice (c.after ['('] rest)).events ++ [.closed]) ?_ rfl
      (Nat.le_refl limit) rfl
    rw [(h.groupRest _).events_inside]
    rfl
  · rw [group_of_not_paren hparen, refusedGroup_of_not_paren hparen]
    exact .within (max_le (Nat.le_refl limit) (Nat.le_refl limit)) rfl

/-- Where fewer groups are open, the choice in a group is cut with one group more open. -/
theorem cut_group {limit n : Nat} (hn : n < limit) {choice choice' : Rule Choice}
    (h : Rule.Cut limit (n + 1) _ choice choice') :
    Rule.Cut limit n _ (group choice) (group choice') := by
  intro c
  have horderly : choice.Orderly := fun d => (h d).1
  refine ⟨horderly.group c, ?_⟩
  by_cases hparen : ['('] <+: c.rest
  · obtain ⟨rest, hrest⟩ := hparen
    rw [group_of_paren hrest.symm, group_of_paren hrest.symm]
    exact ((congruence_cut hn).groupRest h _).2.inside (horderly.groupRest _)
  · rw [group_of_not_paren hparen, group_of_not_paren hparen]
    exact .within (max_le (Nat.le_of_lt hn) (Nat.le_of_lt hn)) rfl

/-- Where `n` groups are open, items in which groups may be nested `depth` deep are unlimited items
that are cut at `n + depth` open groups. -/
theorem cut_item (limit : Nat) :
    ∀ depth n, n + depth = limit → Rule.Cut limit n _ unlimitedItem (item depth) := by
  intro depth
  -- each group in which one group less may be opened is itself one more that is open
  induction depth with
  | zero =>
      intro n hn
      obtain rfl : n = limit := hn
      rw [unlimitedItem_eq, item_eq]
      exact (congruence_cut (Nat.le_refl n)).item (cut_refusedGroup orderly_unlimitedItem.choice)
  | succ depth ih =>
      intro n hn
      rw [unlimitedItem_eq, item_eq]
      have hchoice := (congruence_cut (by omega)).choice (ih (n + 1) (by omega))
      exact (congruence_cut (by omega)).item (cut_group (by omega) hchoice)

/-! ## Going on behind a refused group -/

/-- A group that mismatches behind its parenthesis where it is refused, so that the rules around it
go on. -/
def yieldingGroup (refuses : Cursor → Bool) (choice : Rule Choice) : Rule Choice := fun c =>
  if refuses c then (do literal "("; mismatch : Rule Choice) c else group choice c

/-- Items in which groups are nested at most `depth` deep, and in which groups that are refused
mismatch. Apart from the groups that are nested too deeply any others may be refused, such as all
that come after them. -/
def yieldingItem (refuses : Cursor → Bool) : Nat → Rule Item
  | 0 => itemOf (primary (yieldingGroup (fun _ => true) mismatch))
  | depth + 1 => itemOf (primary (yieldingGroup refuses (choice (yieldingItem refuses depth))))

/-- What a group takes is spelled like a group wherever it is not given up. -/
theorem sound_yieldingGroup {refuses : Cursor → Bool} {choice : Rule Choice}
    {spelled : Spelling Choice} (h : ∀ c, refuses c = false → (group choice).Sound spelled) :
    (yieldingGroup refuses choice).Sound spelled := by
  intro c d v hm
  unfold Matches yieldingGroup at hm
  split at hm
  · have hrefused : (do literal "("; mismatch : Rule Choice).Matches c v d := hm
    simp only [matches_bind, matches_mismatch, and_false, exists_false] at hrefused
  next hc => exact h c (by simpa using hc) hm

/-- Items in which groups are given up at some places still take only what is spelled like an
item. -/
theorem sound_yieldingItem (refuses : Cursor → Bool) :
    ∀ depth, (yieldingItem refuses depth).Sound (Item.SpelledWithin depth)
  | 0 => sound_itemOf (sound_primary (sound_yieldingGroup nofun))
  | depth + 1 => sound_itemOf (sound_primary (sound_yieldingGroup fun _ _ =>
      sound_group (sound_choice (sound_yieldingItem refuses depth))))

/-! ## Reading with and without the limit -/

/-- The attempt to read a text in which groups may be nested as deeply as one likes. -/
def unlimitedRun (text : List Char) : Run Document := document unlimitedItem ⟨text, 0⟩

/-- What a text shows at an offset is the character there. -/
theorem Cursor.Shows.charAt? {text : List Char} {offset : Nat} {a : Char}
    (h : Cursor.Shows ⟨text, 0⟩ offset a) : Text.charAt? offset text = some a := by
  obtain ⟨before, after, hrest, rfl⟩ := h
  obtain rfl : text = before ++ a :: after := hrest
  rw [Nat.zero_add, Text.charAt?_byteLength_append]
  rfl

/-- A text that is refused is read no better if the rules around the refused group go on. -/
theorem not_matches_of_parse_eq_error {text : String} {e : SyntaxError} (h : parse text = .error e)
    (refuses : Cursor → Bool) (v : Document) (d : Cursor) :
    ¬ (document (yieldingItem refuses maxNesting)).Matches ⟨text.toList, 0⟩ v d := by
  intro hm
  have hspelled := sound_document (sound_yieldingItem refuses maxNesting) rfl hm
  rw [parse_eq_ok_iff.2 hspelled] at h
  cases h

/-- The limit of nesting shows only in texts that exceed it. Without it no text is refused. As long
as the unlimited reading of a text opens no more groups at once than are allowed, the text is read
as without the limit. Otherwise it is refused because of the first group that is one too many, and
would not be read either if the rules around that group went on. -/
theorem parse_eq_unlimited (text : String) :
    (∀ offset, (unlimitedRun text.toList).outcome ≠ .tooDeep offset) ∧
      if Event.mostOpen 0 (unlimitedRun text.toList).events ≤ maxNesting then
        parse text = conclude text.toList (unlimitedRun text.toList)
      else ∃ before offset after,
        (unlimitedRun text.toList).events = before ++ .opened offset :: after ∧
          Event.openAfter 0 before = maxNesting ∧ Event.mostOpen 0 before ≤ maxNesting ∧
          Text.charAt? offset text.toList = some '(' ∧
          parse text = .error ⟨.nestedTooDeeply, ⟨offset, offset + 1⟩, []⟩ ∧
          ∀ refuses v d,
            ¬ (document (yieldingItem refuses maxNesting)).Matches ⟨text.toList, 0⟩ v d := by
  have hitem := cut_item maxNesting maxNesting 0 (Nat.zero_add _)
  obtain ⟨horderly, hcut⟩ :=
    (congruence_cut (Nat.zero_le maxNesting)).document hitem ⟨text.toList, 0⟩
  refine ⟨horderly.ne_tooDeep, ?_⟩
  rcases hcut with ⟨hmost, hsame⟩ | ⟨before, offset, after, hevents, hopen, hmost, hrefused⟩
  · have hparse : parse text = conclude text.toList (unlimitedRun text.toList) := by
      rw [parse, run, hsame]
      rfl
    exact (if_pos hmost).mpr hparse
  · have hmore : ¬ Event.mostOpen 0 (unlimitedRun text.toList).events ≤ maxNesting := by
      -- the group that is one too many counts as open in the unlimited reading
      have hle := Event.le_mostOpen (maxNesting + 1) after
      rw [unlimitedRun, hevents, Event.mostOpen_append, hopen]
      simp only [Event.mostOpen, Event.groupsAfter]
      omega
    have hparse : parse text = .error ⟨.nestedTooDeeply, ⟨offset, offset + 1⟩, []⟩ := by
      rw [parse, run, hrefused]
      rfl
    have hshows := horderly.shows offset (by rw [hevents]; simp)
    rw [if_neg hmore]
    exact ⟨before, offset, after, hevents, hopen, hmost, hshows.charAt?, hparse,
      not_matches_of_parse_eq_error hparse⟩

end Railroad.Notation
