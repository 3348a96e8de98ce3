import Railroad.Proofs.Notation.Continuation
set_option autoImplicit false

/-!
# What an error says

A text that is not read is blamed at its furthest failure, and there is one, because a rule for a
document fails only where something was missed (`Rule.Blames`). The place of the blame lies between
two characters or at the end of the text, and whatever is listed as expected there would have led on
to a text that is read (`exists_continuation_of_parse_error`).
-/

namespace Railroad.Notation

open Computability Rule Written

/-! ## Failures of rules that do not match -/

/-- Where the rule does not match, a failure says why. -/
def Rule.Blames {α : Type} (rule : Rule α) : Prop :=
  ∀ c, rule.Fails c → ∃ offset expected, .failed offset expected ∈ (rule c).events

namespace Rule.Blames

variable {α β : Type} {rule other : Rule α}

/-- A rule that never fails needs no failure to be blamed on. -/
theorem of_not_fails (h : ∀ c, ¬ rule.Fails c) : rule.Blames := fun c hf => absurd hf (h c)

theorem literal (text : String) : (literal text).Blames := by
  intro c hf
  refine ⟨c.offset, .literal text, ?_⟩
  unfold Fails Rule.literal at hf
  unfold Rule.literal
  split at hf
  · cases hf
  next => simp [fail]

theorem expecting (expected : Expected) (rule : Rule α) : (expecting expected rule).Blames := by
  intro c hf
  refine ⟨c.offset, expected, ?_⟩
  rcases hr : rule c with ⟨outcome, events⟩
  cases outcome with
  | mismatch => simp [Rule.expecting, hr, fail]
  | matched a d => simp [Fails, Rule.expecting, hr] at hf
  | tooDeep offset => simp [Fails, Rule.expecting, hr] at hf

/-- A sequence fails where one of its rules does, which has recorded a failure by then. -/
theorem bind {next : α → Rule β} (h : rule.Blames) (k : ∀ a, (next a).Blames) :
    (rule >>= next).Blames := by
  intro c hf
  rcases fails_bind.1 hf with hr | ⟨a, d, hm, hn⟩
  · rw [bind_of_fails hr]
    exact h c hr
  · obtain ⟨offset, expected, hmem⟩ := k a d hn
    rw [bind_of_matches hm]
    exact ⟨offset, expected, List.mem_append_right _ hmem⟩

theorem map (f : α → β) (h : rule.Blames) : (f <$> rule).Blames := by
  rw [map_eq_bind]
  exact h.bind fun a => .of_not_fails fun _ => fails_pure

/-- Alternatives fail only if the first one does. -/
theorem orElse_left (h : rule.Blames) : (rule <|> other).Blames := by
  intro c hf
  obtain ⟨hr, -⟩ := fails_orElse.1 hf
  obtain ⟨offset, expected, hmem⟩ := h c hr
  rw [orElse_of_fails hr]
  exact ⟨offset, expected, List.mem_append_left _ hmem⟩

/-- They fail only if the second one does as well. -/
theorem orElse_right (k : other.Blames) : (rule <|> other).Blames := by
  intro c hf
  obtain ⟨hr, ho⟩ := fails_orElse.1 hf
  obtain ⟨offset, expected, hmem⟩ := k c ho
  rw [orElse_of_fails hr]
  exact ⟨offset, expected, List.mem_append_right _ hmem⟩

theorem pure (a : α) : (Pure.pure a : Rule α).Blames := .of_not_fails fun _ => fails_pure

theorem here : Rule.here.Blames := .of_not_fails fun _ => fails_here

/-- Layout may be empty, so that it cannot be missed. -/
theorem skip (breaks : Bool) : (skip breaks).Blames := .of_not_fails fun _ => not_fails_skip

/-- A repetition may be empty. -/
theorem many (rule : Rule α) : (many rule).Blames := .of_not_fails fun _ => fails_many

end Rule.Blames

/-- A name that is missed is recorded as expected. -/
theorem blames_name : name.Blames :=
  Blames.here.bind fun _ => (Blames.expecting _ _).bind fun _ => Blames.here.bind fun _ => .pure _

/-- An item that is missed leaves a failure: a name could stand there, which is attempted first. -/
theorem blames_item (depth : Nat) : (item depth).Blames := by
  rw [item_eq]
  exact Blames.here.bind fun _ => (Blames.orElse_left (blames_name.map _)).bind fun _ =>
    (Blames.of_not_fails fun _ => fails_perhaps).bind fun _ => Blames.here.bind fun _ => .pure _

/-- A production that is missed leaves a failure. -/
theorem blames_production {item : Rule Item} (h : item.Blames) : (production item).Blames := by
  have hbranch : (branch item).Blames := Blames.here.bind fun _ => h.bind fun _ =>
    .orElse_right ((Blames.many _).bind fun _ => Blames.here.bind fun _ => .pure _)
  have hchoice : (choice item).Blames := Blames.here.bind fun _ => hbranch.bind fun _ =>
    (Blames.many _).bind fun _ => Blames.here.bind fun _ => .pure _
  -- a choice that fails says why, so the link that was tried in its place need not
  have hdefinition : (definition item).Blames := .orElse_right (hchoice.map _)
  exact (Blames.skip _).bind fun _ => Blames.here.bind fun _ => blames_name.bind fun _ =>
    (Blames.skip _).bind fun _ => (Blames.literal _).bind fun _ => (Blames.skip _).bind fun _ =>
      hdefinition.bind fun _ => Blames.here.bind fun _ => .pure _

/-- A text that is not read has left a failure. -/
theorem blames_document {item : Rule Item} (h : item.Blames) : (document item).Blames :=
  (Blames.skip _).bind fun _ => (blames_production h).bind fun _ => (Blames.many _).bind fun _ =>
    (Blames.skip _).bind fun _ => (Blames.expecting _ _).bind fun _ => .pure _

/-! ## The furthest failure -/

instance : Std.LawfulEqCmp Expected.compare where
  compare_self := by
    intro a
    cases a <;> simp [Expected.compare, Expected.rank]
  eq_of_compare := by
    intro a b h
    cases a <;> cases b <;> simp_all [Expected.compare, Expected.rank]

namespace Event

/-- The failures of some events are those among them that are failures. -/
theorem mem_failures {offset : Nat} {expected : Expected} {events : List Event} :
    (offset, expected) ∈ failures events ↔ .failed offset expected ∈ events := by
  induction events with
  | nil => simp [failures]
  | cons e rest ih => cases e <;> simp [failures, ih]

theorem foldl_max_mem (n : Nat) (offsets : List Nat) : offsets.foldl max n ∈ n :: offsets := by
  induction offsets generalizing n with
  | nil => simp
  | cons m offsets ih =>
      rw [List.foldl_cons]
      rcases List.mem_cons.1 (ih (max n m)) with h | h
      · rw [h]
        rcases max_choice n m with hmax | hmax <;> simp [hmax]
      · exact List.mem_cons_of_mem n (List.mem_cons_of_mem m h)

/-- If there are failures, one of them lies furthest. -/
theorem exists_failed_furthest {offset : Nat} {expected : Expected} {events : List Event}
    (h : .failed offset expected ∈ events) :
    ∃ expected, .failed (furthest events) expected ∈ events := by
  have hmem : furthest events ∈ (failures events).map Prod.fst := by
    obtain ⟨first, rest, hoffsets⟩ := List.exists_cons_of_ne_nil
      (List.ne_nil_of_mem (List.mem_map_of_mem (f := Prod.fst) (mem_failures.2 h)))
    rw [furthest, hoffsets, List.foldl_cons, Nat.zero_max]
    exact foldl_max_mem first rest
  obtain ⟨⟨_, expected⟩, hfailed, rfl⟩ := List.mem_map.1 hmem
  exact ⟨expected, mem_failures.1 hfailed⟩

/-- What is expected at an offset is what failures there have recorded. -/
theorem mem_expectedAt {offset : Nat} {expected : Expected} {events : List Event} :
    expected ∈ expectedAt offset events ↔ .failed offset expected ∈ events := by
  rw [expectedAt, Ascending.mem_ofList, ← mem_failures]
  simp

end Event

/-! ## Errors -/

/-- A text is read without error. -/
def IsRead (cs : List Char) : Prop := ∃ v, parse (String.ofList cs) = .ok v

/-- A text begins one that is read without error. -/
def BeginsRead (cs : List Char) : Prop := ∃ rest, IsRead (cs ++ rest)

/-- A text is read if it is one of the notation. -/
theorem isRead_iff {cs : List Char} :
    IsRead cs ↔ cs ∈ Written.document (itemWithin maxNesting) := by
  simp only [IsRead, parse_eq_ok_iff, String.toList_ofList, Document.exists_spelled_iff]

/-- The beginnings of texts that are read are those of texts of the notation. -/
theorem beginsRead_iff {cs : List Char} :
    BeginsRead cs ↔ cs ∈ beginnings (Written.document (itemWithin maxNesting)) := by
  simp only [BeginsRead, isRead_iff]
  rfl

/-- A text that is not read for another reason than its nesting has been tried in vain to its
end. -/
theorem fails_of_parse_error {text : String} {e : SyntaxError} (h : parse text = .error e)
    (hcause : e.cause ≠ .nestedTooDeeply) :
    (document (item maxNesting)).Fails ⟨text.toList, 0⟩ ∧
      e = .ofEvents text.toList (run maxNesting text.toList).events := by
  unfold parse conclude at h
  split at h
  · cases h
  next hmismatch => exact ⟨hmismatch, (Except.error.inj h).symm⟩
  next => exact absurd (by rw [← Except.error.inj h]; rfl) hcause

/-- An expectation leads on from a text if a text that it stands for goes on to one that is read.
Where the end of the text is expected, the text itself is read. -/
def Expected.LeadsOn (before : List Char) (expected : Expected) : Prop :=
  (∃ w ∈ expected.texts, BeginsRead (before ++ w)) ∧ (expected = .endOfText → IsRead before)

/-- Wherever the reading of a text fails, what lies in front of the failure begins a text that is
read, and what was expected leads on from there, unless as many groups are open as may be. -/
theorem leadsOn_of_failed {text : List Char} {earlier later : List Event} {offset : Nat}
    {expected : Expected} (h : (run maxNesting text).events =
      earlier ++ .failed offset expected :: later) :
    ∃ before, before <+: text ∧ offset = Text.byteLength before ∧ BeginsRead before ∧
      (expected.LeadsOn before ∨
        expected = .literal "(" ∧ Event.openAfter 0 earlier = maxNesting) := by
  have heach := Event.each_iff.1
    (each_document (reads_item maxNesting) ⟨_, letter_mem_itemWithin _⟩ ⟨text, 0⟩ 0) _ _ _ _ h
  simp only [Cursor.Foresees, Nat.zero_add, ← beginsRead_iff, ← isRead_iff] at heach
  -- the failure is that of something that could come, of a group too many, or of the end of the
  -- text
  rcases heach with ⟨before, hbefore, hoffset, ⟨hend, w, hw, hahead⟩ | ⟨hparen, hopen, hahead⟩⟩ |
    ⟨rfl, before, hread, hbefore, hoffset⟩
  · refine ⟨before, hbefore, hoffset, ?_, .inl ⟨⟨w, hw, hahead⟩, fun he => absurd he hend⟩⟩
    obtain ⟨rest, hrest⟩ := hahead
    exact ⟨w ++ rest, by rwa [← List.append_assoc]⟩
  · exact ⟨before, hbefore, hoffset, hahead, .inr ⟨hparen, hopen⟩⟩
  · have hbegins : BeginsRead (before ++ []) := ⟨[], by rwa [List.append_nil, List.append_nil]⟩
    exact ⟨before, hbefore, hoffset, by rwa [List.append_nil] at hbegins,
      .inl ⟨⟨[], rfl, hbegins⟩, fun _ => hread⟩⟩

/-- An error that lies between two characters names the second one, and one at the end of the text
says so. -/
theorem cause_ofEvents {text before after : List Char} {events : List Event}
    (htext : text = before ++ after) (h : Event.furthest events = Text.byteLength before) :
    after = [] ∧ (SyntaxError.ofEvents text events).cause = .prematureEnd ∧
        (SyntaxError.ofEvents text events).position = Text.byteLength text ∨
      ∃ found rest, after = found :: rest ∧
        (SyntaxError.ofEvents text events).cause = .unexpected found ∧
        (SyntaxError.ofEvents text events).position < Text.byteLength text := by
  -- what stands at the furthest failure is what stands behind the text in front of it
  have hfound : Text.charAt? (Event.furthest events) text = after.head? := by
    rw [h, htext, Text.charAt?_byteLength_append]
  have hposition : (SyntaxError.ofEvents text events).position = Text.byteLength before := h
  rw [hposition, htext, Text.byteLength_append, ← htext]
  cases after with
  | nil => exact .inl ⟨rfl, by simp [SyntaxError.ofEvents, hfound], rfl⟩
  | cons found rest =>
      refine .inr ⟨found, rest, rfl, by simp [SyntaxError.ofEvents, hfound], ?_⟩
      have hsize := found.utf8Size_pos
      rw [Text.byteLength_cons]
      omega

/-- A text that is not read for another reason than its nesting is blamed between two characters, of
which the second is named, or at its end. What lies in front of that place begins a text that is
read. Something is expected there, and everything expected leads on, except for a parenthesis that
was only missed where as many groups were open as may be. -/
theorem exists_continuation_of_parse_error {text : String} {e : SyntaxError}
    (h : parse text = .error e) (hcause : e.cause ≠ .nestedTooDeeply) :
    ∃ before after, text.toList = before ++ after ∧ e.span = .point (Text.byteLength before) ∧
      (after = [] ∧ e.cause = .prematureEnd ∧ e.position = Text.byteLength text.toList ∨
        ∃ found rest, after = found :: rest ∧ e.cause = .unexpected found ∧
          e.position < Text.byteLength text.toList) ∧
      BeginsRead before ∧ e.expected ≠ [] ∧
      ∀ expected ∈ e.expected, expected.LeadsOn before ∨
        expected = .literal "(" ∧ ∀ earlier later,
          (run maxNesting text.toList).events =
            earlier ++ .failed e.position expected :: later →
              Event.openAfter 0 earlier = maxNesting := by
  obtain ⟨hfails, rfl⟩ := fails_of_parse_error h hcause
  obtain ⟨_, _, hfailed⟩ := blames_document (blames_item maxNesting) _ hfails
  obtain ⟨expected, hfurthest⟩ := Event.exists_failed_furthest hfailed
  obtain ⟨earlier, later, hevents⟩ := List.append_of_mem hfurthest
  obtain ⟨before, hbefore, hlength, hbegins, -⟩ := leadsOn_of_failed hevents
  obtain ⟨after, htext⟩ := id hbefore
  refine ⟨before, after, htext.symm, congrArg Span.point hlength,
    cause_ofEvents htext.symm hlength, hbegins, ?_, ?_⟩
  · exact List.ne_nil_of_mem (Event.mem_expectedAt.2 hfurthest)
  · -- all failures at the furthest offset lie behind the same text
    have hall : ∀ expected earlier later, (run maxNesting text.toList).events =
        earlier ++ .failed (Event.furthest (run maxNesting text.toList).events) expected :: later →
          expected.LeadsOn before ∨
            expected = .literal "(" ∧ Event.openAfter 0 earlier = maxNesting := by
      intro expected earlier later hevents
      obtain ⟨before', hbefore', hlength', -, hleads⟩ := leadsOn_of_failed hevents
      obtain rfl := Text.eq_of_byteLength_eq hbefore hbefore' (hlength.symm.trans hlength')
      exact hleads
    intro expected hexpected
    by_cases hleads : expected.LeadsOn before
    · exact .inl hleads
    · obtain ⟨earlier, later, hevents⟩ := List.append_of_mem (Event.mem_expectedAt.1 hexpected)
      refine .inr ⟨((hall _ _ _ hevents).resolve_left hleads).1, fun earlier later hevents => ?_⟩
      exact ((hall _ _ _ hevents).resolve_left hleads).2

/-- Behind the bar another alternative is missed, and the character of two bytes counts twice. -/
theorem exists_continuation_of_parse_error_accented : ∃ e, parse "A ::= ('é' | )" = .error e ∧
    e.cause = .unexpected ')' ∧ e.position = 14 ∧ .literal "(" ∈ e.expected ∧
      ∃ before after, "A ::= ('é' | )".toList = before ++ after ∧ BeginsRead before ∧
        ∀ expected ∈ e.expected, expected.LeadsOn before ∨
          expected = .literal "(" ∧ ∀ earlier later,
            (run maxNesting "A ::= ('é' | )".toList).events =
              earlier ++ .failed e.position expected :: later →
                Event.openAfter 0 earlier = maxNesting := by
  have hreport : (((parse "A ::= ('é' | )").map fun _ => ()).mapError fun e =>
      (e.cause, e.position, decide (.literal "(" ∈ e.expected))) =
      .error (.unexpected ')', 14, true) := by decide +kernel
  cases h : parse "A ::= ('é' | )" with
  | ok v =>
      rw [h] at hreport
      cases hreport
  | error e =>
      rw [h] at hreport
      have hparts := Except.error.inj hreport
      simp only [Prod.mk.injEq, decide_eq_true_eq] at hparts
      obtain ⟨hcause, hposition, hparen⟩ := hparts
      obtain ⟨before, after, htext, -, -, hbegins, -, hleads⟩ :=
        exists_continuation_of_parse_error h (by rw [hcause]; simp)
      exact ⟨e, rfl, hcause, hposition, hparen, before, after, htext, hbegins, hleads⟩

end Railroad.Notation
