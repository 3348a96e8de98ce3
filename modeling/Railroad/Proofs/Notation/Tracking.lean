import Railroad.Proofs.Notation.CheckedReader
import Railroad.Proofs.Notation.Congruence
import Railroad.Proofs.Notation.Placement
set_option autoImplicit false

/-!
# Readings without faults

A rule that is applied at byte offsets tracks a rule of the notation (`Tracks`) if it has no fault
wherever it is applied between two characters of a text, whatever has happened before, and ends
between two characters again, further on if it always takes something. As long as no group is
refused it does what the rule does, with the same events. Behind a refused group it still does so
where groups do not matter (`Run.Groupless`), and may do anything else where they do. All ways to
combine rules keep this relation, one lemma for each, and nothing but the relation is needed of the
rules that are combined.
-/

namespace Railroad

/-- Every character has at least one byte. -/
theorem Text.eq_nil_of_byteLength_eq_zero {cs : List Char} (h : Text.byteLength cs = 0) :
    cs = [] := by
  cases cs with
  | nil => rfl
  | cons c cs =>
      have hpos := c.utf8Size_pos
      rw [Text.byteLength_cons] at h
      omega

namespace Notation

/-! ## Places in a text -/

/-- The place is one between two characters of a text. -/
def Cursor.In (c : Cursor) (src : List Char) : Prop :=
  ∃ before, src = before ++ c.rest ∧ c.offset = Text.byteLength before

namespace Cursor.In

variable {src cs : List Char} {c d : Cursor}

/-- A text is in itself, at offset 0. -/
theorem start (src : List Char) : Cursor.In ⟨src, 0⟩ src := ⟨[], rfl, rfl⟩

/-- Going on in a text does not leave it. -/
theorem passes (h : c.In src) (hp : c.Passes cs d) : d.In src := by
  obtain ⟨before, hsrc, hoffset⟩ := h
  refine ⟨before ++ cs, ?_, ?_⟩
  · rw [hsrc, hp.1, List.append_assoc]
  · rw [hp.2, hoffset, Text.byteLength_append]

/-- What a rule takes lies in the text, and if it is not empty it leads further on. -/
theorem after {rest : List Char} (h : c.In src) (hrest : c.rest = cs ++ rest)
    (hne : cs ≠ []) : (c.after cs rest).In src ∧ c.offset < (c.after cs rest).offset := by
  refine ⟨h.passes (.after c hrest), ?_⟩
  have hpos : Text.byteLength cs ≠ 0 := fun hzero => hne (Text.eq_nil_of_byteLength_eq_zero hzero)
  show c.offset < c.offset + Text.byteLength cs
  omega

/-- The text from the place on can be looked at. -/
theorem restAt_bind {β : Type} (h : c.In src) (look : List Char → Except Checked.Fault β) :
    (Checked.restAt src c.offset >>= look) = look c.rest := by
  obtain ⟨before, rfl, hoffset⟩ := h
  rw [Checked.restAt, hoffset, Text.dropBytes?_byteLength_append]
  rfl

/-- A piece of the text that lies ahead can be cut out. -/
theorem textBetween_bind {β : Type} {front text rest : List Char} (h : c.In src)
    (hc : c.rest = front ++ text ++ rest) (look : List Char → Except Checked.Fault β) :
    (Checked.textBetween src (c.offset + Text.byteLength front)
      (c.offset + Text.byteLength (front ++ text)) >>= look) = look text := by
  obtain ⟨before, rfl, hoffset⟩ := h
  -- both offsets lie behind a beginning of the text, so that it can be cut there
  have hslice : Text.slice? (c.offset + Text.byteLength front)
      (c.offset + Text.byteLength (front ++ text)) (before ++ c.rest) = some text := by
    apply Text.slice?_eq_some_iff.2
    refine ⟨before ++ front, rest, ?_, ?_, ?_⟩
    · simp only [hc, List.append_assoc]
    · rw [Text.byteLength_append, hoffset]
    · rw [List.append_assoc, Text.byteLength_append before, hoffset]
  rw [Checked.textBetween, hslice]
  rfl

/-- Of two places in a text, one lies in front of the other. -/
theorem exists_passes (h : c.In src) (k : d.In src) (hle : c.offset ≤ d.offset) :
    ∃ cs, c.Passes cs d := by
  obtain ⟨before, hsrc, hc⟩ := h
  obtain ⟨before', rfl, hd⟩ := k
  rcases List.append_eq_append_iff.1 hsrc with ⟨more, rfl, hrest⟩ | ⟨more, rfl, hrest⟩
  · -- in the other order there is nothing between the two
    have hnil : more = [] := by
      apply Text.eq_nil_of_byteLength_eq_zero
      rw [Text.byteLength_append] at hc
      omega
    subst hnil
    refine ⟨[], hrest.symm, ?_⟩
    rw [hc, hd, List.append_nil, Text.byteLength_nil, Nat.add_zero]
  · refine ⟨more, hrest, ?_⟩
    rw [hd, hc, Text.byteLength_append]

/-- An offset is only once in a text. -/
theorem unique (h : c.In src) (k : d.In src) (heq : c.offset = d.offset) : c = d := by
  obtain ⟨cs, hp⟩ := h.exists_passes k (Nat.le_of_eq heq)
  have hnil : cs = [] := by
    apply Text.eq_nil_of_byteLength_eq_zero
    have hoffset := hp.2
    omega
  subst hnil
  exact Cursor.Passes.unique (.refl c) hp

/-- At a greater offset fewer characters are left. -/
theorem length_lt (h : c.In src) (k : d.In src) (hlt : c.offset < d.offset) :
    d.rest.length < c.rest.length := by
  obtain ⟨cs, hp⟩ := h.exists_passes k (Nat.le_of_lt hlt)
  have hoffset := hp.2
  rw [hp.length]
  cases cs with
  | nil =>
      rw [Text.byteLength_nil] at hoffset
      omega
  | cons a cs =>
      rw [List.length_cons]
      omega

theorem length_le (h : c.In src) : c.rest.length ≤ src.length := by
  obtain ⟨before, rfl, -⟩ := h
  rw [List.length_append]
  omega

/-- Nothing is left exactly at the offset that is the length of the text. -/
theorem rest_eq_nil_iff (h : c.In src) : c.rest = [] ↔ c.offset = Text.byteLength src := by
  obtain ⟨before, rfl, hoffset⟩ := h
  rw [Text.byteLength_append, hoffset]
  constructor
  · intro hnil
    rw [hnil, Text.byteLength_nil, Nat.add_zero]
  · intro hlength
    apply Text.eq_nil_of_byteLength_eq_zero
    omega

end Cursor.In

/-! ## Attempts without groups -/

/-- Nothing but failures happens in an attempt: no group is entered, and none is refused. -/
structure Run.Groupless {α : Type} (run : Run α) : Prop where
  ne_tooDeep : ∀ offset, run.outcome ≠ .tooDeep offset
  failed : ∀ e ∈ run.events, ∃ offset expected, e = .failed offset expected

namespace Run.Groupless

variable {α β : Type} {rule other : Rule α} {next : α → Rule β} {c d : Cursor} {a : α}

/-- If no group is opened or refused in two rules one after the other, none is in the first of
them. -/
theorem of_bind (h : ((rule >>= next) c).Groupless) : (rule c).Groupless := by
  obtain ⟨more, hmore⟩ := Rule.events_bind rule next c
  refine ⟨fun offset ht => h.ne_tooDeep offset (by rw [Rule.bind_of_tooDeep ht]),
    fun e he => h.failed e ?_⟩
  rw [hmore]
  exact List.mem_append_left _ he

/-- Nor is one in the second, behind a match of the first. -/
theorem of_bind_matches (h : ((rule >>= next) c).Groupless) (hm : rule.Matches c a d) :
    (next a d).Groupless := by
  rw [Rule.bind_of_matches hm] at h
  exact ⟨h.ne_tooDeep, fun e he => h.failed e (List.mem_append_right _ he)⟩

theorem of_orElse (h : ((rule <|> other) c).Groupless) : (rule c).Groupless := by
  by_cases hf : rule.Fails c
  · obtain ⟨more, hmore⟩ := Rule.events_orElse rule other c
    refine ⟨fun offset ht => ?_, fun e he => h.failed e ?_⟩
    · rw [Rule.Fails, ht] at hf
      cases hf
    · rw [hmore]
      exact List.mem_append_left _ he
  · rwa [Rule.orElse_of_not_fails hf] at h

/-- If no group is opened or refused in alternatives, none is in the second where the first
fails. -/
theorem of_orElse_fails (h : ((rule <|> other) c).Groupless) (hf : rule.Fails c) :
    (other c).Groupless := by
  rw [Rule.orElse_of_fails hf] at h
  exact ⟨h.ne_tooDeep, fun e he => h.failed e (List.mem_append_right _ he)⟩

end Run.Groupless

/-- What stands in a group is not read without entering the group. -/
theorem Rule.not_groupless_inside {α : Type} (rule : Rule α) (start : Nat) (c : Cursor) :
    ¬ (inside start rule c).Groupless := by
  intro h
  have hopened : .opened start ∈ (inside start rule c).events := by
    unfold inside
    split <;> simp
  obtain ⟨_, _, heq⟩ := h.failed _ hopened
  cases heq

namespace Checked

/-- The notes with some more events. -/
def Notes.extend (notes : Notes) (events : List Event) : Notes :=
  { notes with events := notes.events ++ events }

theorem Notes.extend_nil (notes : Notes) : notes.extend [] = notes := by
  rw [Notes.extend, List.append_nil]

/-- Notes about two runs of events are notes about both. -/
theorem Notes.extend_extend (notes : Notes) (events more : List Event) :
    (notes.extend events).extend more = notes.extend (events ++ more) := by
  rw [Notes.extend, Notes.extend, Notes.extend, List.append_assoc]

/-! ## Tracking -/

section Tracking

variable {α β : Type}

/-- How an attempt at a rule at byte offsets has ended, compared with a rule at a place of the
text. -/
structure Agrees (src : List Char) (strict : Bool) (c : Cursor) (rule : Rule α)
    (notes notes' : Notes) (result : Option (α × Nat)) : Prop where
  /-- All groups that were entered were left. -/
  depth : notes'.depth = notes.depth
  /-- A group that was refused before stays the first one. -/
  refused : ∀ offset, notes.refused = some offset → notes'.refused = some offset
  /-- The attempt ends between two characters, and not in front of where it began. -/
  ends : ∀ a j, result = some (a, j) →
    ∃ d : Cursor, d.In src ∧ d.offset = j ∧ c.offset ≤ j ∧ (strict = true → c.offset < j)
  matched : notes.refused = none ∨ (rule c).Groupless → ∀ a d, rule.Matches c a d →
    d.In src ∧ result = some (a, d.offset) ∧ notes' = notes.extend (rule c).events
  failed : notes.refused = none ∨ (rule c).Groupless → rule.Fails c →
    result = none ∧ notes' = notes.extend (rule c).events
  tooDeep : notes.refused = none → ∀ offset, (rule c).outcome = .tooDeep offset →
    notes'.refused = some offset

/-- At a place of a text, where `n` groups are open, a rule at byte offsets does what another rule
does. If it is strict, it takes something whenever it matches. -/
def TracksAt (src : List Char) (n : Nat) (strict : Bool) (c : Cursor) (reader : Reader α)
    (rule : Rule α) : Prop :=
  ∀ notes : Notes, notes.depth = n → ∃ result notes',
    reader src notes c.offset = .ok (result, notes') ∧ Agrees src strict c rule notes notes' result

/-- Wherever `n` groups are open, from a given offset on, a rule at byte offsets does what another
rule does. -/
def Tracks (n lo : Nat) (strict : Bool) (reader : Reader α) (rule : Rule α) : Prop :=
  ∀ ⦃src : List Char⦄ ⦃c : Cursor⦄, c.In src → lo ≤ c.offset → TracksAt src n strict c reader rule

variable {src : List Char} {n lo : Nat} {s t : Bool} {c : Cursor}

/-- A reading that takes something is one that may take nothing. -/
theorem TracksAt.weaken {reader : Reader α} {rule : Rule α} (h : TracksAt src n s c reader rule)
    (hst : t = true → s = true) : TracksAt src n t c reader rule := by
  intro notes hn
  obtain ⟨result, notes', hrun, hf⟩ := h notes hn
  refine ⟨result, notes', hrun, { hf with ends := fun a j hresult => ?_ }⟩
  obtain ⟨d, hd, hj, hle, hlt⟩ := hf.ends a j hresult
  exact ⟨d, hd, hj, hle, fun ht => hlt (hst ht)⟩

theorem Tracks.lax {reader : Reader α} {rule : Rule α} (h : Tracks n lo s reader rule) :
    Tracks n lo false reader rule := fun _ _ hc hlo => (h hc hlo).weaken nofun

/-- Tracking from the start of a text on is tracking from any offset on. -/
theorem Tracks.anywhere {reader : Reader α} {rule : Rule α} (h : Tracks n 0 s reader rule) :
    Tracks n lo s reader rule := fun _ _ hc _ => h hc (Nat.zero_le _)

/-- Only the attempt at the one place matters. -/
theorem Agrees.of_eq {rule rule' : Rule α} {notes notes' : Notes} {result : Option (α × Nat)}
    (h : Agrees src s c rule notes notes' result) (heq : rule c = rule' c) :
    Agrees src s c rule' notes notes' result where
  depth := h.depth
  refused := h.refused
  ends := h.ends
  matched hfree a d hm := by
    rw [Rule.Matches, ← heq] at hm
    rw [← heq] at hfree ⊢
    exact h.matched hfree a d hm
  failed hfree hf := by
    rw [Rule.Fails, ← heq] at hf
    rw [← heq] at hfree ⊢
    exact h.failed hfree hf
  tooDeep hnone offset hdeep := h.tooDeep hnone offset (heq ▸ hdeep)

/-- An attempt that ends where a match of the rule does. -/
theorem Agrees.of_matched {rule : Rule α} {notes : Notes} {a : α} {d : Cursor} {events : List Event}
    (h : rule c = ⟨.matched a d, events⟩) (hd : d.In src) (hle : c.offset ≤ d.offset)
    (hlt : s = true → c.offset < d.offset) :
    Agrees src s c rule notes (notes.extend events) (some (a, d.offset)) where
  depth := rfl
  refused _ h := h
  ends := by
    rintro _ _ ⟨⟩
    exact ⟨d, hd, rfl, hle, hlt⟩
  matched _ b e hm := by
    rw [Rule.Matches, h, Outcome.matched.injEq] at hm
    obtain ⟨rfl, rfl⟩ := hm
    exact ⟨hd, rfl, by rw [h]⟩
  -- one attempt ends in one way only, so that the other two cases are impossible
  failed _ hf := by
    rw [Rule.Fails, h] at hf
    cases hf
  tooDeep _ _ hdeep := by
    rw [h] at hdeep
    cases hdeep

/-- An attempt that does not match where the rule does not. -/
theorem Agrees.of_failed {rule : Rule α} {notes : Notes} {events : List Event}
    (h : rule c = ⟨.mismatch, events⟩) : Agrees src s c rule notes (notes.extend events) none where
  depth := rfl
  refused _ h := h
  ends := nofun
  matched _ b e hm := by
    rw [Rule.Matches, h] at hm
    cases hm
  failed _ _ := ⟨rfl, by rw [h]⟩
  tooDeep _ _ hdeep := by
    rw [h] at hdeep
    cases hdeep

/-- An attempt in which a group is refused. It may still match, but not as the rule does. -/
theorem Agrees.of_tooDeep {rule : Rule α} {notes notes' : Notes} {result : Option (α × Nat)}
    {offset : Nat} (h : (rule c).outcome = .tooDeep offset) (hnone : notes.refused = none)
    (hdepth : notes'.depth = notes.depth) (hrefused : notes'.refused = some offset)
    (hends : ∀ a j, result = some (a, j) →
      ∃ d : Cursor, d.In src ∧ d.offset = j ∧ c.offset ≤ j ∧ (s = true → c.offset < j)) :
    Agrees src s c rule notes notes' result where
  depth := hdepth
  refused offset hbefore := by
    rw [hnone] at hbefore
    cases hbefore
  ends := hends
  -- nothing is said about how the reading goes on, since the refusal is already noted
  matched _ a d hm := by
    rw [Rule.Matches, h] at hm
    cases hm
  failed _ hf := by
    rw [Rule.Fails, h] at hf
    cases hf
  tooDeep _ offset' hdeep := by
    rw [h, Outcome.tooDeep.injEq] at hdeep
    rw [← hdeep]
    exact hrefused

/-- Attempts that match where the rule does, without any failure on the way. -/
theorem TracksAt.of_matched {reader : Reader α} {rule : Rule α} {a : α} {d : Cursor}
    (hreader : ∀ notes, reader src notes c.offset = .ok (some (a, d.offset), notes))
    (hrule : rule c = ⟨.matched a d, []⟩) (hd : d.In src) (hle : c.offset ≤ d.offset)
    (hlt : s = true → c.offset < d.offset) : TracksAt src n s c reader rule := by
  intro notes _
  have hf : Agrees src s c rule notes (notes.extend []) (some (a, d.offset)) :=
    .of_matched hrule hd hle hlt
  rw [Notes.extend_nil] at hf
  exact ⟨_, _, hreader notes, hf⟩

/-- Attempts that do not match where the rule does not, and for the same reasons. -/
theorem TracksAt.of_failed {reader : Reader α} {rule : Rule α} (events : List Event)
    (hreader : ∀ notes, reader src notes c.offset = .ok (none, notes.extend events))
    (hrule : rule c = ⟨.mismatch, events⟩) : TracksAt src n s c reader rule :=
  fun notes _ => ⟨_, _, hreader notes, .of_failed hrule⟩

/-- A rule that matches nothing and yields a value. -/
theorem TracksAt.pure (hc : c.In src) (a : α) :
    TracksAt src n false c (Pure.pure a) (Pure.pure a) :=
  .of_matched (fun _ => rfl) rfl hc (Nat.le_refl _) nofun

theorem TracksAt.mismatch : TracksAt src n s c (Checked.mismatch : Reader α) Rule.mismatch := by
  refine .of_failed [] (fun notes => ?_) rfl
  rw [Notes.extend_nil]
  rfl

/-! ## One rule after another -/

section Bind

variable {reader : Reader α} {rule : Rule α} {next : α → Reader β} {following : α → Rule β}

/-- Where the first reading finds nothing, the second is not attempted. -/
theorem bind_of_none {notes notes' : Notes} {i : Nat}
    (h : reader src notes i = .ok (none, notes')) :
    (reader >>= next) src notes i = .ok (none, notes') := by
  show Reader.bind reader next src notes i = _
  simp only [Reader.bind, h]
  rfl

/-- Where the first reading has found something, the second goes on at the offset behind it. -/
theorem bind_of_some {notes notes' : Notes} {i j : Nat} {a : α}
    (h : reader src notes i = .ok (some (a, j), notes')) :
    (reader >>= next) src notes i = next a src notes' j := by
  show Reader.bind reader next src notes i = _
  simp only [Reader.bind, h]
  rfl

/-- Where the first rule does not match, the second has nothing to do with the attempt. -/
theorem Agrees.bind_none {notes notes' : Notes} (h : Agrees src s c rule notes notes' none) :
    Agrees src (s || t) c (rule >>= following) notes notes' none where
  depth := h.depth
  refused := h.refused
  ends := nofun
  matched hfree b e hm := by
    obtain ⟨a, d, hm, -⟩ := Rule.matches_bind.1 hm
    obtain ⟨-, hsome, -⟩ := h.matched (hfree.imp_right .of_bind) a d hm
    cases hsome
  failed hfree hf := by
    rcases Rule.fails_bind.1 hf with hf | ⟨a, d, hm, -⟩
    · obtain ⟨-, hnotes⟩ := h.failed (hfree.imp_right .of_bind) hf
      rw [Rule.bind_of_fails hf]
      exact ⟨rfl, hnotes⟩
    -- the first reading has found nothing, so that the first rule has not matched
    · obtain ⟨-, hsome, -⟩ := h.matched (hfree.imp_right .of_bind) a d hm
      cases hsome
  tooDeep hnone offset hdeep := by
    rcases Rule.attempt_cases rule c with ⟨a, d, hm⟩ | hf | ⟨offset', ht⟩
    · obtain ⟨-, hsome, -⟩ := h.matched (.inl hnone) a d hm
      cases hsome
    · rw [Rule.bind_of_fails hf] at hdeep
      cases hdeep
    · rw [Rule.bind_of_tooDeep ht, Outcome.tooDeep.injEq] at hdeep
      exact h.tooDeep hnone offset (hdeep ▸ ht)

/-- Where the first rule matches, the second is attempted behind it. -/
theorem Agrees.bind_some {notes notes' notes'' : Notes} {a : α} {d : Cursor}
    {result : Option (β × Nat)}
    (hd : d.In src) (hle : c.offset ≤ d.offset) (hlt : s = true → c.offset < d.offset)
    (h : Agrees src s c rule notes notes' (some (a, d.offset)))
    (k : Agrees src t d (following a) notes' notes'' result) :
    Agrees src (s || t) c (rule >>= following) notes notes'' result where
  depth := k.depth.trans h.depth
  refused offset hrefused := k.refused offset (h.refused offset hrefused)
  ends b j hresult := by
    obtain ⟨e, he, rfl, hle', hlt'⟩ := k.ends b j hresult
    refine ⟨e, he, rfl, Nat.le_trans hle hle', fun hst => ?_⟩
    -- one of the two rules takes something, and neither goes back
    rcases Bool.or_eq_true_iff.1 hst with hs | ht
    · have hfirst := hlt hs
      omega
    · have hsecond := hlt' ht
      omega
  matched hfree b e hm := by
    obtain ⟨a', d', hm, hn⟩ := Rule.matches_bind.1 hm
    obtain ⟨hd', hresult, rfl⟩ := h.matched (hfree.imp_right .of_bind) a' d' hm
    obtain ⟨rfl, hoffset⟩ : a = a' ∧ d.offset = d'.offset := by simpa using hresult
    -- both sides go on at the same place, since they agree on its offset
    obtain rfl := hd.unique hd' hoffset
    obtain ⟨he, hresult, hnotes⟩ := k.matched (hfree.imp_right (·.of_bind_matches hm)) b e hn
    rw [Rule.bind_of_matches hm, ← Notes.extend_extend]
    exact ⟨he, hresult, hnotes⟩
  failed hfree hf := by
    rcases Rule.fails_bind.1 hf with hf | ⟨a', d', hm, hn⟩
    · obtain ⟨hsome, -⟩ := h.failed (hfree.imp_right .of_bind) hf
      cases hsome
    · obtain ⟨hd', hresult, rfl⟩ := h.matched (hfree.imp_right .of_bind) a' d' hm
      obtain ⟨rfl, hoffset⟩ : a = a' ∧ d.offset = d'.offset := by simpa using hresult
      obtain rfl := hd.unique hd' hoffset
      obtain ⟨hresult, hnotes⟩ := k.failed (hfree.imp_right (·.of_bind_matches hm)) hn
      rw [Rule.bind_of_matches hm, ← Notes.extend_extend]
      exact ⟨hresult, hnotes⟩
  tooDeep hnone offset hdeep := by
    rcases Rule.attempt_cases rule c with ⟨a', d', hm⟩ | hf | ⟨offset', ht⟩
    · obtain ⟨hd', hresult, rfl⟩ := h.matched (.inl hnone) a' d' hm
      obtain ⟨rfl, hoffset⟩ : a = a' ∧ d.offset = d'.offset := by simpa using hresult
      obtain rfl := hd.unique hd' hoffset
      rw [Rule.bind_of_matches hm] at hdeep
      exact k.tooDeep hnone offset hdeep
    · obtain ⟨hsome, -⟩ := h.failed (.inl hnone) hf
      cases hsome
    · -- the group was refused on the way to the first match, and stays refused
      rw [Rule.bind_of_tooDeep ht, Outcome.tooDeep.injEq] at hdeep
      exact k.refused offset (h.tooDeep hnone offset (hdeep ▸ ht))

/-- The second of two rules is applied wherever the first may end. -/
theorem TracksAt.bind (h : TracksAt src n s c reader rule)
    (k : ∀ a d, d.In src → c.offset ≤ d.offset → (s = true → c.offset < d.offset) →
      TracksAt src n t d (next a) (following a)) :
    TracksAt src n (s || t) c (reader >>= next) (rule >>= following) := by
  intro notes hn
  obtain ⟨result, notes', hrun, hf⟩ := h notes hn
  cases result with
  | none => exact ⟨none, notes', bind_of_none hrun, hf.bind_none⟩
  | some found =>
      obtain ⟨a, j⟩ := found
      -- what was found ends at a place in the text, from which the second reading goes on
      obtain ⟨d, hd, rfl, hle, hlt⟩ := hf.ends a j rfl
      obtain ⟨result, notes'', hrun', hk⟩ := k a d hd hle hlt notes' (hf.depth.trans hn)
      refine ⟨result, notes'', ?_, .bind_some hd hle hlt hf hk⟩
      rw [bind_of_some hrun, hrun']

/-- Readings one after the other track rules one after the other. -/
theorem Tracks.bind (h : Tracks n lo s reader rule)
    (k : ∀ a, Tracks n lo t (next a) (following a)) :
    Tracks n lo t (reader >>= next) (rule >>= following) := by
  intro src c hc hlo
  have hboth := (h hc hlo).bind fun a d hd hle _ => k a hd (Nat.le_trans hlo hle)
  exact hboth.weaken fun ht => Bool.or_eq_true_iff.2 (.inr ht)

/-- If the first of two rules takes something, both together do. -/
theorem Tracks.bind_strict (h : Tracks n lo true reader rule)
    (k : ∀ a, Tracks n lo false (next a) (following a)) :
    Tracks n lo true (reader >>= next) (rule >>= following) := by
  intro src c hc hlo
  have hboth := (h hc hlo).bind fun a d hd hle _ => k a hd (Nat.le_trans hlo hle)
  exact hboth.weaken fun _ => Bool.or_eq_true_iff.2 (.inl rfl)

theorem Tracks.pure (a : α) : Tracks n lo false (Pure.pure a) (Pure.pure a) :=
  fun _ _ hc _ => .pure hc a

theorem Tracks.mismatch : Tracks n lo s (Checked.mismatch : Reader α) Rule.mismatch :=
  fun _ _ _ _ => .mismatch

/-- Changing the value on both sides keeps the offsets and the notes. -/
theorem TracksAt.map (f : α → β) (h : TracksAt src n s c reader rule) :
    TracksAt src n s c (f <$> reader) (f <$> rule) := by
  rw [Rule.map_eq_bind]
  have hboth := h.bind fun a d hd _ _ => (TracksAt.pure hd (f a) : TracksAt src n false d _ _)
  exact hboth.weaken fun hs => Bool.or_eq_true_iff.2 (.inl hs)

theorem Tracks.map (f : α → β) (h : Tracks n lo s reader rule) :
    Tracks n lo s (f <$> reader) (f <$> rule) :=
  fun _ _ hc hlo => (h hc hlo).map f

/-- What follows the question for the offset is applied at that offset or behind it. -/
theorem Tracks.here_bind {f : Nat → Reader α} {g : Nat → Rule α}
    (h : ∀ start, Tracks n start s (f start) (g start)) :
    Tracks n lo s (Checked.here >>= f) (Rule.here >>= g) := by
  intro src c hc _ notes hn
  obtain ⟨result, notes', hrun, hf⟩ := h c.offset hc (Nat.le_refl _) notes hn
  exact ⟨result, notes', (bind_of_some rfl).trans hrun, hf.of_eq rfl⟩

/-- A span that reaches from where a rule began to the current offset ends behind its start. -/
theorem Tracks.spanFrom_bind {start : Nat} {f : Span → Reader α} {g : Nat → Rule α}
    (hstart : start ≤ lo) (h : ∀ stop, Tracks n lo s (f ⟨start, stop⟩) (g stop)) :
    Tracks n lo s (Checked.spanFrom start >>= f) (Rule.here >>= g) := by
  intro src c hc hlo notes hn
  obtain ⟨result, notes', hrun, hf⟩ := h c.offset hc hlo notes hn
  have hspan : Checked.spanFrom start src notes c.offset =
      .ok (some (⟨start, c.offset⟩, c.offset), notes) := by
    rw [Checked.spanFrom, spanBetween, Span.ofBounds, if_neg (by omega)]
    rfl
  exact ⟨result, notes', (bind_of_some hspan).trans hrun, hf.of_eq rfl⟩

end Bind

/-! ## Alternatives -/

section OrElse

variable {reader other : Reader α} {rule alternative : Rule α}

/-- Where the first reading finds nothing, the second begins at the same offset, with the notes of
the first. -/
theorem orElse_of_none {notes notes' : Notes} {i : Nat}
    (h : reader src notes i = .ok (none, notes')) :
    (reader <|> other) src notes i = other src notes' i := by
  show Reader.orElse reader other src notes i = _
  simp only [Reader.orElse, h]
  rfl

theorem orElse_of_some {notes notes' : Notes} {i : Nat} {found : α × Nat}
    (h : reader src notes i = .ok (some found, notes')) :
    (reader <|> other) src notes i = .ok (some found, notes') := by
  show Reader.orElse reader other src notes i = _
  simp only [Reader.orElse, h]
  rfl

/-- Where the first alternative matches, it is the whole attempt. -/
theorem Agrees.orElse_some {notes notes' : Notes} {found : α × Nat}
    (h : Agrees src s c rule notes notes' (some found)) :
    Agrees src (s && t) c (rule <|> alternative) notes notes' (some found) where
  depth := h.depth
  refused := h.refused
  ends a j hresult := by
    obtain ⟨d, hd, hj, hle, hlt⟩ := h.ends a j hresult
    exact ⟨d, hd, hj, hle, fun hst => hlt (Bool.and_eq_true_iff.1 hst).1⟩
  matched hfree a d hm := by
    rcases Rule.matches_orElse.1 hm with hm | ⟨hf, -⟩
    · rw [Rule.orElse_of_not_fails hm.not_fails]
      exact h.matched (hfree.imp_right .of_orElse) a d hm
    · obtain ⟨hsome, -⟩ := h.failed (hfree.imp_right .of_orElse) hf
      cases hsome
  failed hfree hf := by
    obtain ⟨hsome, -⟩ := h.failed (hfree.imp_right .of_orElse) (Rule.fails_orElse.1 hf).1
    cases hsome
  tooDeep hnone offset hdeep := by
    by_cases hf : rule.Fails c
    -- a rule that fails leaves the reading with nothing, but something was found
    · obtain ⟨hsome, -⟩ := h.failed (.inl hnone) hf
      cases hsome
    · rw [Rule.orElse_of_not_fails hf] at hdeep
      exact h.tooDeep hnone offset hdeep

/-- Where the first alternative does not match, the second is attempted at the same place. -/
theorem Agrees.orElse_none {notes notes' notes'' : Notes} {result : Option (α × Nat)}
    (h : Agrees src s c rule notes notes' none)
    (k : Agrees src t c alternative notes' notes'' result) :
    Agrees src (s && t) c (rule <|> alternative) notes notes'' result where
  depth := k.depth.trans h.depth
  refused offset hrefused := k.refused offset (h.refused offset hrefused)
  ends a j hresult := by
    obtain ⟨d, hd, hj, hle, hlt⟩ := k.ends a j hresult
    exact ⟨d, hd, hj, hle, fun hst => hlt (Bool.and_eq_true_iff.1 hst).2⟩
  matched hfree a d hm := by
    rcases Rule.matches_orElse.1 hm with hm | ⟨hf, hm⟩
    -- the first alternative cannot have matched, since nothing was found
    · obtain ⟨-, hsome, -⟩ := h.matched (hfree.imp_right .of_orElse) a d hm
      cases hsome
    · obtain ⟨-, rfl⟩ := h.failed (hfree.imp_right .of_orElse) hf
      rw [Rule.orElse_of_fails hf, ← Notes.extend_extend]
      exact k.matched (hfree.imp_right (·.of_orElse_fails hf)) a d hm
  failed hfree hf := by
    obtain ⟨hf, hf'⟩ := Rule.fails_orElse.1 hf
    obtain ⟨-, rfl⟩ := h.failed (hfree.imp_right .of_orElse) hf
    have hother := hfree.imp_right (·.of_orElse_fails hf)
    rw [Rule.orElse_of_fails hf, ← Notes.extend_extend]
    exact k.failed hother hf'
  tooDeep hnone offset hdeep := by
    by_cases hf : rule.Fails c
    · obtain ⟨-, rfl⟩ := h.failed (.inl hnone) hf
      rw [Rule.orElse_of_fails hf] at hdeep
      exact k.tooDeep hnone offset hdeep
    · -- the group was refused in the first alternative, and stays refused
      rw [Rule.orElse_of_not_fails hf] at hdeep
      exact k.refused offset (h.tooDeep hnone offset hdeep)

/-- Alternatives take something for certain only if both do. -/
theorem TracksAt.orElse (h : TracksAt src n s c reader rule)
    (k : TracksAt src n t c other alternative) :
    TracksAt src n (s && t) c (reader <|> other) (rule <|> alternative) := by
  intro notes hn
  obtain ⟨result, notes', hrun, hf⟩ := h notes hn
  cases result with
  | some found => exact ⟨some found, notes', orElse_of_some hrun, hf.orElse_some⟩
  | none =>
      obtain ⟨result, notes'', hrun', hk⟩ := k notes' (hf.depth.trans hn)
      refine ⟨result, notes'', ?_, .orElse_none hf hk⟩
      rw [orElse_of_none hrun, hrun']

theorem Tracks.orElse (h : Tracks n lo s reader rule) (k : Tracks n lo s other alternative) :
    Tracks n lo s (reader <|> other) (rule <|> alternative) := by
  intro src c hc hlo
  exact ((h hc hlo).orElse (k hc hlo)).weaken fun hs => Bool.and_eq_true_iff.2 ⟨hs, hs⟩

/-- What may be left out is an alternative to nothing. -/
theorem Tracks.perhaps (h : Tracks n lo s reader rule) :
    Tracks n lo false (Checked.perhaps reader) (Rule.perhaps rule) :=
  (h.map some).lax.orElse (.pure none)

theorem Tracks.fail (expected : Expected) :
    Tracks n lo s (Checked.fail expected : Reader α) (Rule.fail expected) :=
  fun _ _ _ _ => .of_failed _ (fun _ => rfl) rfl

/-- If nothing is recorded at a rule, there is nothing that is left out where something else is
missed instead. -/
theorem Tracks.expecting (expected : Expected) (hsilent : ∀ c, (rule c).events = [])
    (h : Tracks n lo s reader rule) :
    Tracks n lo s (Checked.expecting expected reader) (Rule.expecting expected rule) := by
  -- naming what is expected is the same as an alternative that fails, if nothing is recorded
  -- otherwise
  have heq : Rule.expecting expected rule = (rule <|> Rule.fail expected) := by
    funext c
    by_cases hf : rule.Fails c
    · rw [Rule.orElse_of_fails hf, hsilent]
      rcases hr : rule c with ⟨outcome, events⟩
      obtain rfl : outcome = .mismatch := by rwa [Rule.Fails, hr] at hf
      simp only [Rule.expecting, hr]
      rfl
    · rw [Rule.orElse_of_not_fails hf]
      rcases hr : rule c with ⟨outcome, events⟩
      cases outcome with
      | mismatch => exact absurd (by rw [Rule.Fails, hr]) hf
      | matched a d => simp only [Rule.expecting, hr]
      | tooDeep offset => simp only [Rule.expecting, hr]
  rw [heq]
  exact h.orElse (.fail expected)

end OrElse

/-! ## Parts, looking ahead and repeating -/

section Repetition

variable {reader : Reader α} {rule : Rule α}

/-- A rule that takes something, or a part that need not, passes the checks of a part. -/
theorem Tracks.part {p : Part} (h : Tracks n lo s reader rule)
    (hs : s = true ∨ p.mayBeEmpty = true) : Tracks n lo s (Checked.part p reader) rule := by
  intro src c hc hlo notes hn
  obtain ⟨result, notes', hrun, hf⟩ := h hc hlo notes hn
  refine ⟨result, notes', ?_, hf⟩
  cases result with
  | none =>
      rw [Checked.part, hc.restAt_bind, hrun]
      rfl
  | some found =>
      obtain ⟨a, j⟩ := found
      obtain ⟨d, hd, rfl, hle, hlt⟩ := hf.ends a j rfl
      -- a part that must not be empty has taken something, so that the reading has not stalled
      have hprogress : c.offset < d.offset ∨ p.mayBeEmpty = true ∧ c.offset = d.offset := by
        rcases hs with hs | hempty
        · exact .inl (hlt hs)
        · exact (Nat.lt_or_eq_of_le hle).imp_right fun heq => ⟨hempty, heq⟩
      rw [Checked.part, hc.restAt_bind, hrun]
      show (do
        let _ ← Checked.restAt src d.offset
        if c.offset < d.offset ∨ p.mayBeEmpty = true ∧ c.offset = d.offset then
          .ok (some (a, d.offset), notes')
        else .error (.stalled p c.offset d.offset) : Except Fault (Option (α × Nat) × Notes)) = _
      rw [hd.restAt_bind, if_pos hprogress]

/-- The place to go on from is the one where looking ahead began, whatever the rule took. -/
theorem Tracks.lookahead (h : Tracks n lo s reader rule) :
    Tracks n lo false (Checked.lookahead reader) (Rule.lookahead rule) := by
  intro src c hc hlo notes hn
  obtain ⟨result, notes', hrun, hf⟩ := h hc hlo notes hn
  have hevents : (Rule.lookahead rule c).events = (rule c).events := by
    rcases hr : rule c with ⟨outcome, events⟩
    cases outcome <;> simp only [Rule.lookahead, hr]
  have hdeep : ∀ offset, (Rule.lookahead rule c).outcome = .tooDeep offset ↔
      (rule c).outcome = .tooDeep offset := by
    intro offset
    rcases hr : rule c with ⟨outcome, events⟩
    cases outcome <;> simp [Rule.lookahead, hr]
  have hgroupless : (Rule.lookahead rule c).Groupless → (rule c).Groupless := fun h =>
    -- what happens while looking ahead is recorded, so that groups would be seen
    ⟨fun offset ht => h.ne_tooDeep offset ((hdeep offset).2 ht), hevents ▸ h.failed⟩
  refine ⟨result.map fun _ => ((), c.offset), notes', ?_, ?_⟩
  · rw [Checked.lookahead, hrun]
    cases result <;> rfl
  · exact {
      depth := hf.depth
      refused := hf.refused
      ends := by
        intro u j hresult
        obtain ⟨_, -, hfound⟩ := Option.map_eq_some_iff.1 hresult
        obtain ⟨rfl, rfl⟩ := Prod.mk.inj hfound
        exact ⟨c, hc, rfl, Nat.le_refl _, fun h => absurd h Bool.false_ne_true⟩
      matched := by
        intro hfree u d hm
        obtain ⟨⟨a, e, hm⟩, rfl⟩ := Rule.matches_lookahead.1 hm
        obtain ⟨-, hresult, hnotes⟩ := hf.matched (hfree.imp_right hgroupless) a e hm
        rw [hevents, hresult]
        exact ⟨hc, rfl, hnotes⟩
      failed := by
        intro hfree hfails
        obtain ⟨hresult, hnotes⟩ :=
          hf.failed (hfree.imp_right hgroupless) (Rule.fails_lookahead.1 hfails)
        rw [hevents, hresult]
        exact ⟨rfl, hnotes⟩
      tooDeep := fun hnone offset h => hf.tooDeep hnone offset ((hdeep offset).1 h) }

/-- A rule that takes something can be repeated once more than there are characters left, and that
is one more time than it matches. -/
theorem TracksAt.manyWithin (h : Tracks n lo true reader rule) (rounds : Nat) :
    ∀ (budget : List Char) (c : Cursor), c.In src → lo ≤ c.offset → c.rest.length < rounds →
      c.rest.length ≤ budget.length →
        TracksAt src n false c (Checked.manyWithin reader rounds)
          (Rule.manyWithin rule budget) := by
  -- each match leaves fewer characters, so both the rounds and the budget last
  induction rounds with
  | zero =>
      intro budget c _ _ hrounds _
      exact absurd hrounds (Nat.not_lt_zero _)
  | succ rounds ih =>
      intro budget c hc hlo hrounds hbudget
      have hstop : TracksAt src n false c (Pure.pure [] : Reader (List α)) (Pure.pure []) :=
        .pure hc []
      have hfewer : ∀ d : Cursor, d.In src → (true = true → c.offset < d.offset) →
          d.rest.length < c.rest.length := fun d hd hlt => hc.length_lt hd (hlt rfl)
      cases budget with
      | nil =>
          -- no characters are left, and there is no place behind a first match
          refine TracksAt.orElse (s := true) ?_ hstop
          refine TracksAt.bind (t := false) (h hc hlo) fun a d hd _ hlt => ?_
          have hless := hfewer d hd hlt
          rw [List.length_nil] at hbudget
          omega
      | cons b budget =>
          refine TracksAt.orElse (s := true) ?_ hstop
          refine TracksAt.bind (t := false) (h hc hlo) fun a d hd hle hlt => ?_
          have hless := hfewer d hd hlt
          rw [List.length_cons] at hbudget
          exact (ih budget d hd (Nat.le_trans hlo hle) (by omega) (by omega)).map _

/-- A repetition tracks if each round takes something, so that the rounds cannot go on for ever. -/
theorem Tracks.many (h : Tracks n lo true reader rule) :
    Tracks n lo false (Checked.many reader) (Rule.many rule) := by
  intro src c hc hlo notes hn
  have hrounds : c.rest.length < src.length + 1 := Nat.lt_succ_of_le hc.length_le
  obtain ⟨result, notes', hrun, hf⟩ :=
    TracksAt.manyWithin h (src.length + 1) c.rest c hc hlo hrounds (Nat.le_refl _) notes hn
  exact ⟨result, notes', hrun, hf.of_eq rfl⟩

end Repetition

/-! ## Groups -/

section Groups

variable {reader : Reader α} {rule : Rule α} {start : Nat}

/-- Once a group has been refused, no further one is read. -/
theorem Agrees.of_refused {notes : Notes} {offset : Nat} (h : notes.refused = some offset)
    (hgroup : ¬ (rule c).Groupless) : Agrees src s c rule notes notes none := by
  have hnone : notes.refused ≠ none := by
    rw [h]
    nofun
  exact {
    depth := rfl
    refused := fun _ h => h
    ends := nofun
    matched := fun hfree => absurd hfree (not_or.2 ⟨hnone, hgroup⟩)
    failed := fun hfree => absurd hfree (not_or.2 ⟨hnone, hgroup⟩)
    tooDeep := fun h => absurd h hnone }

/-- What stands in a group is read with one more group open. -/
theorem Tracks.enter (hn : n < maxNesting) (h : Tracks (n + 1) lo s reader rule) :
    Tracks n lo s (Checked.enter start reader) (Rule.inside start rule) := by
  intro src c hc hlo notes hdepth
  cases hrefused : notes.refused with
  | some offset =>
      refine ⟨none, notes, ?_, .of_refused hrefused (Rule.not_groupless_inside rule start c)⟩
      simp only [Checked.enter, hrefused]
  | none =>
      let inner : Notes := { notes.record (.opened start) with depth := notes.depth + 1 }
      obtain ⟨result, outer, hrun, hf⟩ := h hc hlo inner (congrArg (· + 1) hdepth)
      have houter : outer.depth = notes.depth + 1 := hf.depth
      have hbalanced : ∀ events, outer = inner.extend events →
          { outer.record .closed with depth := outer.depth - 1 } =
            notes.extend (.opened start :: events ++ [.closed]) := by
        rintro events rfl
        simp only [inner, Notes.extend, Notes.record, List.append_assoc, List.cons_append,
          List.nil_append, Nat.add_sub_cancel]
      refine ⟨result, { outer.record .closed with depth := outer.depth - 1 }, ?_, ?_⟩
      · have hroom : notes.depth ≠ maxNesting := by omega
        have hopen : outer.depth ≠ 0 := by omega
        simp only [Checked.enter, hrefused, if_neg hroom, Bind.bind, Except.bind]
        rw [hrun]
        exact if_neg hopen
      · rcases hr : rule c with ⟨outcome, events⟩
        cases outcome with
        | matched a d =>
            obtain ⟨hd, rfl, hnotes⟩ := hf.matched (.inl hrefused) a d (by rw [Rule.Matches, hr])
            obtain ⟨e, he, hoffset, hle, hlt⟩ := hf.ends a d.offset rfl
            rw [hr] at hnotes
            rw [hbalanced events hnotes]
            exact .of_matched (by simp only [Rule.inside, hr]) hd hle hlt
        | mismatch =>
            obtain ⟨rfl, hnotes⟩ := hf.failed (.inl hrefused) (by rw [Rule.Fails, hr])
            rw [hr] at hnotes
            rw [hbalanced events hnotes]
            exact .of_failed (by simp only [Rule.inside, hr])
        | tooDeep offset =>
            -- a group in the group has been refused, which is all that is known of the attempt
            have hdeep := hf.tooDeep hrefused offset (by rw [hr])
            have hdepth : outer.depth - 1 = notes.depth := by omega
            exact .of_tooDeep (by simp only [Rule.inside, hr]) hrefused hdepth hdeep hf.ends

/-- Where as many groups are open as are allowed, a reading notes the refusal and the rule refuses
the text. -/
theorem Tracks.refuse (hn : n = maxNesting) :
    Tracks n lo s (Checked.enter start reader) (Rule.refuse start) := by
  intro src c _ _ notes hdepth
  cases hrefused : notes.refused with
  | some offset =>
      refine ⟨none, notes, ?_, .of_refused hrefused fun h => h.ne_tooDeep start rfl⟩
      simp only [Checked.enter, hrefused]
  | none =>
      refine ⟨none, { notes with refused := some start }, ?_,
        .of_tooDeep rfl hrefused rfl rfl nofun⟩
      simp only [Checked.enter, hrefused, hdepth, hn, if_true]

end Groups

end Tracking

end Checked

end Notation

end Railroad
