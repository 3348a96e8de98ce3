import Railroad.Proofs.Notation.Expectation
set_option autoImplicit false

/-!
# What is missed would have led on

Each rule of the notation takes the texts of its language, and its failures lead into that language,
or into the language with layout behind it where the rule looks for the end of a line. So a document
that is not read has failures all of which lead to documents.
-/

namespace Railroad.Notation

open Computability Rule Written

variable {depth : Nat}

/-! ## Layout -/

/-- In front of the first occurrence of a mark the mark does not occur. -/
theorem not_infix_of_splitBefore {mark cs taken rest : List Char} (hmark : mark ≠ [])
    (h : splitBefore mark cs = (taken, rest)) : ¬ mark <:+: taken := by
  induction cs generalizing taken with
  | nil =>
      rw [splitBefore, Prod.mk.injEq] at h
      rw [← h.1, List.infix_nil]
      exact hmark
  | cons c cs ih =>
      rw [splitBefore] at h
      split at h
      · rw [Prod.mk.injEq] at h
        rw [← h.1, List.infix_nil]
        exact hmark
      next hno =>
        -- the mark begins neither at the first character nor behind it
        rcases hs : splitBefore mark cs with ⟨before, behind⟩
        rw [hs, Prod.mk.injEq] at h
        obtain ⟨rfl, rfl⟩ := h
        rw [List.infix_cons_iff, not_or]
        refine ⟨fun hfirst => hno ?_, ih hs⟩
        rw [List.isPrefixOf_iff_prefix, append_of_splitBefore hs, ← List.cons_append]
        exact hfirst.trans (List.prefix_append _ _)

/-- A comment may end wherever no comment has ended in it. -/
theorem mem_comment_of_not_infix {body : List Char} (h : ¬ ['*', '/'] <:+: body) :
    ['/', '*'] ++ body ++ ['*', '/'] ∈ Written.comment := by
  refine ⟨body, rfl, fun before after heq => ?_⟩
  rcases List.eq_nil_or_concat after with hnil | ⟨more, z, rfl⟩
  · exact hnil
  · -- the last character, and then the last but one, belong to the end of the body
    have hlast : body ++ ['*'] ++ ['/'] = before ++ ['*', '/'] ++ more ++ [z] := by
      simpa using heq
    obtain ⟨hbody, -⟩ := List.append_inj' hlast rfl
    rcases List.eq_nil_or_concat more with rfl | ⟨most, y, rfl⟩
    · have hstar : body ++ ['*'] = before ++ ['*'] ++ ['/'] := by simpa using hbody
      have hchars := (List.append_inj' hstar rfl).2
      simp at hchars
    · have hstar : body ++ ['*'] = before ++ ['*', '/'] ++ most ++ [y] := by simpa using hbody
      exact absurd ⟨before, most, (List.append_inj' hstar rfl).1.symm⟩ h

/-- At whatever place a comment goes wrong, it could have gone on and been closed. -/
theorem reads_comment : comment.Reads depth Written.comment Written.comment where
  steady c := .inr (flat_comment.orderly c)
  takes c u d hm := matches_comment.1 hm
  leads c := by
    have hopen : "/*".toList ∈ beginnings Written.comment :=
      ⟨[] ++ ['*', '/'], mem_comment_of_not_infix (by decide)⟩
    refine .bind (.inr ((Flat.literal _).orderly c)) (.literal hopen) fun _ d taken hm hp => ?_
    obtain rfl : taken = ['/', '*'] := hp.inj (matches_literal.1 hm)
    refine .bind (.inr ((Flat.charsBefore _).orderly d)) (.silent rfl) fun body e taken hm hq => ?_
    obtain ⟨hsplit, hq'⟩ := matches_charsBefore.1 hm
    obtain rfl : taken = body := hq.inj hq'
    refine .literal (mem_beginnings ?_)
    have hcomment := mem_comment_of_not_infix (not_infix_of_splitBefore (by simp) hsplit)
    simpa using hcomment

theorem reads_gap (breaks : Bool) :
    (gap breaks).Reads depth (Written.gap breaks) (Written.gap breaks) := by
  have hslash : (lookahead (charWhere (· == '/'))).Reads depth 1 0 := {
    steady := fun c => .inr ((Flat.charWhere _).lookahead.orderly c)
    takes := fun c _ d hm => ⟨[], rfl, by rw [(matches_lookahead.1 hm).2]; exact .refl c⟩
    leads := fun c => .lookahead (.silent (Silent.charWhere _ c)) }
  have hblank : (do
      let _ ← charWhere fun c => c == ' ' || c == '\t' || (breaks && isLineEnd c) : Rule Unit).Reads
      depth (one fun c => c == ' ' || c == '\t' || (breaks && isLineEnd c)) 0 :=
    (Reads.charWhere _).bind_empty fun _ => .pure ()
  refine ((hslash.empty_bind fun _ => reads_comment).orElse hblank).mono (fun _ => id) ?_
  rw [add_zero]
  exact fun cs hcs => mem_beginnings (.inl hcs)

/-- Layout leads to layout, since all of it may be left out. -/
theorem reads_skip (breaks : Bool) :
    (skip breaks).Reads depth (layout breaks) (layout breaks) :=
  ((reads_gap breaks).many fun _ hcs => mem_beginnings (mem_kstar_of_mem hcs)).bind_empty fun _ =>
    .pure ()

/-- Layout may be empty. -/
theorem exists_mem_layout (breaks : Bool) : ∃ cs, cs ∈ layout breaks :=
  ⟨[], Language.nil_mem_kstar _⟩

theorem reads_space : space.Reads depth (plus (Written.gap false)) (plus (Written.gap false)) :=
  (reads_gap false).mul (fun _ => reads_skip false) (le_beginnings_mul (exists_mem_layout false))

/-! ## Lexemes -/

theorem letter_mem_name : ['A'] ∈ Written.name :=
  Language.append_mem_mul (a := ['A']) ⟨'A', by decide, rfl⟩ (Language.nil_mem_kstar _)

/-- Where a name is missed, one could stand. -/
theorem reads_name : name.Reads depth Written.name Written.name := by
  have hchars : (do
      let first ← charWhere Char.isUpper
      let more ← charsWhile Char.isAlphanum
      return first :: more : Rule (List Char)).Reads depth Written.name Written.name :=
    (Reads.charWhere _).mul (fun _ => (Reads.charsWhile _).bind_empty fun _ => .pure _) bot_le
  have hname : (expecting .name _).Reads depth Written.name Written.name :=
    hchars.expecting (by simp) letter_mem_name (mem_beginnings letter_mem_name)
  exact Reads.here.empty_bind fun _ => hname.bind_empty fun _ => Reads.here.empty_bind fun _ =>
    .pure _

/-- A string literal that is not closed could be closed at the end of the text. -/
theorem reads_stringLiteral : stringLiteral.Reads depth Written.string Written.string where
  steady c := .inr (flat_stringLiteral.orderly c)
  takes c s d hm := by
    obtain ⟨cs, hp, hs⟩ := matches_stringLiteral.1 hm
    exact ⟨cs, (StringLiteral.covers _ _).1 ⟨s, hs⟩, hp⟩
  leads c := by
    have hquotes : ['"', '"'] ∈ Written.string := ⟨'"', [], .inl rfl, by simp, rfl⟩
    have hquote : (expecting .stringLiteral (charWhere fun c => c == '"' || c == '\'')).LeadsAt
        depth Written.string c :=
      .expecting (.silent (Silent.charWhere _ c)) (by simp) hquotes (mem_beginnings hquotes)
    refine .here_bind (.bind (.inr ((Flat.charWhere _).expecting _ |>.orderly c)) hquote ?_)
    intro quote d taken hm hp
    obtain ⟨hq, hp'⟩ := matches_charWhere.1 (matches_expecting.1 hm)
    obtain rfl : taken = [quote] := hp.inj hp'
    refine .bind (.inr ((Flat.charsWhile _).orderly d)) (.silent rfl) fun value e taken hm hr => ?_
    obtain ⟨hr', hall, -⟩ := matches_charsWhile.1 hm
    obtain rfl : taken = value := hr.inj hr'
    -- the quote that is missed would close the string
    refine .bind_silent (.literal (mem_beginnings ⟨quote, taken, by simpa using hq, ?_, ?_⟩))
      fun _ _ => rfl
    · intro hmem
      simpa using hall quote hmem
    · simp

theorem digit_mem_code : ['#', 'x', '0'] ∈ Written.code :=
  Language.append_mem_mul (a := ['#', 'x']) rfl (singleton_mem_plus_one (by decide))

/-- Where a code is missed, one with a single digit could stand. -/
theorem reads_charCode : charCode.Reads depth Written.code Written.code := by
  have hdigits : (do
      literal "#x"
      someCharsWhile Text.isHexDigit : Rule (List Char)).Reads depth Written.code Written.code :=
    (Reads.literal "#x").mul (fun _ => .someCharsWhile _)
      (le_beginnings_mul ⟨['0'], singleton_mem_plus_one (by decide)⟩)
  have hcode : (expecting .charCode _).Reads depth Written.code Written.code :=
    hdigits.expecting (by simp) digit_mem_code (mem_beginnings digit_mem_code)
  exact Reads.here.empty_bind fun _ => hcode.bind_empty fun _ => Reads.here.empty_bind fun _ =>
    .pure _

/-- Texts that consist of class characters. -/
def classTexts : Language Char := (one Written.isClassChar)∗

/-- All characters of a code can stand in a class. -/
theorem code_le_classTexts : Written.code ≤ classTexts := by
  rintro _ ⟨_, rfl, digits, hdigits, rfl⟩
  refine mem_kstar_one.2 fun a ha => ?_
  rcases List.mem_append.1 ha with ha | ha
  · obtain rfl | rfl : a = '#' ∨ a = 'x' := by simpa using ha
    · decide
    · decide
  · exact isClassChar_of_isHexDigit ((mem_plus_one.1 hdigits).2 a ha)

/-- Items of a class lead to characters of a class: whatever kind of item is attempted, more
characters can follow. -/
theorem reads_classItem : classItem.Reads depth classTexts classTexts := by
  have hcode : charCode.Reads depth classTexts classTexts :=
    reads_charCode.mono code_le_classTexts fun _ hcs => mem_beginnings (code_le_classTexts hcs)
  have hone : one Written.isClassChar ≤ classTexts := fun _ => mem_kstar_of_mem
  have hchar : classChar.Reads depth classTexts classTexts := by
    have hletter : ['a'] ∈ one Written.isClassChar := singleton_mem_one.2 (by decide)
    have h : (expecting .classItem (charWhere Written.isClassChar)).Reads depth
        (one Written.isClassChar) classTexts :=
      (Reads.charWhere _).expecting (by simp) hletter (mem_beginnings (hone hletter))
    exact h.mono hone fun _ => mem_beginnings
  have hdash : dash.Reads depth classTexts classTexts := by
    have h : (charWhere (· == '-')).Reads depth (one (· == '-')) classTexts := .charWhere _
    refine (h.mono ?_ fun _ => mem_beginnings).bind_empty fun _ => .pure ()
    rintro _ ⟨a, ha, rfl⟩
    obtain rfl : a = '-' := by simpa using ha
    exact hone (singleton_mem_one.2 (by decide))
  -- ranges consist of two members and a dash, and all of these of class characters
  have hrange : ∀ {β : Type} {bound : Rule β} (f : β → β → ClassItem),
      bound.Reads depth classTexts classTexts →
        (do
          let first ← bound
          dash
          let last ← bound
          return f first last : Rule ClassItem).Reads depth classTexts classTexts :=
    fun f hbound => hbound.bind_kstar fun _ => hdash.bind_kstar fun _ =>
      hbound.bind_empty fun _ => .pure _
  have hall := (hrange .codeRange hcode).orElse ((hrange .range hchar).orElse
    ((hcode.map .code).orElse (hchar.map .char)))
  simp only [add_idem] at hall
  exact hall

/-- Any class characters behind the bracket and the circumflex may be continued to a class. -/
theorem mem_beginnings_charClass (negated : Bool) {body : List Char} (h : body ∈ classTexts) :
    ['['] ++ (if negated then ['^'] else []) ++ body ∈ beginnings Written.charClass := by
  have hall := mem_kstar_one.1 h
  -- one more character and the bracket complete the class
  have hclass : ∀ negated more, (∀ a ∈ more, Written.isClassChar a = true) →
      (negated = false → (more ++ ['a']).head? ≠ some '^') →
      ['['] ++ (if negated then ['^'] else []) ++ more ∈ beginnings Written.charClass := by
    intro negated more hmore hno
    refine ⟨['a', ']'], mem_charClass_iff.2 ⟨negated, more ++ ['a'], by simp, ?_, hno, by simp⟩⟩
    intro a ha
    rcases List.mem_append.1 ha with ha | ha
    · exact hmore a ha
    · obtain rfl := List.mem_singleton.1 ha
      decide
  by_cases hcaret : negated = false ∧ body.head? = some '^'
  · -- a circumflex that comes first negates the class
    obtain ⟨rfl, hhead⟩ := hcaret
    obtain ⟨more, rfl⟩ : ∃ more, body = '^' :: more := by
      cases body with
      | nil => cases hhead
      | cons a more => exact ⟨more, by simpa using hhead⟩
    have hnegated := hclass true more (fun a ha => hall a (by simp [ha])) nofun
    simpa using hnegated
  · refine hclass negated body hall fun hno hhead => hcaret ⟨hno, ?_⟩
    cases body with
    | nil => simp at hhead
    | cons a more => simpa using hhead

/-- A class leads to classes. Behind its items only the bracket is missing. -/
theorem reads_charClass : charClass.Reads depth Written.charClass Written.charClass where
  steady c := .inr (flat_charClass.orderly c)
  takes c k d hm := by
    obtain ⟨cs, hp, hk⟩ := matches_charClass.1 hm
    exact ⟨cs, (CharClass.covers _ _).1 ⟨k, hk⟩, hp⟩
  leads c := by
    have hopen : "[".toList ∈ beginnings Written.charClass :=
      mem_beginnings_charClass false (Language.nil_mem_kstar _)
    rw [charClass_eq]
    refine .here_bind (.bind (.inr ((Flat.literal _).orderly c)) (.literal hopen) ?_)
    intro _ d taken hm hp
    obtain rfl : taken = ['['] := hp.inj (matches_literal.1 hm)
    refine .bind (.inr ((Flat.charWhere _).perhaps.orderly d))
      (.silent ((Silent.charWhere _).perhaps d)) fun caret e front hcaret hq => ?_
    obtain rfl := hq.inj (passes_of_matches_circumflex hcaret).1
    -- the characters of further items only add to those in front of them
    have hmany : (many classItem).LeadsAt depth _ e :=
      (reads_classItem.many fun _ hcs => mem_beginnings (mem_kstar_of_mem hcs)).leads e
    refine .bind (.inr (flat_classItem.many.orderly e)) (hmany.mono ?_) ?_
    · intro cs hcs
      rw [classTexts, kstar_idem] at hcs
      exact mem_beginnings_behind (mem_beginnings_behind (by
        simpa using mem_beginnings_charClass caret.isSome hcs))
    · intro items f body hitems hr
      split
      · exact .silent rfl
      next hne =>
        obtain ⟨body', hr', hbody, hall, hfirst⟩ :=
          members_of_matches hcaret hitems (by simpa using hne)
        obtain rfl := hr.inj hr'
        refine .bind_silent (.literal (mem_beginnings ?_)) fun _ _ => rfl
        exact mem_charClass_iff.2 ⟨caret.isSome, body, hbody, hall, hfirst, by simp⟩

theorem scheme_mem_address : ['a', ':', '/', '/', 'a'] ∈ Written.address :=
  Language.append_mem_mul (a := ['a', ':', '/', '/'])
    (Language.append_mem_mul (a := ['a']) (singleton_mem_plus_one (by decide)) rfl)
    (singleton_mem_plus_one (by decide))

/-- An address is missed as a whole. -/
theorem reads_url : url.Reads depth Written.address Written.address := by
  have hchars : (do
      let scheme ← someCharsWhile isSchemeChar
      literal "://"
      let body ← someCharsWhile isAddressChar
      return scheme ++ [':', '/', '/'] ++ body : Rule (List Char)).Reads depth
        (plus (one isSchemeChar) * (word "://" * plus (one isAddressChar)))
        (plus (one isSchemeChar) * (word "://" * plus (one isAddressChar))) := by
    exact (Reads.someCharsWhile _).mul (fun _ => (Reads.literal _).mul
      (fun _ => (Reads.someCharsWhile _).bind_empty fun _ => .pure _)
      (le_beginnings_mul ⟨['a'], singleton_mem_plus_one (by decide)⟩)) bot_le
  -- what is missed within an address is recorded at its start, so that the whole address stands
  -- there
  rw [← mul_assoc] at hchars
  have hurl : (expecting .url _).Reads depth Written.address Written.address :=
    hchars.expecting (by simp) scheme_mem_address (mem_beginnings scheme_mem_address)
  exact hurl.bind_empty fun _ => .pure _

/-- A fragment may be left out, and a hash sign leads to one. -/
theorem reads_fragment :
    fragment.Reads depth (1 + word "#" * Written.name) (word "#" * Written.name) := by
  have hmark : (charWhere (· == '#')).Reads depth (word "#") 0 := by
    refine (Reads.charWhere _).mono ?_ fun _ => mem_beginnings
    rintro _ ⟨a, ha, rfl⟩
    obtain rfl : a = '#' := by simpa using ha
    rfl
  exact (hmark.mul (fun _ => reads_name) bot_le).perhaps

/-- A link leads to links. -/
theorem reads_link : link.Reads depth Written.link Written.link := by
  have hrest : ∃ cs, cs ∈ (1 + word "#" * Written.name) * word "]" :=
    exists_mem_mul ⟨[], .inl rfl⟩ ⟨_, rfl⟩
  have hfragment : word "#" * Written.name ≤
      beginnings ((1 + word "#" * Written.name) * word "]") :=
    fun _ hcs => beginnings_mul (mem_beginnings (.inr hcs)) ⟨_, rfl⟩
  have hlink : link.Reads depth
      (word "[" * (Written.address * ((1 + word "#" * Written.name) * word "]")))
      (word "[" * (Written.address * ((1 + word "#" * Written.name) * word "]"))) :=
    Reads.here.empty_bind fun _ => (Reads.literal "[").mul (fun _ => reads_url.mul (fun _ =>
      reads_fragment.mul (fun _ => (Reads.literal "]").bind_empty fun _ =>
        Reads.here.empty_bind fun _ => .pure _) hfragment)
      (le_beginnings_mul hrest)) (le_beginnings_mul (exists_mem_mul ⟨_, scheme_mem_address⟩ hrest))
  rwa [← mul_assoc, ← mul_assoc] at hlink

/-! ## From groups to items -/

section Items

variable {α : Type} {next : Rule α} {texts ahead : Language Char}

/-- A fixed text with layout around it, and what comes behind. -/
theorem Rule.Reads.around {text : String} (h : next.Reads depth texts ahead)
    (hne : ∃ cs, cs ∈ ahead) :
    (do skip false; Rule.literal text; skip false; next : Rule α).Reads depth (around text * texts)
      (around text * ahead) := by
  have hskip := (reads_skip false).mul (fun _ => h) (le_beginnings_mul hne)
  have hrest := exists_mem_mul (exists_mem_layout false) hne
  have hword := (Reads.literal text).mul (fun _ => hskip) (le_beginnings_mul hrest)
  have hall := (reads_skip false).mul (fun _ => hword)
    (le_beginnings_mul (exists_mem_mul ⟨_, rfl⟩ hrest))
  simp only [Written.around, mul_assoc]
  exact hall

variable {item : Rule Item} {items choices groups : Language Char} {choice group : Rule Choice}

/-- A branch leads to branches: behind the first item, a difference or a sequence can go on. -/
theorem reads_branch (h : item.Reads depth items items) (hne : ∃ cs, cs ∈ items) :
    (branch item).Reads depth (Written.branch items) (Written.branch items) := by
  have hdifference : ∀ start left, (differenceFrom item start left).Reads depth
      (around "-" * items) (around "-" * items) := fun _ _ =>
    (h.bind_empty fun _ => Reads.here.empty_bind fun _ => .pure _).around hne
  have hsequence : ∀ start first, (sequenceFrom item start first).Reads depth
      (plus (Written.gap false) * items)∗ (plus (Written.gap false) * items)∗ := fun _ _ =>
    ((reads_space.mul (fun _ => h) (le_beginnings_mul hne)).many fun _ hcs =>
      mem_beginnings (mem_kstar_of_mem hcs)).bind_empty fun _ => Reads.here.empty_bind fun _ =>
        .pure _
  have hbranch : (branch item).Reads depth _ _ := Reads.here.empty_bind fun start =>
    -- a sequence without further items shows that something can follow the first item
    h.mul (fun first => (hdifference start first).orElse (hsequence start first))
      (le_beginnings_mul ⟨[], .inr (Language.nil_mem_kstar _)⟩)
  simp only [mul_add, ← mul_assoc] at hbranch
  simp only [Written.branch, Written.difference, Written.sequence]
  exact hbranch

theorem exists_mem_branch (hne : ∃ cs, cs ∈ items) : ∃ cs, cs ∈ Written.branch items := by
  obtain ⟨cs, hcs⟩ := hne
  exact ⟨cs ++ [], .inr (Language.append_mem_mul hcs (Language.nil_mem_kstar _))⟩

/-- A choice leads to choices, with or without another bar. -/
theorem reads_choice (h : item.Reads depth items items) (hne : ∃ cs, cs ∈ items) :
    (Notation.choice item).Reads depth (Written.choice items) (Written.choice items) := by
  have hbranch := reads_branch h hne
  have hbarred : (do skip false; literal "|"; skip false; branch item : Rule Branch).Reads depth
      (around "|" * Written.branch items) (around "|" * Written.branch items) :=
    hbranch.around (exists_mem_branch hne)
  have hmore := hbarred.many fun _ hcs => mem_beginnings (mem_kstar_of_mem hcs)
  exact Reads.here.empty_bind fun _ => hbranch.mul (fun _ => hmore.bind_empty fun _ =>
    Reads.here.empty_bind fun _ => .pure _) (le_beginnings_mul ⟨[], Language.nil_mem_kstar _⟩)

theorem exists_mem_choice (hne : ∃ cs, cs ∈ items) : ∃ cs, cs ∈ Written.choice items :=
  exists_mem_mul (exists_mem_branch hne) ⟨[], Language.nil_mem_kstar _⟩

/-- What stands behind the parenthesis of a group leads to the parenthesis that closes it. -/
theorem reads_groupRest (h : choice.Reads depth choices choices) (hne : ∃ cs, cs ∈ choices) :
    (groupRest choice).Reads depth (layout false * (choices * (layout false * word ")")))
      (layout false * (choices * (layout false * word ")"))) := by
  have hclose : ∃ cs, cs ∈ layout false * word ")" :=
    exists_mem_mul (exists_mem_layout false) ⟨_, rfl⟩
  exact (reads_skip false).mul (fun _ => h.mul (fun _ => (reads_skip false).mul (fun _ =>
    (Reads.literal ")").bind_empty fun _ => .pure _) (le_beginnings_mul ⟨_, rfl⟩))
    (le_beginnings_mul hclose)) (le_beginnings_mul (exists_mem_mul hne hclose))

/-- A group is read inside itself from behind its parenthesis on. -/
theorem group_eq (choice : Rule Choice) : Notation.group choice = (do
    let start ← here
    literal "("
    inside start (groupRest choice)) := rfl

/-- An attempt at a group is orderly or refused if the one behind its parenthesis is. -/
theorem steadyAt_group (h : ∀ c, (groupRest choice).SteadyAt c) (c : Cursor) :
    (Notation.group choice).SteadyAt c := by
  by_cases hparen : ['('] <+: c.rest
  · obtain ⟨rest, hrest⟩ := hparen
    have hrun : Notation.group choice c = inside c.offset (groupRest choice) _ :=
      group_of_paren hrest.symm
    rcases h (c.after ['('] rest) with ⟨offset, ht⟩ | horderly
    · refine .inl ⟨offset, ?_⟩
      rcases hr : groupRest choice (c.after ['('] rest) with ⟨outcome, events⟩
      rw [hr] at ht
      obtain rfl : outcome = .tooDeep offset := ht
      simp only [hrun, inside, hr]
    · exact .inr (horderly.inside (.after c hrest.symm) hrun)
  · exact .inr (((Flat.fail _).orderly c).congr (group_of_not_paren hparen))

/-- A group may be opened where at least one is allowed, and then there is one less to be opened in
it. -/
theorem reads_group (h : choice.Reads depth choices choices) (hne : ∃ cs, cs ∈ choices) :
    (Notation.group choice).Reads (depth + 1) (Written.group choices) (Written.group choices) := by
  have hrest := reads_groupRest h hne
  have hlanguage : Written.group choices =
      word "(" * (layout false * (choices * (layout false * word ")"))) := by
    simp only [Written.group, mul_assoc]
  rw [hlanguage]
  refine ⟨steadyAt_group hrest.steady, fun c v d hm => ?_, fun c => ?_⟩
  · rw [group_eq] at hm
    simp only [matches_bind, matches_here, matches_literal, matches_inside] at hm
    obtain ⟨_, _, ⟨rfl, rfl⟩, _, e, he, hm⟩ := hm
    obtain ⟨cs, hcs, hp⟩ := hrest.takes hm
    exact ⟨_, Language.append_mem_mul rfl hcs, he.trans hp⟩
  -- a group can be completed, since there are choices to put into it
  · have hopen : "(".toList ∈ beginnings (word "(" * (layout false *
        (choices * (layout false * word ")")))) :=
      beginnings_mul (mem_beginnings rfl) (exists_mem_mul (exists_mem_layout false)
        (exists_mem_mul hne (exists_mem_mul (exists_mem_layout false) ⟨_, rfl⟩)))
    rw [group_eq]
    refine .here_bind (.bind (.inr ((Flat.literal _).orderly c)) (.literal hopen) ?_)
    intro _ d taken hm hp
    obtain rfl := hp.inj (matches_literal.1 hm)
    exact (hrest.leads d).inside.mono fun cs hcs =>
      mem_beginnings (Language.append_mem_mul rfl hcs)

/-- Where no group is allowed, its parenthesis is missed in vain. -/
theorem reads_refusedGroup : refusedGroup.Reads 0 0 1 := by
  refine ⟨fun c => ?_, fun c v d hm => (sound_refusedGroup hm).elim fun _ h => h.2.elim,
    fun c n => ?_⟩
  -- with a parenthesis the text is refused, and without one it is missed
  · by_cases hparen : ['('] <+: c.rest
    · obtain ⟨rest, hrest⟩ := hparen
      exact .inl ⟨c.offset, by rw [refusedGroup_of_paren hrest.symm]⟩
    · exact .inr (((Flat.fail _).orderly c).congr (refusedGroup_of_not_paren hparen))
  · by_cases hparen : ['('] <+: c.rest
    · obtain ⟨rest, hrest⟩ := hparen
      rw [refusedGroup_of_paren hrest.symm]
      trivial
    · rw [refusedGroup_of_not_paren hparen]
      refine ⟨?_, trivial⟩
      rintro _ _ ⟨rfl, rfl⟩
      exact ⟨[], List.nil_prefix, rfl, .inr ⟨rfl, rfl, mem_beginnings rfl⟩⟩

/-- Each of the five kinds leads to texts of its own kind. -/
theorem reads_primary (h : group.Reads depth groups ahead) :
    (primary group).Reads depth (Written.primary groups) (Written.primary ahead) := by
  have hprimary := (reads_name.map Primary.name).orElse
    ((reads_stringLiteral.map Primary.string).orElse ((reads_charCode.map Primary.code).orElse
      ((reads_charClass.map Primary.charClass).orElse (h.map Primary.group))))
  simp only [← add_assoc] at hprimary
  exact hprimary

/-- A mark may follow every item. -/
theorem reads_itemOf {primary : Rule Primary} (h : primary.Reads depth texts ahead)
    (hle : ahead ≤ beginnings texts) :
    (itemOf primary).Reads depth (Written.itemOf texts) (Written.itemOf texts) := by
  have hmark : (charFor Cardinality.ofMark?).Reads depth (one isMark) (1 + one isMark) :=
    .silent (.charFor _) (.charFor _) fun c v d hm => by
      obtain ⟨a, ha, hp⟩ := matches_charFor.1 hm
      obtain rfl := Cardinality.mark_of_ofMark? ha
      exact ⟨_, ⟨_, by cases v <;> rfl, rfl⟩, hp⟩
  exact Reads.here.empty_bind fun _ => h.mul (fun _ => hmark.perhaps.bind_empty fun _ =>
    Reads.here.empty_bind fun _ => .pure _) fun _ hcs => beginnings_mul (hle hcs) ⟨[], .inl rfl⟩

/-- A single letter is an item at every depth. -/
theorem letter_mem_itemWithin (depth : Nat) : ['A'] ∈ itemWithin depth := by
  have hitem : ∀ groups, ['A'] ++ [] ∈ Written.itemOf (Written.primary groups) := fun _ =>
    Language.append_mem_mul (.inl (.inl (.inl (.inl letter_mem_name)))) (.inl rfl)
  cases depth <;> exact hitem _

/-- Items lead to items of the same depth. -/
theorem reads_item : ∀ depth,
    (Notation.item depth).Reads depth (itemWithin depth) (itemWithin depth)
  | 0 => by
      refine reads_itemOf (reads_primary reads_refusedGroup) fun cs hcs => ?_
      rcases hcs with hcs | rfl
      · exact mem_beginnings (.inl hcs)
      · exact ⟨['A'], .inl (.inl (.inl (.inl letter_mem_name)))⟩
  | depth + 1 => by
      have hne : ∃ cs, cs ∈ itemWithin depth := ⟨_, letter_mem_itemWithin depth⟩
      exact reads_itemOf (reads_primary (reads_group (reads_choice (reads_item depth) hne)
        (exists_mem_choice hne))) fun _ => mem_beginnings

end Items

/-! ## Documents -/

section Documents

variable {item : Rule Item} {items : Language Char}

/-- Looking for the end of a line misses it where layout could go on. -/
theorem reads_lineIsOver : lineIsOver.Reads depth 1 (layout false) where
  steady c := .inr (flat_lineIsOver.orderly c)
  takes c _ d hm := ⟨[], rfl, by rw [(matches_lineIsOver.1 hm).2]; exact .refl c⟩
  leads c := by
    have hend : (atEnd <|> (do let _ ← charWhere isLineEnd) : Rule Unit).Silent := by
      refine .orElse (fun c => ?_) (.bind (.charWhere _) fun _ => .pure _)
      unfold atEnd
      split <;> rfl
    exact .lookahead (((reads_skip false).leads c).bind_silent fun _ => hend)

/-- Definitions lead to definitions, with layout behind them where the end of the line is looked
for. -/
theorem reads_definition (h : item.Reads depth items items) (hne : ∃ cs, cs ∈ items) :
    (definition item).Reads depth (Written.definition items)
      (Written.definition items * layout false) := by
  have hlink : (do let target ← link; lineIsOver; return .link target : Rule Definition).Reads depth
      (Written.link * 1) (Written.link * layout false) :=
    reads_link.mul (fun _ => reads_lineIsOver.bind_empty fun _ => .pure _)
      (le_beginnings_mul (exists_mem_layout false))
  have hall := hlink.orElse ((reads_choice h hne).map Definition.choice)
  rw [mul_one] at hall
  refine hall.mono (fun _ => id) fun cs hcs => ?_
  rcases hcs with ⟨xs, hxs, ys, hys, rfl⟩ | hcs
  · exact mem_beginnings (Language.append_mem_mul (.inl hxs) hys)
  · exact beginnings_mul (mem_beginnings (.inr hcs)) (exists_mem_layout false)

/-- A production leads to productions with layout behind them, since the end of the line is looked
for behind links. -/
theorem reads_production (h : item.Reads depth items items) (hne : ∃ cs, cs ∈ items) :
    (production item).Reads depth (layout false * Written.production items)
      (layout false * (Written.production items * layout false)) := by
  have hmeaning : ∃ cs, cs ∈ Written.definition items * layout false :=
    exists_mem_mul ((exists_mem_choice hne).imp fun _ => .inr) (exists_mem_layout false)
  -- behind the name there is always something that completes the production
  have haround : ∃ cs, cs ∈ around "::=" * (Written.definition items * layout false) :=
    exists_mem_mul (exists_mem_mul (exists_mem_mul (exists_mem_layout false) ⟨_, rfl⟩)
      (exists_mem_layout false)) hmeaning
  have hall : (production item).Reads depth
      (layout false * (Written.name * (around "::=" * Written.definition items)))
      (layout false * (Written.name *
        (around "::=" * (Written.definition items * layout false)))) :=
    (reads_skip false).mul (fun _ => Reads.here.empty_bind fun _ => reads_name.mul (fun _ =>
      Reads.around ((reads_definition h hne).bind_empty fun _ => Reads.here.empty_bind fun _ =>
        .pure _) hmeaning) (le_beginnings_mul haround))
      (le_beginnings_mul (exists_mem_mul ⟨_, letter_mem_name⟩ haround))
  simp only [Written.production, mul_assoc]
  exact hall

/-- What separates productions leads to line breaks with layout around them. -/
theorem reads_separator : separator.Reads depth lineBreak lineBreak := by
  have hnewline : ['\n'] ∈ one isLineEnd := singleton_mem_one.2 (by decide)
  have hend : (expecting .newline (charWhere isLineEnd)).Reads depth (one isLineEnd)
      (one isLineEnd) :=
    (Reads.charWhere _).expecting (by simp) hnewline (mem_beginnings hnewline)
  have hall : separator.Reads depth (layout false * (one isLineEnd * layout true))
      (layout false * (one isLineEnd * layout true)) :=
    (reads_skip false).mul (fun _ => hend.mul (fun _ => reads_skip true)
      (le_beginnings_mul (exists_mem_layout true)))
      (le_beginnings_mul (exists_mem_mul ⟨_, hnewline⟩ (exists_mem_layout true)))
  rwa [← mul_assoc] at hall

/-- There is a production. -/
theorem exists_mem_production (hne : ∃ cs, cs ∈ items) : ∃ cs, cs ∈ Written.production items :=
  exists_mem_mul (exists_mem_mul ⟨_, letter_mem_name⟩ (exists_mem_mul
    (exists_mem_mul (exists_mem_layout false) ⟨_, rfl⟩) (exists_mem_layout false)))
    ((exists_mem_choice hne).imp fun _ => .inr)

/-- A production on a line of its own leads to more productions on lines of their own. -/
theorem reads_nextProduction (h : item.Reads depth items items) (hne : ∃ cs, cs ∈ items) :
    (do separator; production item : Rule Production).Reads depth
      (lineBreak * Written.production items) (lineBreak * Written.production items)∗ := by
  obtain ⟨last, hlast⟩ := exists_mem_production hne
  have hrest : ∃ cs, cs ∈ layout false * (Written.production items * layout false) :=
    exists_mem_mul (exists_mem_layout false)
      (exists_mem_mul ⟨last, hlast⟩ (exists_mem_layout false))
  have hreads := reads_separator.mul (fun _ => reads_production h hne) (le_beginnings_mul hrest)
  refine hreads.mono ?_ ?_
  · rintro _ ⟨gap, hgap, _, ⟨before, hbefore, p, hp, rfl⟩, rfl⟩
    show gap ++ (before ++ p) ∈ lineBreak * Written.production items
    rw [← List.append_assoc]
    exact Language.append_mem_mul (append_mem_lineBreak hgap (mem_layout_true hbefore)) hp
  · -- where the end of the line is looked for, another production could follow
    rintro _ ⟨gap, hgap, _, ⟨before, hbefore, _, ⟨p, hp, after, hafter, rfl⟩, rfl⟩, rfl⟩
    have hfirst := Language.append_mem_mul (append_mem_lineBreak hgap (mem_layout_true hbefore)) hp
    have hnewline : after ++ ['\n'] ++ [] ∈ lineBreak :=
      Language.append_mem_mul (Language.append_mem_mul hafter (singleton_mem_one.2 (by decide)))
        (Language.nil_mem_kstar _)
    have hall := append_mem_kstar hfirst (mem_kstar_of_mem (Language.append_mem_mul hnewline hlast))
    exact ⟨'\n' :: last, by simpa using hall⟩

/-- Everything in a document but the check that the text ends behind it. -/
def documentBody (item : Rule Item) : Rule Document := do
  skip true
  let first ← production item
  let more ← many do
    separator
    production item
  skip true
  return ⟨first :: more⟩

/-- A text is read and then its end is expected. -/
theorem document_eq (item : Rule Item) : document item = (do
    let found ← documentBody item
    expecting .endOfText atEnd
    return found) := by
  have hassoc : ∀ {α β γ : Type} (rule : Rule α) (next : α → Rule β) (last : β → Rule γ),
      (rule >>= next) >>= last = rule >>= fun a => next a >>= last := Rule.bind_assoc
  have hpure : ∀ {α β : Type} (a : α) (next : α → Rule β), (pure a : Rule α) >>= next = next a :=
    Rule.pure_bind
  simp only [documentBody, hassoc, hpure]
  rfl

/-- Up to its end, a text of productions leads to such texts. -/
theorem reads_documentBody (h : item.Reads depth items items) (hne : ∃ cs, cs ∈ items) :
    (documentBody item).Reads depth (Written.document items) (Written.document items) := by
  have hmore := (reads_nextProduction h hne).many fun _ => mem_beginnings
  have hrest : ∃ cs, cs ∈ (lineBreak * Written.production items)∗ * layout true :=
    exists_mem_mul ⟨[], Language.nil_mem_kstar _⟩ (exists_mem_layout true)
  -- layout behind a production may also be the layout at the end of the text
  have hend : layout false * (Written.production items * layout false) ≤
      beginnings (layout false * Written.production items *
        ((lineBreak * Written.production items)∗ * layout true)) := by
    rintro _ ⟨before, hbefore, _, ⟨p, hp, after, hafter, rfl⟩, rfl⟩
    have hall := Language.append_mem_mul (Language.append_mem_mul hbefore hp)
      (Language.append_mem_mul (Language.nil_mem_kstar (lineBreak * Written.production items))
        (mem_layout_true hafter))
    exact mem_beginnings (by simpa using hall)
  have hbody : (documentBody item).Reads depth
      (layout true * (layout false * Written.production items *
        ((lineBreak * Written.production items)∗ * layout true)))
      (layout true * (layout false * Written.production items *
        ((lineBreak * Written.production items)∗ * layout true))) :=
    (reads_skip true).mul (fun _ => (reads_production h hne).mul (fun _ => hmore.mul (fun _ =>
      (reads_skip true).bind_empty fun _ => .pure _)
        (le_beginnings_mul (exists_mem_layout true))) hend)
      (le_beginnings_mul (exists_mem_mul (exists_mem_mul (exists_mem_layout false)
        (exists_mem_production hne)) hrest))
  have hle : layout true * (layout false * Written.production items *
      ((lineBreak * Written.production items)∗ * layout true)) ≤ Written.document items := by
    rintro _ ⟨first, hfirst, _, ⟨_, ⟨before, hbefore, p, hp, rfl⟩, _, ⟨more, hmore, after, hafter,
      rfl⟩, rfl⟩, rfl⟩
    have hbegun := append_mem_layout hfirst (mem_layout_true hbefore)
    have hall := Language.append_mem_mul
      (Language.append_mem_mul hbegun (Language.append_mem_mul hp hmore)) hafter
    show first ++ (before ++ p ++ (more ++ after)) ∈ Written.document items
    simp only [List.append_assoc] at hall ⊢
    exact hall
  exact hbody.mono hle fun _ hcs => mem_beginnings (hle hcs)

/-- Every failure in a document leads to documents, or would end the text behind a document. -/
theorem each_document (h : item.Reads depth items items) (hne : ∃ cs, cs ∈ items) (c : Cursor)
    (n : Nat) :
    Event.Each (fun m offset expected =>
      c.Foresees (Written.document items) (n + depth) m offset expected ∨
        expected = .endOfText ∧ ∃ taken ∈ Written.document items,
          taken <+: c.rest ∧ offset = c.offset + Text.byteLength taken)
      n (document item c).events := by
  have hbody := reads_documentBody h hne
  have hleads := (hbody.leads c n).imp fun m offset expected hfail =>
    Or.inl (b := expected = .endOfText ∧ ∃ taken ∈ Written.document items,
      taken <+: c.rest ∧ offset = c.offset + Text.byteLength taken) hfail
  rw [document_eq]
  rcases attempt_cases (documentBody item) c with ⟨a, d, hm⟩ | hf | ⟨offset, ht⟩
  -- what stands in front of the end is a whole text, if anything is left behind it
  · obtain ⟨taken, htaken, hp⟩ := hbody.takes hm
    rw [bind_of_matches hm, Event.each_append, ((hbody.steady c).orderlyAt_of_matches hm).balanced]
    refine ⟨hleads, ?_⟩
    by_cases hrest : d.rest = []
    · have hend : (expecting .endOfText atEnd).Matches d () d :=
        matches_expecting.2 (matches_atEnd.2 ⟨hrest, rfl⟩)
      have hevents : (expecting .endOfText atEnd d).events = [] := by simp [expecting, atEnd, hrest]
      rw [bind_of_matches hend, hevents]
      trivial
    · have hend : (expecting .endOfText atEnd).Fails d := fails_expecting.2 (fails_atEnd.2 hrest)
      have hevents : (expecting .endOfText atEnd d).events = [.failed d.offset .endOfText] := by
        simp [expecting, atEnd, fail, hrest]
      rw [bind_of_fails hend, hevents]
      refine ⟨?_, trivial⟩
      rintro _ _ ⟨rfl, rfl⟩
      exact .inr ⟨rfl, taken, htaken, ⟨d.rest, hp.1.symm⟩, hp.2⟩
  · rw [bind_of_fails hf]
    exact hleads
  · rw [bind_of_tooDeep ht]
    exact hleads

end Documents

end Railroad.Notation
