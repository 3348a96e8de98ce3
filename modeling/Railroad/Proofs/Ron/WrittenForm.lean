import Railroad.Proofs.Ron.WrittenText
set_option autoImplicit false

/-!
# Written values are read back

A reader restores a value from its written form if it takes the form off the beginning of any text
and gives the value back, provided that the value fits into the nesting that is allowed; a value
that does not fit is stopped by the recursion limit and nothing else (`Restores`). What is restored
may be put into a variant, a list or a pair, and what is in the brackets may be laid out in one line
or in several (`Restores.payload`, `restores_list`, `Restores.pair`). A text that is a written form
and nothing else is read back as a whole (`Restores.run`).
-/

namespace Railroad.Ron.Nesting

/-- A maximum is within a bound if everything is of which it is taken. -/
theorem foldl_max_le_iff {n m : Nat} {ns : List Nat} :
    ns.foldl max m ≤ n ↔ m ≤ n ∧ ∀ k ∈ ns, k ≤ n := by
  induction ns generalizing m with
  | nil => simp
  | cons k ns ih => rw [List.foldl_cons, ih, max_le_iff, List.forall_mem_cons, and_assoc]

/-- A list fits if there is room for the list and for each of its elements. -/
theorem list_le_iff {budget : Nat} {ns : List Nat} :
    list ns ≤ budget ↔ budget ≠ 0 ∧ ∀ n ∈ ns, n + 2 ≤ budget := by
  cases ns with
  | nil => simp [list, Nat.one_le_iff_ne_zero]
  | cons n ns =>
      -- the deepest element decides
      have hlist : list (n :: ns) = 2 + ns.foldl max n := by
        rw [list, List.foldl_cons, Nat.zero_max]
        nofun
      rw [hlist]
      constructor
      · intro h
        obtain ⟨hn, hns⟩ := foldl_max_le_iff.1 (Nat.le_sub_of_add_le' h)
        refine ⟨by omega, List.forall_mem_cons.2 ⟨by omega, fun k hk => ?_⟩⟩
        exact Nat.add_le_of_le_sub (by omega) (hns k hk)
      · rintro ⟨-, h⟩
        obtain ⟨hn, hns⟩ := List.forall_mem_cons.1 h
        have hmax : ns.foldl max n ≤ budget - 2 :=
          foldl_max_le_iff.2 ⟨by omega, fun k hk => Nat.le_sub_of_add_le (hns k hk)⟩
        omega

end Railroad.Ron.Nesting

namespace Railroad.Ron.Reader

variable {α β : Type} {fits fits' : Prop} {form form' : List Char} {a : α} {b : β}

/-! ## Endings -/

/-- Reading ends with a value in front of `tail` if the nesting fits, and otherwise at the recursion
limit. -/
def Ends (fits : Prop) (a : α) (tail : List Char) (result : Except Stop (α × List Char)) : Prop :=
  (fits ∧ result = .ok (a, tail)) ∨
    (¬ fits ∧ ∃ stopped, result = .error stopped ∧ stopped.error = .exceededRecursionLimit)

theorem Ends.of_ok {tail : List Char} {result : Except Stop (α × List Char)}
    (h : result = .ok (a, tail)) : Ends True a tail result := .inl ⟨trivial, h⟩

theorem Ends.congr {tail : List Char} {result : Except Stop (α × List Char)}
    (h : Ends fits a tail result) (hfits : fits ↔ fits') : Ends fits' a tail result := by
  rcases h with ⟨hin, hok⟩ | ⟨hout, hlimit⟩
  · exact .inl ⟨hfits.1 hin, hok⟩
  · exact .inr ⟨fun hin => hout (hfits.2 hin), hlimit⟩

/-- A first step that succeeds leaves the ending to the second one. -/
theorem Ends.bind_of_ok {reader : Reader α} {next : α → Reader β} {cs mid tail : List Char}
    (hr : reader cs = .ok (a, mid)) (h : Ends fits b tail (next a mid)) :
    Ends fits b tail ((reader >>= next) cs) := by
  rw [Reader.bind_of_ok hr]
  exact h

/-- Two steps in a row fit if each of them fits. -/
theorem Ends.bind {reader : Reader α} {next : α → Reader β} {cs mid tail : List Char}
    (hr : Ends fits a mid (reader cs)) (h : Ends fits' b tail (next a mid)) :
    Ends (fits ∧ fits') b tail ((reader >>= next) cs) := by
  rcases hr with ⟨hin, hok⟩ | ⟨hout, stopped, herror, hlimit⟩
  · exact (Ends.bind_of_ok hok h).congr ⟨fun h => ⟨hin, h⟩, And.right⟩
  · exact .inr ⟨fun h => hout h.1, stopped, bind_of_error herror, hlimit⟩

/-- A last step that succeeds whatever the first one does leaves the ending to the first one. -/
theorem Ends.bind_ok {reader : Reader α} {next : α → Reader β} {cs mid tail : List Char}
    (hr : Ends fits a mid (reader cs)) (h : next a mid = .ok (b, tail)) :
    Ends fits b tail ((reader >>= next) cs) :=
  (hr.bind (.of_ok h)).congr (iff_of_eq (and_true fits))

/-- What is nested fits if the budget is not used up and it fits in itself. -/
theorem Ends.nested {budget : Nat} {inside : Reader α} {cs tail : List Char}
    (h : Ends fits a tail (inside cs)) :
    Ends (budget ≠ 0 ∧ fits) a tail (nested budget inside cs) := by
  cases budget with
  | zero => exact .inr ⟨fun h => h.1 rfl, _, nested_zero inside cs, rfl⟩
  | succ budget =>
      rw [nested_of_pos (Nat.succ_ne_zero budget)]
      exact h.congr ⟨fun hin => ⟨Nat.succ_ne_zero budget, hin⟩, And.right⟩

/-! ## Forms that are restored -/

/-- Whatever follows a written form, the reader takes the form and gives the value back if the
nesting fits, and otherwise the recursion limit stops it. -/
def Restores (reader : Reader α) (fits : Prop) (form : List Char) (a : α) : Prop :=
  ∀ rest, Ends fits a rest (reader (form ++ rest))

theorem Restores.congr {reader : Reader α} (h : Restores reader fits form a)
    (hfits : fits ↔ fits') : Restores reader fits' form a := fun rest => (h rest).congr hfits

/-- Whether no value begins with a character: it is a blank, begins a comment or an attribute,
stands between values or closes a bracket. -/
def beginsNone (c : Char) : Bool :=
  isGap c || c == '/' || c == '#' || c == ',' || c == ')' || c == ']'

/-- The first character of a text is one that values begin with. -/
def Begins (form : List Char) : Prop := ∃ c tail, form = c :: tail ∧ beginsNone c = false

/-- Blanks in front of a form are passed over, and nothing else. -/
theorem Begins.gaps_append {blanks : List Char} (h : Begins form)
    (hblanks : ∀ c ∈ blanks, isGap c = true) (rest : List Char) :
    gaps (blanks ++ (form ++ rest)) = .ok ((), form ++ rest) := by
  obtain ⟨c, tail, rfl, hc⟩ := h
  simp only [beginsNone, Bool.or_eq_false_iff, beq_eq_false_iff_ne] at hc
  rw [Reader.gaps_append hblanks]
  exact gaps_cons hc.1.1.1.1.1 hc.1.1.1.1.2 (tail ++ rest)

theorem Begins.gaps (h : Begins form) (rest : List Char) :
    gaps (form ++ rest) = .ok ((), form ++ rest) :=
  h.gaps_append (List.forall_mem_nil _) rest

/-- A form that a value begins with is an element. -/
theorem Begins.hasElement {blanks : List Char} {closing : Char} (h : Begins form)
    (hblanks : ∀ c ∈ blanks, isGap c = true) (hclosing : beginsNone closing = true)
    (rest : List Char) :
    hasElement closing true (blanks ++ (form ++ rest)) = .ok (true, form ++ rest) := by
  have hgaps := h.gaps_append hblanks rest
  obtain ⟨c, tail, rfl, hc⟩ := h
  refine hasElement_of_ne hgaps ?_
  rintro rfl
  rw [hc] at hclosing
  cases hclosing

theorem begins_string (text : String) : Begins (Form.string text) := ⟨'"', _, rfl, by decide⟩

theorem begins_tuple (elements : List (List Char)) : Begins (Form.tuple elements) :=
  ⟨'(', _, rfl, by decide⟩

/-- Lists begin with their bracket, in either layout. -/
theorem begins_list (layout : Layout) (elements : List (List Char)) :
    Begins (Form.list layout elements) := by
  cases layout <;> cases elements <;> exact ⟨'[', _, rfl, by decide⟩

/-- Texts are restored, however deeply they are nested. -/
theorem restores_string (text : String) : Restores string True (Form.string text) text :=
  fun rest => .of_ok (string_append text rest)

/-- What is made of a value that is restored is restored from the same form. -/
theorem Restores.made {inside : Reader α} (h : Restores inside fits form a) (make : α → β) :
    Restores (do return make (← inside)) fits form (make a) :=
  fun rest => (h rest).bind_ok rfl

/-- What a variant holds is restored from between its parentheses. -/
theorem Restores.payload {inside : Reader α} (h : Restores inside fits form a) (hb : Begins form) :
    Restores (payload inside) fits ('(' :: (form ++ [')'])) a := by
  intro rest
  rw [List.cons_append, List.append_assoc]
  -- one step after the other, of which only the value may be nested too deeply
  apply Ends.bind_of_ok (gaps_cons (by decide) (by decide) _)
  apply Ends.bind_of_ok (require_cons '(' _ _)
  apply Ends.bind_of_ok (hb.gaps _)
  apply (h _).bind_ok
  rw [List.singleton_append, bind_of_ok (comma_of_mem (by simp) rest),
    bind_of_ok (require_cons ')' _ rest), pure_apply]

/-- Both values of a pair are restored from their places. -/
theorem Restores.pair {first : Reader α} {second : Reader β} (h : Restores first fits form a)
    (h' : Restores second fits' form' b) (hb : Begins form) (hb' : Begins form') (budget : Nat) :
    Restores (pair budget first second) (budget ≠ 0 ∧ fits ∧ fits') (Form.tuple [form, form'])
      (a, b) := by
  intro rest
  -- the two forms, with a comma between them and a parenthesis at either end
  have hform : Form.tuple [form, form'] ++ rest =
      '(' :: (form ++ ',' :: (form' ++ ')' :: rest)) := by
    simp [Form.tuple, Form.commaSeparated]
  rw [hform]
  apply Ends.bind_of_ok (require_cons '(' _ _)
  apply Ends.nested
  apply Ends.bind_of_ok (hb.hasElement (List.forall_mem_nil _) (by decide) _)
  apply (h _).bind
  apply Ends.bind_of_ok (comma_cons (hb'.gaps _))
  apply Ends.bind_of_ok (hb'.hasElement (List.forall_mem_nil _) (by decide) _)
  apply (h' _).bind_ok
  rw [bind_of_ok (comma_of_mem (by simp) rest), bind_of_ok (require_cons ')' _ rest), pure_apply]

/-! ## Lists -/

/-- Forms one behind the other. Blanks may stand in front of each and behind the last, and behind
each there is a comma, which may be missing behind the last. -/
inductive Row : List (List Char) → List Char → Prop where
  | nil {blanks : List Char} : (∀ c ∈ blanks, isGap c = true) → Row [] blanks
  | last {blanks form : List Char} : (∀ c ∈ blanks, isGap c = true) → Row [form] (blanks ++ form)
  | cons {blanks form text : List Char} {forms : List (List Char)} :
      (∀ c ∈ blanks, isGap c = true) → Row forms text →
        Row (form :: forms) (blanks ++ (form ++ ',' :: text))

/-- Elements in one line stand in a row, without a comma behind the last. -/
theorem row_commaSeparated (forms : List (List Char)) : Row forms (Form.commaSeparated forms) := by
  induction forms with
  | nil => exact .nil (List.forall_mem_nil _)
  | cons form forms ih =>
      cases forms with
      | nil => exact .last (List.forall_mem_nil _)
      | cons form' forms =>
          rw [Form.commaSeparated, List.append_assoc]
          · exact .cons (List.forall_mem_nil _) ih
          · nofun

theorem isGap_of_mem_indent {level : Nat} {c : Char} (h : c ∈ Form.indent level) :
    isGap c = true := by
  rw [(List.mem_replicate.1 h).2]
  rfl

/-- Elements in lines of their own stand in a row, with a comma behind each. -/
theorem row_lines (level : Nat) (forms : List (List Char)) :
    Row forms
      ('\n' :: (forms.flatMap (fun form => Form.indent (level + 1) ++ form ++ [',', '\n']) ++
        Form.indent level)) := by
  have hblanks (level : Nat) : ∀ c ∈ '\n' :: Form.indent level, isGap c = true :=
    List.forall_mem_cons.2 ⟨rfl, fun c => isGap_of_mem_indent⟩
  induction forms with
  | nil => exact .nil (hblanks level)
  | cons form forms ih =>
      have hrow : Row (form :: forms) _ := .cons (hblanks (level + 1)) ih
      simpa using hrow

/-- In either layout the elements of a list stand in a row between its brackets. -/
theorem exists_row_list (layout : Layout) (forms : List (List Char)) :
    ∃ text, Form.list layout forms = '[' :: (text ++ [']']) ∧ Row forms text := by
  cases layout with
  | compact => exact ⟨_, rfl, row_commaSeparated forms⟩
  | indented level =>
      cases forms with
      | nil => exact ⟨[], rfl, .nil (List.forall_mem_nil _)⟩
      | cons form forms => exact ⟨_, by simp [Form.list], row_lines level (form :: forms)⟩

/-- A row is as long as it has elements, or longer. -/
theorem Row.length_le {forms : List (List Char)} {text : List Char} (h : Row forms text)
    (hb : ∀ form ∈ forms, Begins form) : forms.length ≤ text.length := by
  induction h with
  | nil => exact Nat.zero_le _
  | @last blanks form =>
      obtain ⟨c, tail, rfl, -⟩ := hb form (by simp)
      simp only [List.length_append, List.length_cons, List.length_nil]
      omega
  | cons _ _ ih =>
      have hrest := ih fun form hform => hb form (List.mem_cons_of_mem _ hform)
      simp only [List.length_append, List.length_cons]
      omega

theorem gaps_append_bracket {blanks : List Char} (hblanks : ∀ c ∈ blanks, isGap c = true)
    (rest : List Char) : gaps (blanks ++ ']' :: rest) = .ok ((), ']' :: rest) := by
  rw [gaps_append hblanks]
  exact gaps_cons (by decide) (by decide) rest

/-- Blanks in front of a row are passed over, in whichever way the row ends. -/
theorem Row.exists_gaps {forms : List (List Char)} {text : List Char} (h : Row forms text)
    (hb : ∀ form ∈ forms, Begins form) (rest : List Char) :
    ∃ tail, gaps (text ++ ']' :: rest) = .ok ((), tail) := by
  cases h with
  | nil hblanks => exact ⟨_, gaps_append_bracket hblanks rest⟩
  | last hblanks =>
      rw [List.append_assoc]
      exact ⟨_, (hb _ (by simp)).gaps_append hblanks _⟩
  | cons hblanks _ =>
      rw [List.append_assoc, List.append_assoc]
      exact ⟨_, (hb _ (by simp)).gaps_append hblanks _⟩

section List

variable {element : Reader α} {fitting : α → Prop} {written : α → List Char} {items : List α}

/-- Elements in a row are restored one after the other. -/
theorem ends_eachWithin {text : List Char} (hrow : Row (items.map written) text)
    (h : ∀ a ∈ items, Restores element (fitting a) (written a) a)
    (hb : ∀ a ∈ items, Begins (written a)) {budget : List Char}
    (hbudget : items.length ≤ budget.length) (done : List α) (rest : List Char) :
    Ends (∀ a ∈ items, fitting a) (items.reverse ++ done) (']' :: rest)
      (eachWithin ']' (collect element) budget done true (text ++ ']' :: rest)) := by
  -- the induction is on the row, where each element takes one from the budget
  generalize hforms : items.map written = forms at hrow
  induction hrow generalizing items budget done with
  | nil hblanks =>
      obtain rfl := List.map_eq_nil_iff.1 hforms
      have hnone := hasElement_of_closing true (gaps_append_bracket hblanks rest)
      exact (Ends.of_ok (eachWithin_of_closing hnone _ budget done)).congr (by simp)
  | last hblanks =>
      obtain ⟨a, rfl, rfl⟩ := List.map_eq_singleton_iff.1 hforms
      obtain _ | ⟨b, budget⟩ := budget
      · simp at hbudget
      have hone : hasElement ']' true _ = _ :=
        (hb a (by simp)).hasElement hblanks (by decide) (']' :: rest)
      have hnone : hasElement ']' false (']' :: rest) = _ :=
        hasElement_of_closing false (gaps_append_bracket (List.forall_mem_nil _) rest)
      rw [List.append_assoc, eachWithin_of_element hone]
      refine ((((h a (by simp)).made (· :: done)) _).bind_ok ?_).congr (by simp)
      rw [bind_of_ok (comma_of_mem (by simp) rest)]
      exact eachWithin_of_closing hnone _ budget _
  | @cons blanks _ text _ hblanks hrow ih =>
      obtain ⟨a, items, rfl, rfl, htail⟩ := List.map_eq_cons_iff.1 hforms
      obtain _ | ⟨b, budget⟩ := budget
      · simp at hbudget
      obtain ⟨ha, hitems⟩ := List.forall_mem_cons.1 h
      obtain ⟨hba, hbitems⟩ := List.forall_mem_cons.1 hb
      -- behind the comma the blanks of the next element, or of the end, are passed over
      have hbforms := List.forall_mem_map.2 hbitems
      rw [htail] at hbforms
      obtain ⟨tail, hgaps⟩ := hrow.exists_gaps hbforms rest
      have hone : hasElement ']' true _ = _ :=
        hba.hasElement hblanks (by decide) (',' :: text ++ ']' :: rest)
      rw [List.append_assoc, List.append_assoc, eachWithin_of_element hone]
      refine ((ha.made (· :: done) _).bind ?_).congr List.forall_mem_cons.symm
      rw [List.cons_append, bind_of_ok (comma_cons hgaps), eachWithin_of_gaps hgaps,
        List.reverse_cons, List.append_assoc, List.singleton_append]
      exact ih hitems hbitems (by simpa using hbudget) (a :: done) htail

/-- The elements of a list are restored, in either layout. -/
theorem restores_list (h : ∀ a ∈ items, Restores element (fitting a) (written a) a)
    (hb : ∀ a ∈ items, Begins (written a)) (layout : Layout) (budget : Nat) :
    Restores (list budget element) (budget ≠ 0 ∧ ∀ a ∈ items, fitting a)
      (Form.list layout (items.map written)) items := by
  intro rest
  obtain ⟨text, hform, hrow⟩ := exists_row_list layout (items.map written)
  have hlength := hrow.length_le (List.forall_mem_map.2 hb)
  -- the elements are collected in reverse order, within a budget as long as the text
  have heach : Ends (∀ a ∈ items, fitting a) items.reverse (']' :: rest)
      (each ']' (collect element) [] (text ++ ']' :: rest)) := by
    rw [each, bind_of_ok (rest_apply _), ← List.append_nil items.reverse]
    refine ends_eachWithin hrow h hb ?_ [] rest
    rw [List.length_map] at hlength
    rw [List.length_append]
    omega
  rw [hform, List.cons_append, List.append_assoc]
  apply Ends.bind_of_ok (require_cons '[' _ _)
  apply Ends.nested
  apply heach.bind_ok
  rw [bind_of_ok (require_cons ']' _ rest), pure_apply, List.reverse_reverse]

end List

/-! ## Whole texts -/

/-- A text that is a written form and nothing else is read as its value if that fits, and otherwise
the recursion limit stops reading. -/
theorem Restores.run {reader : Reader α} (h : Restores reader fits form a) (hb : Begins form) :
    (fits ∧ run reader (String.ofList form) = .ok a) ∨
      (¬ fits ∧ ∃ failure, run reader (String.ofList form) = .error failure ∧
        failure.error = .exceededRecursionLimit) := by
  have hgaps := hb.gaps []
  -- a value does not begin with the sign of an attribute
  have hattributes : attributes form = .ok ((), form) := by
    obtain ⟨c, tail, rfl, hc⟩ := hb
    have hhash : c ≠ '#' := by
      rintro rfl
      cases hc
    rw [attributes, bind_of_ok (rest_apply _), attributesWithin, bind_of_ok (peek?_apply _),
      List.head?_cons, if_neg (by simpa using hhash)]
    rfl
  have hwhole : Ends fits a [] (whole reader form) := by
    have hvalue := h []
    rw [List.append_nil] at hgaps hvalue
    exact Ends.bind_of_ok hgaps (Ends.bind_of_ok hattributes (hvalue.bind_ok rfl))
  rw [Reader.run, String.toList_ofList]
  rcases hwhole with ⟨hin, hok⟩ | ⟨hout, stopped, herror, hlimit⟩
  · exact .inl ⟨hin, by rw [hok]⟩
  · exact .inr ⟨hout, place form stopped, by rw [herror], hlimit⟩

end Railroad.Ron.Reader
