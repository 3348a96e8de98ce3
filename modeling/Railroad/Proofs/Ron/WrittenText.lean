import Railroad.Proofs.Ron.Reader
import Railroad.Proofs.Text.Hex
import Railroad.Ron.Writer
set_option autoImplicit false

/-!
# Written texts and names are read back

Every character of a text is written so that the reader of texts gives it back, whether it stands
for itself, is named by a letter behind a backslash or is written by its code point
(`escaped_of_escapeChar`). So a text is read back from between its quotes, whatever follows them
(`string_append`), and the name of a variant from in front of its parenthesis (`ident_append`).
-/

namespace Railroad.Ron.Reader

/-! ## Characters behind a backslash -/

/-- The digits of a code point are read up to the brace behind them. -/
theorem digitsInBraces_append {digits : List Char} {left n value : Nat} (rest : List Char)
    (hlength : digits.length ≤ left) (h : digits.foldlM Text.appendDigit n = some value) :
    ∃ values, digitsInBraces left (digits ++ '}' :: rest) = .ok (values, '}' :: rest) ∧
      values.length = digits.length ∧ values.foldl (fun n digit => 16 * n + digit) n = value := by
  -- the induction is on the digits, each of which takes one of those that are left
  induction digits generalizing left n with
  | nil =>
      obtain rfl := Option.some.inj h
      cases left <;> exact ⟨[], rfl, rfl, rfl⟩
  | cons c digits ih =>
      obtain _ | left := left
      · simp at hlength
      rw [List.foldlM_cons, Option.bind_eq_bind, Option.bind_eq_some_iff] at h
      obtain ⟨m, hm, hrest⟩ := h
      obtain ⟨digit, hdigit, rfl⟩ := Option.map_eq_some_iff.1 hm
      obtain ⟨values, hread, hcount, hvalue⟩ := ih (by simpa using hlength) hrest
      have hbrace : c ≠ '}' := by
        rintro rfl
        cases hdigit
      have hhex : hexDigit (c :: (digits ++ '}' :: rest)) = .ok (digit, digits ++ '}' :: rest) := by
        rw [hexDigit, bind_of_ok (peek?_apply _)]
        simp only [List.head?_cons, hdigit]
        exact bind_of_ok (accept_cons c _)
      refine ⟨digit :: values, ?_, by rw [List.length_cons, List.length_cons, hcount], hvalue⟩
      rw [List.cons_append, digitsInBraces, bind_of_ok (peek?_apply _)]
      rw [if_neg (by simpa using hbrace), bind_of_ok hhex]
      exact bind_of_ok hread

theorem requireInEscape_cons (c : Char) (fault : EscapeFault) (rest : List Char) :
    requireInEscape c fault (c :: rest) = .ok ((), rest) :=
  bind_of_ok (accept_cons c rest)

/-- A code point in braces is read as its character. -/
theorem bracedCode_append (c : Char) (rest : List Char) :
    bracedCode ('{' :: (Text.hexDigits c.toNat ++ '}' :: rest)) = .ok (c, rest) := by
  -- no code point has more digits than are read
  have hlength : (Text.hexDigits c.toNat).length ≤ 6 := by
    refine (Nat.length_toDigits_le_iff (by decide) (by decide)).2 ?_
    have hvalid : c.toNat.isValidChar := c.valid
    simp only [Nat.isValidChar] at hvalid
    omega
  obtain ⟨values, hread, hcount, hvalue⟩ :=
    digitsInBraces_append rest hlength (Text.foldlM_hexDigits c.toNat)
  have hne : values.isEmpty = false := by
    rw [List.isEmpty_eq_false_iff, ← List.length_pos_iff, hcount, List.length_pos_iff]
    exact Text.hexDigits_ne_nil c.toNat
  rw [bracedCode, bind_of_ok (requireInEscape_cons '{' _ _), bind_of_ok hread, hne]
  simp only [Bool.false_eq_true, if_false]
  rw [bind_of_ok (requireInEscape_cons '}' _ rest), hvalue, Text.charOfCode?_toNat]
  rfl

/-- A letter behind a backslash is read as the character that it stands for. -/
theorem escaped_of_escapeValue? {letter c : Char} (h : escapeValue? letter = some c)
    (rest : List Char) : escaped (letter :: rest) = .ok (c, rest) := by
  rw [escaped, bind_of_ok (rest_apply _)]
  simp only [h]
  rfl

/-- The letter that a character is written with stands for the character. -/
theorem escapeValue?_of_escapeLetter? {letter c : Char} (h : Text.escapeLetter? c = some letter) :
    escapeValue? letter = some c := by
  unfold Text.escapeLetter? at h
  split at h <;> cases h <;> rfl

/-- Between quotes of either kind a character stands for itself, or it is what the backslash in
front of its written form stands for. -/
theorem escaped_of_escapeChar (c : Char) :
    (Text.escapeChar ['"', '\''] c = [c] ∧ isQuoteOrBackslash c = false) ∨
      ∃ form, Text.escapeChar ['"', '\''] c = '\\' :: form ∧
        ∀ rest, escaped (form ++ rest) = .ok (c, rest) := by
  unfold Text.escapeChar
  split
  next letter hletter =>
    exact .inr ⟨[letter], rfl, escaped_of_escapeValue? (escapeValue?_of_escapeLetter? hletter)⟩
  next hletter =>
    split
    next hquote =>
      -- a quote stands for itself behind a backslash
      simp only [List.mem_cons, List.not_mem_nil, or_false] at hquote
      refine .inr ⟨[c], rfl, escaped_of_escapeValue? ?_⟩
      rcases hquote with rfl | rfl <;> rfl
    next hquote =>
      split
      next =>
        refine .inr ⟨'u' :: '{' :: (Text.hexDigits c.toNat ++ ['}']), rfl, fun rest => ?_⟩
        have hcode := bracedCode_append c rest
        rw [List.cons_append, List.cons_append, List.append_assoc, escaped,
          bind_of_ok (rest_apply _)]
        exact hcode
      next =>
        refine .inl ⟨rfl, ?_⟩
        have hbackslash : c ≠ '\\' := by
          rintro rfl
          cases hletter
        simp_all [isQuoteOrBackslash]

/-! ## Texts -/

/-- A character that stands for itself is added in front of what is read behind it. -/
theorem quotedWithin_cons {c : Char} {budget cs text tail : List Char}
    (hc : isQuoteOrBackslash c = false) (h : quotedWithin budget cs = .ok (text, tail)) :
    quotedWithin budget (c :: cs) = .ok (c :: text, tail) := by
  cases budget with
  | nil => cases h
  | cons b budget =>
      rw [quotedWithin, bind_of_ok (rest_apply _)] at h ⊢
      have hdrop : (c :: cs).dropWhile (!isQuoteOrBackslash ·) =
          cs.dropWhile (!isQuoteOrBackslash ·) :=
        List.dropWhile_cons_of_pos (by simp [hc])
      have htake : (c :: cs).takeWhile (!isQuoteOrBackslash ·) =
          c :: cs.takeWhile (!isQuoteOrBackslash ·) := List.takeWhile_cons_of_pos (by simp [hc])
      rw [hdrop, htake]
      -- both runs end at the same place, where a quote or a backslash stands
      generalize cs.dropWhile (!isQuoteOrBackslash ·) = left at h ⊢
      obtain _ | ⟨d, left⟩ := left
      · cases h
      by_cases hquote : d = '"'
      · subst hquote
        obtain ⟨_, _, hset, hpure⟩ := bind_eq_ok.1 h
        obtain ⟨rfl, rfl⟩ := pure_eq_ok.1 hpure
        exact bind_eq_ok.2 ⟨_, _, hset, rfl⟩
      · simp only at h ⊢
        obtain ⟨_, mid, hset, h⟩ := bind_eq_ok.1 h
        obtain ⟨d, mid', hescaped, h⟩ := bind_eq_ok.1 h
        obtain ⟨more, mid'', hmore, hpure⟩ := bind_eq_ok.1 h
        obtain ⟨rfl, rfl⟩ := pure_eq_ok.1 hpure
        exact bind_eq_ok.2 ⟨_, _, hset,
          bind_eq_ok.2 ⟨_, _, hescaped, bind_eq_ok.2 ⟨_, _, hmore, rfl⟩⟩⟩

/-- A character behind a backslash is added in front of what is read behind it, for one of the
budget. -/
theorem quotedWithin_backslash {b c : Char} {budget cs mid text tail : List Char}
    (hc : escaped cs = .ok (c, mid)) (h : quotedWithin budget mid = .ok (text, tail)) :
    quotedWithin (b :: budget) ('\\' :: cs) = .ok (c :: text, tail) := by
  rw [quotedWithin, bind_of_ok (rest_apply _), List.dropWhile_cons_of_neg (by decide),
    List.takeWhile_cons_of_neg (by decide)]
  exact bind_eq_ok.2 ⟨_, _, rfl, bind_eq_ok.2 ⟨_, _, hc, bind_eq_ok.2 ⟨_, _, h, rfl⟩⟩⟩

/-- The written characters of a text are read up to the quote behind them. -/
theorem quotedWithin_append {budget : List Char} (text rest : List Char)
    (h : text.length < budget.length) :
    quotedWithin budget (text.flatMap (Text.escapeChar ['"', '\'']) ++ '"' :: rest) =
      .ok (text, rest) := by
  induction text generalizing budget with
  | nil =>
      cases budget with
      | nil => simp at h
      | cons b budget => rfl
  | cons c text ih =>
      obtain _ | ⟨b, budget⟩ := budget
      · simp at h
      rw [List.flatMap_cons, List.append_assoc]
      rw [List.length_cons, List.length_cons] at h
      rcases escaped_of_escapeChar c with ⟨hform, hc⟩ | ⟨form, hform, hc⟩
      -- a character that stands for itself takes nothing from the budget
      · rw [hform]
        refine quotedWithin_cons hc (ih ?_)
        rw [List.length_cons]
        omega
      · rw [hform]
        exact quotedWithin_backslash (hc _) (ih (by omega))

/-- The written form of a text is as long as the text, or longer. -/
theorem length_le_flatMap_escapeChar (text : List Char) :
    text.length ≤ (text.flatMap (Text.escapeChar ['"', '\''])).length := by
  induction text with
  | nil => exact Nat.le_refl 0
  | cons c text ih =>
      have hform : 1 ≤ (Text.escapeChar ['"', '\''] c).length := by
        rcases escaped_of_escapeChar c with ⟨hform, -⟩ | ⟨form, hform, -⟩ <;> simp [hform]
      rw [List.flatMap_cons, List.length_append, List.length_cons]
      omega

/-- A written text is read back, whatever follows it. -/
theorem string_append (text : String) (rest : List Char) :
    string (Form.string text ++ rest) = .ok (text, rest) := by
  have hquoted : quotedTail (text.toList.flatMap (Text.escapeChar ['"', '\'']) ++ '"' :: rest) =
      .ok (text.toList, rest) := by
    rw [quotedTail, bind_of_ok (rest_apply _)]
    refine quotedWithin_append _ _ ?_
    -- the budget is as long as the written text with its closing quote
    have hlength := length_le_flatMap_escapeChar text.toList
    rw [List.length_append, List.length_cons]
    omega
  simp only [Form.string, List.append_assoc, List.cons_append, List.nil_append]
  rw [string, bind_of_ok (accept_cons '"' _)]
  refine (bind_of_ok hquoted).trans ?_
  rw [pure_apply, String.ofList_toList]

/-! ## Names -/

/-- The first character of a name tells it from a raw one. -/
theorem ident_cons {c : Char} (hraw : c ≠ 'r') (hstart : isIdentStart c = true) (tail : List Char) :
    ident (c :: tail) = plainIdent (c :: tail) := by
  rw [ident, bind_of_ok (rest_apply _)]
  simp [hraw, hstart]

/-- A plain name in front of a parenthesis is read as it is, unless it begins like a raw one. -/
theorem ident_append {name : String} {c : Char} {tail : List Char} (hname : name.toList = c :: tail)
    (hplain : isPlain name.toList = true) (hraw : c ≠ 'r') (rest : List Char) :
    ident (name.toList ++ '(' :: rest) = .ok (name, '(' :: rest) := by
  rw [hname, isPlain, Bool.and_eq_true, List.all_eq_true] at hplain
  obtain ⟨hstart, htail⟩ := hplain
  -- the first character of a name may also stand behind others
  have hident : ∀ d ∈ c :: tail, isIdentChar d = true := by
    refine List.forall_mem_cons.2 ⟨?_, htail⟩
    simp only [isIdentStart, isIdentChar, Char.isAlphanum, Bool.or_eq_true] at hstart ⊢
    exact hstart.imp_left .inl
  have htake {condition : Char → Bool} (h : ∀ d ∈ c :: tail, condition d = true)
      (hparen : condition '(' = false) :
      ((c :: tail) ++ '(' :: rest).takeWhile condition = c :: tail := by
    rw [List.takeWhile_append_of_pos h, List.takeWhile_cons_of_neg (by simp [hparen]),
      List.append_nil]
  have hplainIdent : plainIdent ((c :: tail) ++ '(' :: rest) = .ok (name, '(' :: rest) := by
    have hrawChars : ∀ d ∈ c :: tail, isRawChar d = true := fun d hd => by
      simp [isRawChar, hident d hd]
    rw [plainIdent, bind_of_ok (rest_apply _), htake hident (by decide),
      htake hrawChars (by decide)]
    simp only [lt_irrefl, if_false]
    refine bind_eq_ok.2 ⟨c :: tail, '(' :: rest, ?_, ?_⟩
    · rw [takeWhile, htake hident (by decide), List.dropWhile_append_of_pos hident,
        List.dropWhile_cons_of_neg (by decide)]
    · rw [pure_apply, ← hname, String.ofList_toList]
  rw [hname, List.cons_append, ident_cons hraw hstart]
  exact hplainIdent

end Railroad.Ron.Reader
