import Railroad.Diagram.Expression
import Railroad.Proofs.Diagram.Alternatives
import Railroad.Proofs.Text.Hex
set_option autoImplicit false

/-!
# Expressions tell diagrams apart

An expression is a call, and what it calls, its arguments and where it ends can be seen from its
text alone: an expression with any text behind it determines both the diagram and that text
(`exprChars_append_inj`). The boxes of a diagram can hold everything that expressions are made of,
so this rests on string literals being read back. A literal ends at its first quote that no
backslash escapes (`decodeLiteral?`), and cutting all literals out of an expression gives the texts
of the diagram (`carries_exprChars`). For diagrams and for complete drawings the two statements are
put together in `expr_unambiguous`.
-/

namespace Railroad.Diagram

/-! ## String literals -/

/-- The text of a string literal from behind its opening quote, and what follows the closing quote.
A backslash only stands in front of what it escapes, and no literal goes on in another line. -/
def decodeLiteral? : List Char → Option (List Char × List Char)
  | [] => none
  | '"' :: rest => some ([], rest)
  | '\\' :: '"' :: rest => (decodeLiteral? rest).map fun (text, after) => ('"' :: text, after)
  | '\\' :: '\\' :: rest => (decodeLiteral? rest).map fun (text, after) => ('\\' :: text, after)
  | '\\' :: 'n' :: rest => (decodeLiteral? rest).map fun (text, after) => ('\n' :: text, after)
  | '\\' :: 'r' :: rest => (decodeLiteral? rest).map fun (text, after) => ('\r' :: text, after)
  | '\\' :: 't' :: rest => (decodeLiteral? rest).map fun (text, after) => ('\t' :: text, after)
  | '\\' :: 'u' :: a :: b :: c :: d :: rest =>
      ((Text.hexNumber? [a, b, c, d]).bind Text.charOfCode?).bind fun char =>
        (decodeLiteral? rest).map fun (text, after) => (char :: text, after)
  | c :: rest =>
      if c = '\\' ∨ c = '\n' ∨ c = '\r' then none
      else (decodeLiteral? rest).map fun (text, after) => (c :: text, after)

/-- What is written for a character is decoded as that character. -/
theorem decodeLiteral?_literalChar_append (c : Char) (rest : List Char) :
    decodeLiteral? (literalChar c ++ rest) =
      (decodeLiteral? rest).map fun (text, after) => (c :: text, after) := by
  unfold literalChar
  split
  · rfl
  · rfl
  · rfl
  · rfl
  · rfl
  next hquote hbackslash hnewline hreturn _ =>
    by_cases hcontrol : Text.isControl c = true
    · -- the four digits of a control character are read as its number again
      have hnumber := Text.hexNumber?_hexDigits (4 - (Text.hexDigits c.toNat).length) c.toNat
      have hlength := Text.length_padded_hexDigits (Text.toNat_lt_of_isControl hcontrol)
      rw [if_pos hcontrol]
      simp only [List.append_assoc, List.cons_append, List.nil_append] at hnumber hlength ⊢
      rw [← List.append_assoc]
      match List.replicate (4 - (Text.hexDigits c.toNat).length) '0' ++ Text.hexDigits c.toNat,
        hlength, hnumber with
      | [w, x, y, z], _, hnumber =>
          have hcode : (Text.hexNumber? [w, x, y, z]).bind Text.charOfCode? = some c := by
            rw [hnumber, Option.bind_some, Text.charOfCode?_toNat]
          simp only [List.cons_append, List.nil_append, decodeLiteral?, hcode, Option.bind_some]
    · rw [if_neg hcontrol]
      simp_all [decodeLiteral?]

/-- A text that is written as a string literal is what the literal is decoded as, and the literal
ends at the quote that was written last. -/
theorem decodeLiteral?_flatMap_append (text rest : List Char) :
    decodeLiteral? (text.flatMap literalChar ++ '"' :: rest) = some (text, rest) := by
  induction text with
  | nil => rfl
  | cons c text ih =>
      rw [List.flatMap_cons, List.append_assoc, decodeLiteral?_literalChar_append, ih,
        Option.map_some]

/-- Decoding a literal uses up some of the text. -/
theorem length_decodeLiteral? {cs text after : List Char}
    (h : decodeLiteral? cs = some (text, after)) : after.length < cs.length := by
  -- each clause takes one character at least, and what it leaves is decoded further or is the rest
  fun_induction decodeLiteral? cs generalizing text <;>
    simp only [Option.some.injEq, Prod.mk.injEq, Option.map_eq_some_iff, Option.bind_eq_some_iff,
      Prod.exists, reduceCtorEq, List.length_cons] at h ⊢ <;> grind

/-- The texts of all string literals in an expression, decoded; no value if a literal does not
end. -/
def literals? (cs : List Char) : Option (List String) :=
  match cs with
  | [] => some []
  | '"' :: rest =>
      match _h : decodeLiteral? rest with
      | none => none
      | some (text, after) => (literals? after).map (String.ofList text :: ·)
  | _ :: rest => literals? rest
termination_by cs.length
decreasing_by
  · have := length_decodeLiteral? _h
    simp only [List.length_cons]
    omega
  · simp

/-- A literal is decoded as its text, and what follows is looked at next. -/
theorem literals?_literalChars_append (text : String) (rest : List Char) :
    literals? (literalChars text ++ rest) = (literals? rest).map (text :: ·) := by
  have hdecode := decodeLiteral?_flatMap_append text.toList rest
  simp only [literalChars, List.append_assoc, List.cons_append, List.nil_append]
  rw [literals?]
  split
  · next hnone => rw [hdecode] at hnone; cases hnone
  · next hsome =>
      rw [hdecode] at hsome
      cases hsome
      rw [String.ofList_toList]

/-- What contains no quote contains no literal. -/
theorem literals?_append_of_forall_ne {cs : List Char} (h : ∀ c ∈ cs, c ≠ '"') (rest : List Char) :
    literals? (cs ++ rest) = literals? rest := by
  induction cs with
  | nil => rfl
  | cons c cs ih =>
      obtain ⟨hc, hcs⟩ := List.forall_mem_cons.1 h
      rw [List.cons_append, literals?.eq_3 c (cs ++ rest) hc, ih hcs]

/-! ## Expressions are calls -/

/-- The constructor that the expression of a diagram calls. -/
def constructorName : Diagram → String
  | .terminal _ => "Terminal"
  | .nonTerminal _ => "NonTerminal"
  | .sequence _ => "Sequence"
  | .choice _ => "Choice"
  | .optional _ => "Optional"
  | .zeroOrMore _ => "ZeroOrMore"
  | .oneOrMore _ => "OneOrMore"

/-- The arguments in the expression of a diagram. -/
def callArguments : Diagram → List Char
  | .terminal text => literalChars text
  | .nonTerminal name => literalChars name
  | .sequence parts => argumentChars parts
  | .choice members => ['0', ',', ' '] ++ argumentChars members
  | .optional body => exprChars body
  | .zeroOrMore body => exprChars body
  | .oneOrMore body => exprChars body

/-- Every diagram is written as a call of its constructor. -/
theorem exprChars_eq_callChars (d : Diagram) :
    exprChars d = callChars (constructorName d) (callArguments d) := by
  cases d <;> rfl

/-- What follows the first argument of several. -/
def furtherChars : List Diagram → List Char
  | [] => []
  | d :: rest => [',', ' '] ++ argumentChars (d :: rest)

/-- The first argument is written without a comma in front of it. -/
theorem argumentChars_cons (d : Diagram) (rest : List Diagram) :
    argumentChars (d :: rest) = exprChars d ++ furtherChars rest := by
  cases rest with
  | nil => rw [argumentChars, furtherChars, List.append_nil]
  | cons e rest =>
      rw [argumentChars, furtherChars, List.append_assoc]
      exact List.cons_ne_nil e rest

/-- The names of constructors are made of letters. -/
theorem isAlpha_of_mem_constructorName {d : Diagram} {c : Char}
    (h : c ∈ (constructorName d).toList) : c.isAlpha = true := by
  have hall : (constructorName d).toList.all Char.isAlpha = true := by
    cases d <;> simp only [constructorName] <;> decide
  exact List.all_eq_true.1 hall c h

theorem constructorName_ne_nil (d : Diagram) : (constructorName d).toList ≠ [] := by
  cases d <;> simp [constructorName]

/-! ## Expressions with any text behind them -/

/-- The name of a call is all that stands before its first parenthesis. -/
theorem takeWhile_exprChars_append (d : Diagram) (x : List Char) :
    (exprChars d ++ x).takeWhile Char.isAlpha = (constructorName d).toList := by
  rw [exprChars_eq_callChars, callChars]
  simp only [List.append_assoc, List.cons_append, List.nil_append]
  rw [List.takeWhile_append_of_pos fun c hc => isAlpha_of_mem_constructorName hc,
    List.takeWhile_cons_of_neg (by decide), List.append_nil]

/-- What two calls begin with tells their constructors, because a name ends at the parenthesis. The
arguments are what is left. -/
theorem callChars_append_inj {a b : Diagram} {x y : List Char}
    (h : exprChars a ++ x = exprChars b ++ y) :
    constructorName a = constructorName b ∧
      callArguments a ++ ')' :: x = callArguments b ++ ')' :: y := by
  have hname : constructorName a = constructorName b := by
    apply String.toList_injective
    rw [← takeWhile_exprChars_append a x, h, takeWhile_exprChars_append]
  rw [exprChars_eq_callChars, exprChars_eq_callChars, hname] at h
  simp only [callChars, List.append_assoc, List.append_cancel_left_eq] at h
  exact ⟨hname, h⟩

/-- An expression starts with the name of a constructor, and so with a letter. -/
theorem exprChars_append_ne (d : Diagram) {c : Char} (hc : c.isAlpha = false) (x y : List Char) :
    exprChars d ++ x ≠ c :: y := by
  intro h
  have hname := takeWhile_exprChars_append d x
  rw [h, List.takeWhile_cons_of_neg (by simp [hc])] at hname
  exact constructorName_ne_nil d hname.symm

/-- A literal tells its text and where it ends. -/
theorem literalChars_append_inj {s t : String} {x y : List Char}
    (h : literalChars s ++ x = literalChars t ++ y) : s = t ∧ x = y := by
  simp only [literalChars, List.append_assoc, List.cons_append, List.nil_append, List.cons.injEq,
    true_and] at h
  have hdecode := decodeLiteral?_flatMap_append s.toList x
  rw [h, decodeLiteral?_flatMap_append] at hdecode
  obtain ⟨htext, hrest⟩ := Prod.mk.inj (Option.some.inj hdecode)
  exact ⟨String.toList_injective htext.symm, hrest.symm⟩

mutual

/-- An expression with any text behind it determines the diagram, and where the expression ends. -/
theorem exprChars_append_inj : (a b : Diagram) → (x y : List Char) →
    exprChars a ++ x = exprChars b ++ y → a = b ∧ x = y
  | .terminal s, b, x, y, h => by
      -- diagrams of other kinds have a constructor with another name, here and in the cases below
      obtain ⟨hname, harguments⟩ := callChars_append_inj h
      cases b with
      | terminal t =>
          obtain ⟨rfl, hrest⟩ := literalChars_append_inj harguments
          exact ⟨rfl, (List.cons.inj hrest).2⟩
      | _ => exact absurd hname (by simp [constructorName])
  | .nonTerminal s, b, x, y, h => by
      obtain ⟨hname, harguments⟩ := callChars_append_inj h
      cases b with
      | nonTerminal t =>
          obtain ⟨rfl, hrest⟩ := literalChars_append_inj harguments
          exact ⟨rfl, (List.cons.inj hrest).2⟩
      | _ => exact absurd hname (by simp [constructorName])
  | .sequence as, b, x, y, h => by
      obtain ⟨hname, harguments⟩ := callChars_append_inj h
      cases b with
      | sequence bs =>
          obtain ⟨rfl, hrest⟩ := argumentChars_append_inj as bs x y harguments
          exact ⟨rfl, hrest⟩
      | _ => exact absurd hname (by simp [constructorName])
  | .choice as, b, x, y, h => by
      obtain ⟨hname, harguments⟩ := callChars_append_inj h
      cases b with
      | choice bs =>
          simp only [callArguments, List.append_assoc, List.append_cancel_left_eq] at harguments
          obtain ⟨rfl, hrest⟩ := argumentChars_append_inj as bs x y harguments
          exact ⟨rfl, hrest⟩
      | _ => exact absurd hname (by simp [constructorName])
  | .optional a, b, x, y, h => by
      obtain ⟨hname, harguments⟩ := callChars_append_inj h
      cases b with
      | optional b =>
          obtain ⟨rfl, hrest⟩ := exprChars_append_inj a b _ _ harguments
          exact ⟨rfl, (List.cons.inj hrest).2⟩
      | _ => exact absurd hname (by simp [constructorName])
  | .zeroOrMore a, b, x, y, h => by
      obtain ⟨hname, harguments⟩ := callChars_append_inj h
      cases b with
      | zeroOrMore b =>
          obtain ⟨rfl, hrest⟩ := exprChars_append_inj a b _ _ harguments
          exact ⟨rfl, (List.cons.inj hrest).2⟩
      | _ => exact absurd hname (by simp [constructorName])
  | .oneOrMore a, b, x, y, h => by
      obtain ⟨hname, harguments⟩ := callChars_append_inj h
      cases b with
      | oneOrMore b =>
          obtain ⟨rfl, hrest⟩ := exprChars_append_inj a b _ _ harguments
          exact ⟨rfl, (List.cons.inj hrest).2⟩
      | _ => exact absurd hname (by simp [constructorName])

/-- Arguments end at the parenthesis that closes their call. -/
theorem argumentChars_append_inj : (as bs : List Diagram) → (x y : List Char) →
    argumentChars as ++ ')' :: x = argumentChars bs ++ ')' :: y → as = bs ∧ x = y
  | [], bs, x, y, h => by
      cases bs with
      | nil => exact ⟨rfl, (List.cons.inj h).2⟩
      | cons b bs =>
          rw [argumentChars_cons, List.append_assoc] at h
          exact absurd h.symm (exprChars_append_ne b (by decide) _ x)
  | a :: as, bs, x, y, h => by
      cases bs with
      | nil =>
          rw [argumentChars_cons, List.append_assoc] at h
          exact absurd h (exprChars_append_ne a (by decide) _ y)
      | cons b bs =>
          rw [argumentChars_cons, argumentChars_cons, List.append_assoc, List.append_assoc] at h
          obtain ⟨rfl, hfurther⟩ := exprChars_append_inj a b _ _ h
          -- a comma tells a further argument from the end of the call
          cases as with
          | nil =>
              cases bs with
              | nil => exact ⟨rfl, (List.cons.inj hfurther).2⟩
              | cons c bs => cases hfurther
          | cons d as =>
              cases bs with
              | nil => cases hfurther
              | cons c bs =>
                  simp only [furtherChars, List.append_assoc,
                    List.append_cancel_left_eq] at hfurther
                  obtain ⟨hrest, hend⟩ := argumentChars_append_inj (d :: as) (c :: bs) x y hfurther
                  exact ⟨congrArg (a :: ·) hrest, hend⟩

end

theorem exprChars_injective {a b : Diagram} (h : exprChars a = exprChars b) : a = b :=
  (exprChars_append_inj a b [] [] (by rw [List.append_nil, List.append_nil, h])).1

/-- Diagrams with the same expression are the same. -/
theorem expr_inj {a b : Diagram} : a.expr = b.expr ↔ a = b := by
  refine ⟨fun h => exprChars_injective ?_, fun h => by rw [h]⟩
  exact String.ofList_injective h

/-- So are diagrams with the same drawing. -/
theorem drawingExpr_inj {a b : Diagram} : a.drawingExpr = b.drawingExpr ↔ a = b := by
  refine ⟨fun h => ?_, fun h => by rw [h]⟩
  have hcall := String.ofList_injective h
  simp only [callChars, List.append_cancel_left_eq, List.append_cancel_right_eq] at hcall
  exact exprChars_injective hcall

/-! ## The texts of a diagram -/

mutual

/-- The texts of the boxes of a diagram, in the order in which its expression has them. -/
def texts : Diagram → List String
  | .terminal text => [text]
  | .nonTerminal name => [name]
  | .sequence parts => textsEach parts
  | .choice members => textsEach members
  | .optional body => texts body
  | .zeroOrMore body => texts body
  | .oneOrMore body => texts body

/-- The texts of several diagrams. -/
def textsEach : List Diagram → List String
  | [] => []
  | d :: rest => texts d ++ textsEach rest

end

/-- A part of an expression without control characters. Its literals, none of which is left open,
are those of the given texts. -/
structure Carries (cs : List Char) (texts : List String) : Prop where
  printable : ∀ c ∈ cs, Text.isControl c = false
  literals (rest : List Char) : literals? (cs ++ rest) = (literals? rest).map (texts ++ ·)

/-- Texts that are carried one after the other are carried in this order. -/
theorem Carries.append {cs ds : List Char} {texts texts' : List String} (h : Carries cs texts)
    (h' : Carries ds texts') : Carries (cs ++ ds) (texts ++ texts') where
  printable c hc := (List.mem_append.1 hc).elim (h.printable c) (h'.printable c)
  literals rest := by
    rw [List.append_assoc, h.literals, h'.literals, Option.map_map]
    simp only [Function.comp_def, List.append_assoc]

theorem carries_of_forall {cs : List Char} (h : ∀ c ∈ cs, Text.isControl c = false ∧ c ≠ '"') :
    Carries cs [] where
  printable c hc := (h c hc).1
  literals rest := by
    rw [literals?_append_of_forall_ne fun c hc => (h c hc).2]
    simp

/-- Punctuation carries no text. -/
theorem carries_of_all {cs : List Char}
    (h : cs.all (fun c => !Text.isControl c && c != '"') = true) : Carries cs [] := by
  refine carries_of_forall fun c hc => ?_
  simpa using List.all_eq_true.1 h c hc

theorem isControl_digitChar : ∀ n < 16, Text.isControl n.digitChar = false := by decide

/-- A literal has no control characters, since they are written as codes. -/
theorem isControl_of_mem_literalChar {c d : Char} (h : d ∈ literalChar c) :
    Text.isControl d = false := by
  unfold literalChar at h
  split at h
  case h_6 =>
    -- the last kind of character is a control character, which becomes a code, or stands for itself
    by_cases hcontrol : Text.isControl c = true
    · simp only [if_pos hcontrol, List.mem_append, List.mem_cons, List.not_mem_nil, or_false] at h
      rcases h with ((rfl | rfl) | h) | h
      · decide
      · decide
      · rw [List.eq_of_mem_replicate h]
        decide
      · obtain ⟨n, hn, rfl⟩ := Text.exists_digit_of_mem_hexDigits h
        exact isControl_digitChar n hn
    · rw [if_neg hcontrol, List.mem_singleton] at h
      rw [h]
      exact Bool.eq_false_of_not_eq_true hcontrol
  all_goals
    simp only [List.mem_cons, List.not_mem_nil, or_false] at h
    rcases h with rfl | rfl <;> decide

/-- A literal carries its own text. -/
theorem carries_literalChars (text : String) : Carries (literalChars text) [text] where
  printable c hc := by
    simp only [literalChars, List.mem_append, List.mem_singleton, List.mem_flatMap] at hc
    rcases hc with (rfl | ⟨d, -, hc⟩) | rfl
    · decide
    · exact isControl_of_mem_literalChar hc
    · decide
  literals rest := literals?_literalChars_append text rest

theorem carries_of_isAlpha {cs : List Char} (h : cs.all Char.isAlpha = true) : Carries cs [] := by
  refine carries_of_forall fun c hc => ?_
  have halpha := List.all_eq_true.1 h c hc
  constructor
  · -- the letters of ASCII lie between the two ranges of control characters
    unfold Char.isAlpha Char.isUpper Char.isLower at halpha
    simp only [Bool.or_eq_true, Bool.and_eq_true, decide_eq_true_eq,
      UInt32.le_iff_toNat_le] at halpha
    simp only [Text.isControl, Char.toNat]
    grind
  · rintro rfl
    cases halpha

theorem Carries.call {name : String} {arguments : List Char} {texts : List String}
    (hname : name.toList.all Char.isAlpha = true) (h : Carries arguments texts) :
    Carries (callChars name arguments) texts := by
  have hopen : Carries ['('] [] := carries_of_all (by decide)
  have hclose : Carries [')'] [] := carries_of_all (by decide)
  have hcall := (((carries_of_isAlpha hname).append hopen).append h).append hclose
  rwa [List.nil_append, List.nil_append, List.append_nil] at hcall

mutual

/-- An expression carries the texts of its diagram, in their order. -/
theorem carries_exprChars : (d : Diagram) → Carries (exprChars d) (texts d)
  | .terminal text => (carries_literalChars text).call (by decide)
  | .nonTerminal name => (carries_literalChars name).call (by decide)
  | .sequence parts => (carries_argumentChars parts).call (by decide)
  | .choice members =>
      have hdefault : Carries ['0', ',', ' '] [] := carries_of_all (by decide)
      (hdefault.append (carries_argumentChars members)).call (by decide)
  | .optional body => (carries_exprChars body).call (by decide)
  | .zeroOrMore body => (carries_exprChars body).call (by decide)
  | .oneOrMore body => (carries_exprChars body).call (by decide)

theorem carries_argumentChars : (ds : List Diagram) → Carries (argumentChars ds) (textsEach ds)
  | [] => carries_of_forall (by simp [argumentChars])
  | [d] => by
      rw [argumentChars, textsEach, textsEach, List.append_nil]
      exact carries_exprChars d
  | d :: e :: rest => by
      have hcomma : Carries [',', ' '] [] := carries_of_all (by decide)
      have h := ((carries_exprChars d).append hcomma).append (carries_argumentChars (e :: rest))
      rwa [List.append_nil] at h

end

/-- What is carried is what is decoded. -/
theorem Carries.literals?_eq {cs : List Char} {texts : List String} (h : Carries cs texts) :
    literals? cs = some texts := by
  have hnone : literals? [] = some [] := by rw [literals?]
  have hliterals := h.literals []
  rw [List.append_nil, hnone, Option.map_some, List.append_nil] at hliterals
  exact hliterals

/-- The expressions of diagrams, alone or as complete drawings, are equal exactly if the diagrams
are, and two choices are written in the same way exactly if they are between the same alternatives.
An expression has no control character in it, and the string literals that are cut out of it and
decoded one after the other are the texts of the diagram. -/
theorem expr_unambiguous :
    (∀ a b : Diagram, a.expr = b.expr ↔ a = b) ∧
      (∀ a b : Diagram, a.drawingExpr = b.drawingExpr ↔ a = b) ∧
      (∀ as bs : List Diagram,
        (choice (setOf as)).expr = (choice (setOf bs)).expr ↔ ∀ d, d ∈ as ↔ d ∈ bs) ∧
      ∀ d : Diagram,
        ((∀ c ∈ d.expr.toList, Text.isControl c = false) ∧ literals? d.expr.toList = some d.texts) ∧
          (∀ c ∈ d.drawingExpr.toList, Text.isControl c = false) ∧
            literals? d.drawingExpr.toList = some d.texts := by
  refine ⟨fun a b => expr_inj, fun a b => drawingExpr_inj, fun as bs => ?_, fun d => ?_⟩
  · rw [expr_inj, choice.injEq]
    refine ⟨fun h d => ?_, fun h => setOf_congr h⟩
    have hmem : d ∈ setOf as ↔ d ∈ setOf bs := by rw [h]
    exact Ascending.mem_ofList.symm.trans (hmem.trans Ascending.mem_ofList)
  · have hexpr := carries_exprChars d
    have hdrawing : Carries (callChars "Diagram" (exprChars d)) d.texts := hexpr.call (by decide)
    rw [expr, drawingExpr, String.toList_ofList, String.toList_ofList]
    exact ⟨⟨hexpr.printable, hexpr.literals?_eq⟩, hdrawing.printable, hdrawing.literals?_eq⟩

end Railroad.Diagram
