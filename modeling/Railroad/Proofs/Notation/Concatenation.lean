import Railroad.Proofs.Diagram.Drawable
set_option autoImplicit false

/-!
# Grammar texts one after the other

Two grammar texts with a line end between them are a grammar text again. The layout behind the one,
the line end and the layout in front of the other make a single line break, and nothing else in
either text takes notice of what stands behind or in front of it: the productions are those of the
first text followed by those of the second, whose spans are moved by what now stands in front of
them (`Document.Spelled.append`). The grammars are put together in the same way (`parse_append`).
-/

namespace Railroad.Notation

/-- Two rows of separated values with a separator between them are a row again. -/
theorem Separated.append {α : Type} {between : Language Char} {spelled : Spelling α} {offset : Nat}
    {cs gap rest : List Char} {as bs : List α} (h : Separated between spelled offset cs as)
    (hgap : gap ∈ between)
    (hrest : Separated between spelled (offset + Text.byteLength (cs ++ gap)) rest bs) :
    Separated between spelled offset (cs ++ gap ++ rest) (as ++ bs) := by
  induction h with
  | one ha => exact .more ha hgap hrest
  | @more offset cs gap' rest' a as ha hgap' _ ih =>
      -- what follows the first value stands as far behind its own start as before
      have hoffset : offset + Text.byteLength (cs ++ gap' ++ rest' ++ gap) =
          offset + Text.byteLength (cs ++ gap') + Text.byteLength (rest' ++ gap) := by
        simp only [Text.byteLength_append]
        omega
      rw [hoffset] at hrest
      have hmore := Separated.more ha hgap' (ih hrest)
      simpa only [List.append_assoc, List.cons_append] using hmore

variable {depth : Nat}

/-- Trees that two texts spell are spelled one after the other by both texts with a line end between
them. -/
theorem Document.Spelled.append {cs ds : List Char} {v w : Document}
    (hv : v.Spelled (Item.SpelledWithin depth) cs) (hw : w.Spelled (Item.SpelledWithin depth) ds) :
    Document.Spelled (Item.SpelledWithin depth) (cs ++ ['\n'] ++ ds)
      ⟨v.productions ++ (w.mapSpans (Span.shift (Text.byteLength cs + 1))).productions⟩ := by
  obtain ⟨before, body, after, hbefore, hafter, rfl, hbody⟩ := hv
  obtain ⟨before', body', after', hbefore', hafter', rfl, hbody'⟩ := hw
  have hgap : after ++ (['\n'] ++ before') ∈ Written.lineBreak :=
    layout_append_mem_lineBreak hafter (append_mem_lineBreak newline_mem_lineBreak hbefore')
  refine ⟨before, body ++ (after ++ (['\n'] ++ before')) ++ body', after', hbefore, hafter', ?_, ?_⟩
  · simp only [List.append_assoc]
  · refine hbody.append hgap ?_
    have hmoves := Production.Spelled.moves (Item.SpelledWithin.moves depth)
    have hmoved :=
      Separated.moves hmoves hbody' (Text.byteLength (before ++ body ++ after) + 1)
    -- the second text begins behind the first one and the line break
    have hoffset : Text.byteLength before +
        Text.byteLength (body ++ (after ++ (['\n'] ++ before'))) =
        Text.byteLength before' + (Text.byteLength (before ++ body ++ after) + 1) := by
      have hnewline : Text.byteLength ['\n'] = 1 := by decide
      simp only [Text.byteLength_append, hnewline]
      omega
    rw [hoffset]
    exact hmoved

end Railroad.Notation

namespace Railroad.Grammar

open Diagram

/-- The grammar of two trees one after the other has the productions of both. -/
theorem exists_ofDocument_append {v w : Notation.Document} {g h : Grammar}
    (hv : ofDocument v = .ok g)
    (hw : ofDocument w = .ok h) : ∃ both, ofDocument ⟨v.productions ++ w.productions⟩ = .ok both ∧
      both.productions = g.productions ++ h.productions := by
  obtain ⟨ps, hps, hg⟩ := bind_eq_ok.1 hv
  obtain ⟨qs, hqs, hh⟩ := bind_eq_ok.1 hw
  rw [pure_eq_ok.1 hg, pure_eq_ok.1 hh, productions_ofList, productions_ofList]
  refine ⟨ofList (ps ++ qs), ?_, productions_ofList (ps ++ qs)⟩
  rw [ofDocument, List.mapM_append, hps, hqs]
  rfl

end Railroad.Grammar

namespace Railroad.Notation

/-- Two grammar texts with a line end between them are read as the productions of the first followed
by those of the second, with all spans of the latter moved by the length of the first text and the
line end. The grammar of both together is made of the productions of the two grammars. -/
theorem parse_append {a b : String} {v w : Document} (hv : parse a = .ok v) (hw : parse b = .ok w) :
    parse (a ++ "\n" ++ b) = .ok ⟨v.productions ++
        (w.mapSpans (Span.shift (Text.byteLength a.toList + 1))).productions⟩ ∧
      ∃ g h both, Grammar.read a = .ok g ∧ Grammar.read b = .ok h ∧
        Grammar.read (a ++ "\n" ++ b) = .ok both ∧
        both.productions = g.productions ++ h.productions := by
  have hsv := parse_eq_ok_iff.1 hv
  have hsw := parse_eq_ok_iff.1 hw
  have hparse : parse (a ++ "\n" ++ b) = .ok ⟨v.productions ++
      (w.mapSpans (Span.shift (Text.byteLength a.toList + 1))).productions⟩ := by
    apply parse_eq_ok_iff.2
    rw [String.toList_append, String.toList_append]
    exact hsv.append hsw
  obtain ⟨g, hg⟩ := Grammar.exists_ofDocument_of_spelled hsv
  obtain ⟨h, hh⟩ := Grammar.exists_ofDocument_of_spelled hsw
  -- the spans of the second text are moved, which does not show in its grammar
  have hmoved : Grammar.ofDocument (w.mapSpans (Span.shift (Text.byteLength a.toList + 1))) =
      .ok h := by
    rw [Grammar.ofDocument_mapSpans]
    exact mapError_eq_ok.2 hh
  obtain ⟨both, hboth, hproductions⟩ := Grammar.exists_ofDocument_append hg hmoved
  exact ⟨hparse, g, h, both, Grammar.read_eq_ok_iff.2 ⟨v, hv, hg⟩,
    Grammar.read_eq_ok_iff.2 ⟨w, hw, hh⟩, Grammar.read_eq_ok_iff.2 ⟨_, hparse, hboth⟩, hproductions⟩

/-- The comments at the end of the one text and at the start of the other are part of the line
break. -/
theorem parse_append_comments : ∃ v w g h both,
    parse "A ::= 'é' /**/" = .ok v ∧ parse "/*\n*/ B::=[x]-A\n" = .ok w ∧
      parse ("A ::= 'é' /**/" ++ "\n" ++ "/*\n*/ B::=[x]-A\n") = .ok ⟨v.productions ++
        (w.mapSpans (Span.shift (Text.byteLength "A ::= 'é' /**/".toList + 1))).productions⟩ ∧
      Grammar.read "A ::= 'é' /**/" = .ok g ∧ Grammar.read "/*\n*/ B::=[x]-A\n" = .ok h ∧
      Grammar.read ("A ::= 'é' /**/" ++ "\n" ++ "/*\n*/ B::=[x]-A\n") = .ok both ∧
      both.productions = g.productions ++ h.productions := by
  have hv : (parse "A ::= 'é' /**/").toOption.isSome = true := by decide +kernel
  have hw : (parse "/*\n*/ B::=[x]-A\n").toOption.isSome = true := by decide +kernel
  cases ha : parse "A ::= 'é' /**/" with
  | error e => simp [ha, Except.toOption] at hv
  | ok v =>
      cases hb : parse "/*\n*/ B::=[x]-A\n" with
      | error e => simp [hb, Except.toOption] at hw
      | ok w =>
          obtain ⟨hparse, g, h, both, hg, hh, hboth, hproductions⟩ := parse_append ha hb
          exact ⟨v, w, g, h, both, rfl, rfl, hparse, hg, hh, hboth, hproductions⟩

end Railroad.Notation
