import Railroad.Proofs.Notation.Acceptance
import Railroad.Proofs.Notation.Relocation
import Railroad.Proofs.Text.Slice
set_option autoImplicit false

/-!
# Productions by themselves

A production that is read from a text is also read from its own part of the text alone. That part
spells a production wherever it stands, and what it spells at the place of the production is no
other one, because the rule for productions takes all that a text spells
(`Production.Spelled.unique`). So the part by itself is read as the production with its spans moved
to the start of the text (`parse_production`).
-/

namespace Railroad.Notation

/-- Each of several separated values is spelled by a part of the text. -/
theorem Separated.exists_of_mem {α : Type} {between : Language Char} {spelled : Spelling α}
    {offset : Nat} {cs : List Char} {as : List α} (h : Separated between spelled offset cs as)
    {a : α} (ha : a ∈ as) :
    ∃ front body back, cs = front ++ body ++ back ∧
      spelled (offset + Text.byteLength front) body a := by
  induction h with
  | @one offset cs b hb =>
      obtain rfl := List.mem_singleton.1 ha
      exact ⟨[], cs, [], by simp, hb⟩
  | @more offset cs gap rest b bs hb _ _ ih =>
      rcases List.mem_cons.1 ha with rfl | ha
      · exact ⟨[], cs, gap ++ rest, by simp, hb⟩
      -- the value is one of the further ones, behind the first and what separates them
      · obtain ⟨front, body, back, rfl, hbody⟩ := ih ha
        refine ⟨cs ++ gap ++ front, body, back, by simp only [List.append_assoc], ?_⟩
        rwa [Text.byteLength_append, ← Nat.add_assoc]

variable {depth : Nat}

/-- A text spells at most one production in a place. -/
theorem Production.Spelled.unique {offset : Nat} {cs : List Char} {p q : Production}
    (hp : p.Spelled (Item.SpelledWithin depth) offset cs)
    (hq : q.Spelled (Item.SpelledWithin depth) offset cs) : p = q := by
  have hall : Cursor.Passes ⟨cs, offset⟩ cs ⟨[], offset + Text.byteLength cs⟩ :=
    ⟨(List.append_nil cs).symm, rfl⟩
  have hend : StopsAt isLineEnd ([] : List Char) :=
    stopsAt_isLineEnd_of_mem_layout (Language.nil_mem_kstar _)
  -- both are what the rule for productions reads
  exact ((complete_production hall hp hend).unique (complete_production hall hq hend)).1

/-- What spells a production further on spells it at the start of a text as well. -/
theorem Production.Spelled.exists_at_start {offset : Nat} {cs : List Char} {p : Production}
    (h : p.Spelled (Item.SpelledWithin depth) offset cs) :
    ∃ q, Production.Spelled (Item.SpelledWithin depth) 0 cs q ∧
      p = q.mapSpans (Span.shift offset) := by
  obtain ⟨q, hq⟩ := (Production.Spelled.covers 0 cs).2
      ((Production.Spelled.covers offset cs).1 ⟨p, h⟩)
  have hmoved := Production.Spelled.moves (Item.SpelledWithin.moves depth) hq offset
  rw [Nat.zero_add] at hmoved
  exact ⟨q, hq, h.unique hmoved⟩

/-- A text that spells a production spells a tree with that production only. -/
theorem Production.Spelled.document {cs : List Char} {p : Production}
    (h : p.Spelled (Item.SpelledWithin depth) 0 cs) :
    Document.Spelled (Item.SpelledWithin depth) cs ⟨[p]⟩ :=
  ⟨[], cs, [], Language.nil_mem_kstar _, Language.nil_mem_kstar _, by simp, .one h⟩

/-- Every production of a tree is read from its own part of the text, as the only production, with
all spans counted from where that part begins. -/
theorem parse_production {text : String} {v : Document} (h : parse text = .ok v) {p : Production}
    (hp : p ∈ v.productions) :
    ∃ cs q, Text.slice? p.span.start p.span.stop text.toList = some cs ∧
      parse (String.ofList cs) = .ok ⟨[q]⟩ ∧ p = q.mapSpans (Span.shift p.span.start) := by
  obtain ⟨before, body, after, -, -, htext, hbody⟩ := parse_eq_ok_iff.1 h
  obtain ⟨front, cs, back, rfl, hspelled⟩ := hbody.exists_of_mem hp
  have hspan : p.span = .over (Text.byteLength before + Text.byteLength front) cs := by
    obtain ⟨_, _, _, -, -, -, -, hspan⟩ := hspelled
    exact hspan
  -- the production is spelled at its offset as it would be at the start of a text
  obtain ⟨q, hq, hpq⟩ := hspelled.exists_at_start
  refine ⟨cs, q, ?_, ?_, ?_⟩
  · refine Text.slice?_eq_some_iff.2 ⟨before ++ front, back ++ after, ?_, ?_, ?_⟩
    · rw [htext]
      simp only [List.append_assoc]
    · rw [hspan, Text.byteLength_append]
      rfl
    · rw [hspan, Text.byteLength_append, Text.byteLength_append]
      rfl
  · rw [parse_eq_ok_iff, String.toList_ofList]
    exact hq.document
  · rw [hspan]
    exact hpq

/-- A link that ends in front of a comment is still read as a link where its production ends the
text. -/
theorem parse_production_link : ∃ v p cs q, parse "A::='é'\nB ::= [s://t#D] /**/\r\nC::=A" = .ok v ∧
    p ∈ v.productions ∧ p.span = ⟨9, 24⟩ ∧
    Text.slice? p.span.start p.span.stop "A::='é'\nB ::= [s://t#D] /**/\r\nC::=A".toList = some cs ∧
    parse (String.ofList cs) = .ok ⟨[q]⟩ ∧ p = q.mapSpans (Span.shift p.span.start) := by
  have hspans : (parse "A::='é'\nB ::= [s://t#D] /**/\r\nC::=A").toOption.map
      (fun v => v.productions.map Production.span) = some [⟨0, 8⟩, ⟨9, 24⟩, ⟨31, 36⟩] := by
    decide +kernel
  cases hv : parse "A::='é'\nB ::= [s://t#D] /**/\r\nC::=A" with
  | error e => simp [hv, Except.toOption] at hspans
  | ok v =>
      rw [hv] at hspans
      have hall : v.productions.map Production.span = [⟨0, 8⟩, ⟨9, 24⟩, ⟨31, 36⟩] :=
        Option.some.inj hspans
      have hmem : (⟨9, 24⟩ : Span) ∈ v.productions.map Production.span := by
        rw [hall]
        exact List.mem_cons_of_mem _ List.mem_cons_self
      obtain ⟨p, hp, hspan⟩ := List.mem_map.1 hmem
      obtain ⟨cs, q, hslice, hparse, hpq⟩ := parse_production hv hp
      exact ⟨v, p, cs, q, rfl, hp, hspan, hslice, hparse, hpq⟩

end Railroad.Notation
