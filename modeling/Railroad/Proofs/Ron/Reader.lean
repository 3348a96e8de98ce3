import Railroad.Ron.Reading
set_option autoImplicit false

/-!
# Readers step by step

A reader made of two steps succeeds where both do (`bind_eq_ok`), and each of the small readers has
one equation for the text in front of it: what it takes, and where it stops. Readers of values are
only opened in these terms.
-/

namespace Railroad.Ron.Reader

variable {α β σ : Type}

/-! ## Steps -/

/-- A second step is taken where the first one ends, unless the first one stops. -/
theorem bind_apply (reader : Reader α) (next : α → Reader β) (cs : List Char) :
    (reader >>= next) cs = match reader cs with
      | .ok (a, mid) => next a mid
      | .error stopped => .error stopped := by
  show StateT.bind reader next cs = _
  unfold StateT.bind
  cases reader cs <;> rfl

theorem pure_apply (a : α) (cs : List Char) : (pure a : Reader α) cs = .ok (a, cs) := rfl

theorem rest_apply (cs : List Char) : rest cs = .ok (cs, cs) := rfl

theorem stop_apply (error : ReadError) (cs : List Char) :
    (stop error : Reader α) cs = .error ⟨error, cs, false⟩ := rfl

theorem bind_of_ok {reader : Reader α} {next : α → Reader β} {cs mid : List Char} {a : α}
    (h : reader cs = .ok (a, mid)) : (reader >>= next) cs = next a mid := by
  rw [bind_apply, h]

theorem bind_of_error {reader : Reader α} {next : α → Reader β} {cs : List Char} {stopped : Stop}
    (h : reader cs = .error stopped) : (reader >>= next) cs = .error stopped := by
  rw [bind_apply, h]

/-- A reader in two steps succeeds if both of them do. -/
theorem bind_eq_ok {reader : Reader α} {next : α → Reader β} {cs tail : List Char} {b : β} :
    (reader >>= next) cs = .ok (b, tail) ↔
      ∃ a mid, reader cs = .ok (a, mid) ∧ next a mid = .ok (b, tail) := by
  constructor
  · intro h
    cases hr : reader cs with
    | error stopped => rw [bind_of_error hr] at h; cases h
    | ok step =>
        rw [bind_of_ok hr] at h
        exact ⟨step.1, step.2, rfl, h⟩
  · rintro ⟨a, mid, hr, hn⟩
    rw [bind_of_ok hr, hn]

theorem pure_eq_ok {a b : α} {cs tail : List Char} :
    (pure a : Reader α) cs = .ok (b, tail) ↔ b = a ∧ tail = cs := by
  rw [pure_apply, Except.ok.injEq, Prod.mk.injEq, eq_comm (a := a), eq_comm (a := cs)]

/-- A reader that stops gives nothing back. -/
theorem stop_ne_ok {error : ReadError} {cs tail : List Char} {a : α} :
    (stop error : Reader α) cs ≠ .ok (a, tail) := by
  rw [stop_apply]
  nofun

/-! ## Pieces of text -/

/-- Of a text and what follows it, the latter is left. -/
theorem isPrefixOf?_append (text rest : List Char) :
    text.isPrefixOf? (text ++ rest) = some rest := by
  induction text with
  | nil => cases rest <;> rfl
  | cons c text ih =>
      show (if c == c then text.isPrefixOf? (text ++ rest) else none) = some rest
      rw [if_pos (beq_self_eq_true c), ih]

/-- A text that comes next is taken. -/
theorem accept_append (text rest : List Char) : accept text (text ++ rest) = .ok (true, rest) := by
  rw [accept, isPrefixOf?_append]

theorem accept_cons (c : Char) (rest : List Char) : accept [c] (c :: rest) = .ok (true, rest) :=
  accept_append [c] rest

/-- A character that has to come next, and does, is taken. -/
theorem require_cons (c : Char) (error : ReadError) (rest : List Char) :
    require c error (c :: rest) = .ok ((), rest) :=
  bind_of_ok (accept_cons c rest)

theorem peek?_apply (cs : List Char) : peek? cs = .ok (cs.head?, cs) := rfl

/-! ## Blanks -/

/-- A character that is no blank and begins no comment is left in place. -/
theorem gaps_cons {c : Char} (hgap : isGap c = false) (hslash : c ≠ '/') (rest : List Char) :
    gaps (c :: rest) = .ok ((), c :: rest) := by
  unfold gaps
  rw [afterGaps] <;> simp_all [Except.map]

/-- Blanks are passed over. -/
theorem gaps_append {blanks : List Char} (h : ∀ c ∈ blanks, isGap c = true) (rest : List Char) :
    gaps (blanks ++ rest) = gaps rest := by
  induction blanks with
  | nil => rfl
  | cons c blanks ih =>
      obtain ⟨hc, hblanks⟩ := List.forall_mem_cons.1 h
      -- a slash would begin a comment, but it is no blank
      have hslash : c ≠ '/' := by
        rintro rfl
        exact absurd hc (by decide)
      have hstep : gaps (c :: (blanks ++ rest)) = gaps (blanks ++ rest) := by
        unfold gaps
        rw [afterGaps] <;> simp_all
      exact hstep.trans (ih hblanks)

/-- What is left behind blanks and comments begins with neither. -/
theorem afterGaps_afterGaps {place : GapPlace} {cs tail : List Char}
    (h : afterGaps place cs = .ok tail) : afterGaps .outside tail = .ok tail := by
  fun_induction afterGaps place cs
  case case7 c cs hend hline hblock hmore hgap =>
    -- what is left begins with a character that is no blank and, having been looked at, no slash
    have hslash : c ≠ '/' := by
      intro hc
      cases cs with
      | nil => exact hend hc rfl
      | cons d cs => exact hmore d cs hc rfl
    obtain rfl := Except.ok.inj h
    rw [afterGaps] <;> simp_all
  all_goals simp_all [afterGaps]

theorem gaps_eq_ok {cs tail : List Char} :
    gaps cs = .ok ((), tail) ↔ afterGaps .outside cs = .ok tail := by
  unfold gaps
  cases afterGaps .outside cs <;> simp [Except.map]

/-- Behind blanks and comments there are no further ones. -/
theorem gaps_gaps {cs tail : List Char} (h : gaps cs = .ok ((), tail)) :
    gaps tail = .ok ((), tail) :=
  gaps_eq_ok.2 (afterGaps_afterGaps (gaps_eq_ok.1 h))

/-- In front of a closing bracket there is no comma. -/
theorem comma_of_mem {c : Char} (h : c ∈ [')', ']']) (rest : List Char) :
    comma (c :: rest) = .ok (false, c :: rest) := by
  simp only [List.mem_cons, List.not_mem_nil, or_false] at h
  rcases h with rfl | rfl <;> rfl

/-- A comma is taken with the blanks behind it. -/
theorem comma_cons {rest tail : List Char} (h : gaps rest = .ok ((), tail)) :
    comma (',' :: rest) = .ok (true, tail) := by
  rw [comma, bind_of_ok (gaps_cons (by decide) (by decide) rest), bind_of_ok (accept_cons ',' rest)]
  exact bind_of_ok h

/-! ## Brackets -/

theorem nested_zero (inside : Reader α) (cs : List Char) :
    nested 0 inside cs = .error ⟨.exceededRecursionLimit, cs, false⟩ := rfl

theorem nested_of_pos {budget : Nat} (h : budget ≠ 0) (inside : Reader α) :
    nested budget inside = inside := if_neg h

/-- The reader of lists collects elements in reverse order. -/
def collect (element : Reader α) (done : List α) : Reader (List α) := do return (← element) :: done

/-- Blanks in front of an element make no difference. -/
theorem hasElement_of_gaps {cs tail : List Char} (h : gaps cs = .ok ((), tail)) (closing : Char)
    (afterComma : Bool) : hasElement closing afterComma tail =
      hasElement closing afterComma cs := by
  unfold hasElement
  rw [bind_of_ok h, bind_of_ok (gaps_gaps h)]

/-- Where there is another element, the step for it is run, and then those for the elements behind
it. -/
theorem eachWithin_of_element {closing : Char} {cs mid : List Char} {afterComma : Bool}
    (h : hasElement closing afterComma cs = .ok (true, mid)) (step : σ → Reader σ) (b : Char)
    (budget : List Char) (state : σ) :
    eachWithin closing step (b :: budget) state afterComma cs = (do
      let next ← step state
      let found ← comma
      eachWithin closing step budget next found : Reader σ) mid := by
  rw [eachWithin, bind_of_ok h, if_pos rfl]

/-- Where the closing bracket comes next, the state is the one that has been reached. -/
theorem eachWithin_of_closing {closing : Char} {cs mid : List Char} {afterComma : Bool}
    (h : hasElement closing afterComma cs = .ok (false, mid)) (step : σ → Reader σ)
    (budget : List Char) (state : σ) :
    eachWithin closing step budget state afterComma cs = .ok (state, mid) := by
  cases budget <;> rw [eachWithin, bind_of_ok h] <;> rfl

theorem eachWithin_of_gaps {cs tail : List Char} (h : gaps cs = .ok ((), tail)) (closing : Char)
    (step : σ → Reader σ) (budget : List Char) (state : σ) (afterComma : Bool) :
    eachWithin closing step budget state afterComma tail =
      eachWithin closing step budget state afterComma cs := by
  cases budget <;> rw [eachWithin, bind_apply, bind_apply, hasElement_of_gaps h]

/-- In front of the closing bracket there is no element, with or without a comma. -/
theorem hasElement_of_closing {cs tail : List Char} {closing : Char} (afterComma : Bool)
    (h : gaps cs = .ok ((), closing :: tail)) :
    hasElement closing afterComma cs = .ok (false, closing :: tail) := by
  rw [hasElement, bind_of_ok h, bind_of_ok (peek?_apply _)]
  simp [pure_apply]

/-- Behind a comma, or at the beginning, anything but the closing bracket is an element. -/
theorem hasElement_of_ne {cs tail : List Char} {c closing : Char}
    (h : gaps cs = .ok ((), c :: tail)) (hc : c ≠ closing) :
    hasElement closing true cs = .ok (true, c :: tail) := by
  rw [hasElement, bind_of_ok h, bind_of_ok (peek?_apply _)]
  simp [pure_apply, hc]

end Railroad.Ron.Reader
