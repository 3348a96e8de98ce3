import Railroad.Proofs.Diagram.Alternatives
set_option autoImplicit false

/-!
# Which diagram comes first

A diagram precedes another one if its kind does, or if they are of one kind and what it holds
precedes what the other one holds, where lists are compared as words in a dictionary
(`Diagram.Precedes`). This is what comparing diagrams decides (`compare_eq_lt_iff`), and so diagrams
are in a strict total order. A choice between alternatives depends only on the set of these, of
which its members are the ascending list.
-/

namespace Railroad.Diagram

variable {a b c : Diagram}

/-- A diagram comes before another one. The members of a choice are compared in the order in which
it lists them, which in a set of diagrams is the ascending one. -/
inductive Precedes : Diagram → Diagram → Prop where
  | kind {a b : Diagram} : a.rank < b.rank → Precedes a b
  | terminal {a b : String} : a < b → Precedes (.terminal a) (.terminal b)
  | nonTerminal {a b : String} : a < b → Precedes (.nonTerminal a) (.nonTerminal b)
  | sequence {as bs : List Diagram} : List.Lex Precedes as bs →
    Precedes (.sequence as) (.sequence bs)
  | choice {as bs : List Diagram} : List.Lex Precedes as bs → Precedes (.choice as) (.choice bs)
  | optional {a b : Diagram} : Precedes a b → Precedes (.optional a) (.optional b)
  | zeroOrMore {a b : Diagram} : Precedes a b → Precedes (.zeroOrMore a) (.zeroOrMore b)
  | oneOrMore {a b : Diagram} : Precedes a b → Precedes (.oneOrMore a) (.oneOrMore b)

/-! ## Diagrams of one kind and of two -/

/-- A diagram that comes first is of no later kind. -/
theorem Precedes.rank_le (h : a.Precedes b) : a.rank ≤ b.rank := by
  cases h with
  | kind hlt => exact Nat.le_of_lt hlt
  | _ => exact Nat.le_refl _

/-- Diagrams of different kinds come in the order of their kinds. -/
theorem precedes_of_rank_ne (h : a.rank ≠ b.rank) : a.Precedes b ↔ a.rank < b.rank :=
  ⟨fun hab => Nat.lt_of_le_of_ne hab.rank_le h, .kind⟩

theorem precedes_terminal {s t : String} : (terminal s).Precedes (terminal t) ↔ s < t := by
  refine ⟨fun h => ?_, .terminal⟩
  cases h with
  | kind hlt => exact absurd hlt (Nat.lt_irrefl _)
  | terminal hlt => exact hlt

theorem precedes_nonTerminal {s t : String} : (nonTerminal s).Precedes (nonTerminal t) ↔ s < t := by
  refine ⟨fun h => ?_, .nonTerminal⟩
  cases h with
  | kind hlt => exact absurd hlt (Nat.lt_irrefl _)
  | nonTerminal hlt => exact hlt

/-- Sequences come in the order of their first difference. -/
theorem precedes_sequence {as bs : List Diagram} :
    (sequence as).Precedes (sequence bs) ↔ List.Lex Precedes as bs := by
  refine ⟨fun h => ?_, .sequence⟩
  cases h with
  | kind hlt => exact absurd hlt (Nat.lt_irrefl _)
  | sequence hlex => exact hlex

/-- Choices are compared like sequences, by their members in ascending order. -/
theorem precedes_choice {as bs : List Diagram} :
    (choice as).Precedes (choice bs) ↔ List.Lex Precedes as bs := by
  refine ⟨fun h => ?_, .choice⟩
  cases h with
  | kind hlt => exact absurd hlt (Nat.lt_irrefl _)
  | choice hlex => exact hlex

theorem precedes_optional : (optional a).Precedes (optional b) ↔ a.Precedes b := by
  refine ⟨fun h => ?_, .optional⟩
  cases h with
  | kind hlt => exact absurd hlt (Nat.lt_irrefl _)
  | optional hab => exact hab

theorem precedes_zeroOrMore : (zeroOrMore a).Precedes (zeroOrMore b) ↔ a.Precedes b := by
  refine ⟨fun h => ?_, .zeroOrMore⟩
  cases h with
  | kind hlt => exact absurd hlt (Nat.lt_irrefl _)
  | zeroOrMore hab => exact hab

theorem precedes_oneOrMore : (oneOrMore a).Precedes (oneOrMore b) ↔ a.Precedes b := by
  refine ⟨fun h => ?_, .oneOrMore⟩
  cases h with
  | kind hlt => exact absurd hlt (Nat.lt_irrefl _)
  | oneOrMore hab => exact hab

/-! ## Comparing decides it -/

theorem compare_text_eq_lt_iff {s t : String} : Ord.compare s t = .lt ↔ s < t := by
  show compareOfLessAndEq s t = .lt ↔ s < t
  exact compareOfLessAndEq_eq_lt

/-- Diagrams of two kinds are compared by their ranks alone. -/
theorem compare_eq_lt_iff_of_rank_ne (h : a.rank ≠ b.rank) : compare a b = .lt ↔ a.Precedes b := by
  rw [compare_of_rank_ne h, Nat.compare_eq_lt, precedes_of_rank_ne h]

mutual

/-- The comparison that is computed is the order that is described, constructor by constructor. -/
theorem compare_eq_lt_iff : (a b : Diagram) → (compare a b = .lt ↔ a.Precedes b)
  | .terminal s, b => by
      cases b with
      | terminal t => rw [compare, compare_text_eq_lt_iff, precedes_terminal]
      | _ => exact compare_eq_lt_iff_of_rank_ne (by simp [rank])
  | .nonTerminal s, b => by
      cases b with
      | nonTerminal t => rw [compare, compare_text_eq_lt_iff, precedes_nonTerminal]
      | _ => exact compare_eq_lt_iff_of_rank_ne (by simp [rank])
  | .sequence as, b => by
      cases b with
      | sequence bs => rw [compare, compareEach_eq_lt_iff as bs, precedes_sequence]
      | _ => exact compare_eq_lt_iff_of_rank_ne (by simp [rank])
  | .choice as, b => by
      cases b with
      | choice bs => rw [compare, compareEach_eq_lt_iff as bs, precedes_choice]
      | _ => exact compare_eq_lt_iff_of_rank_ne (by simp [rank])
  | .optional a, b => by
      cases b with
      | optional b => rw [compare, compare_eq_lt_iff a b, precedes_optional]
      | _ => exact compare_eq_lt_iff_of_rank_ne (by simp [rank])
  | .zeroOrMore a, b => by
      cases b with
      | zeroOrMore b => rw [compare, compare_eq_lt_iff a b, precedes_zeroOrMore]
      | _ => exact compare_eq_lt_iff_of_rank_ne (by simp [rank])
  | .oneOrMore a, b => by
      cases b with
      | oneOrMore b => rw [compare, compare_eq_lt_iff a b, precedes_oneOrMore]
      | _ => exact compare_eq_lt_iff_of_rank_ne (by simp [rank])

theorem compareEach_eq_lt_iff : (as bs : List Diagram) →
    (compareEach as bs = .lt ↔ List.Lex Precedes as bs)
  | [], bs => by cases bs <;> simp [compareEach]
  | a :: as, bs => by
      cases bs with
      | nil => simp [compareEach]
      | cons b bs =>
          rw [compareEach, Ordering.then_eq_lt, compare_eq_lt_iff a b, compare_eq_iff a b,
            compareEach_eq_lt_iff as bs, List.cons_lex_cons_iff]

end

/-- Coming later is the order read the other way round. -/
theorem compare_eq_gt_iff (a b : Diagram) : compare a b = .gt ↔ b.Precedes a := by
  rw [compare_swap a b, Ordering.swap_eq_gt, compare_eq_lt_iff b a]

theorem precedes_irrefl (a : Diagram) : ¬ a.Precedes a := by
  rw [← compare_eq_lt_iff, (compare_eq_iff a a).2 rfl]
  nofun

/-- The order is transitive, as the comparison is. -/
theorem Precedes.trans (hab : a.Precedes b) (hbc : b.Precedes c) : a.Precedes c := by
  rw [← compare_eq_lt_iff] at hab hbc ⊢
  exact compare_lt_trans a b c hab hbc

/-- Of two different diagrams, one comes first. -/
theorem precedes_trichotomy (a b : Diagram) : a.Precedes b ∨ a = b ∨ b.Precedes a := by
  cases h : compare a b with
  | lt => exact .inl ((compare_eq_lt_iff a b).1 h)
  | eq => exact .inr (.inl ((compare_eq_iff a b).1 h))
  | gt => exact .inr (.inr ((compare_eq_gt_iff a b).1 h))

/-- Strictly ascending lists are those in which each diagram comes in front of all that follow. -/
theorem strict_iff_pairwise_precedes {members : List Diagram} :
    Ascending.Strict compare members ↔ members.Pairwise Precedes :=
  List.Pairwise.iff compare_eq_lt_iff

/-! ## The choice between alternatives -/

variable {alternatives : List Diagram}

theorem setOf_eq_nil_iff : setOf alternatives = [] ↔ alternatives = [] := by
  simp only [List.eq_nil_iff_forall_not_mem, setOf, Ascending.mem_ofList]

theorem choice?_eq_none_iff : choice? alternatives = none ↔ alternatives = [] := by
  rw [← setOf_eq_nil_iff, choice?]
  split <;> simp_all

/-- Alternatives that are all the same stand for themselves. -/
theorem choice?_of_forall_eq (ha : a ∈ alternatives) (h : ∀ b ∈ alternatives, b = a) :
    choice? alternatives = some a := by
  have hsame : ∀ b, b ∈ alternatives ↔ b ∈ [a] := by
    intro b
    rw [List.mem_singleton]
    exact ⟨h b, fun hb => hb ▸ ha⟩
  rw [choice?_congr hsame]
  rfl

/-- Two alternatives that differ leave a choice. -/
theorem choice?_of_ne (ha : a ∈ alternatives) (hb : b ∈ alternatives) (hne : a ≠ b) :
    choice? alternatives = some (.choice (setOf alternatives)) := by
  have ha : a ∈ setOf alternatives := Ascending.mem_ofList.2 ha
  have hb : b ∈ setOf alternatives := Ascending.mem_ofList.2 hb
  rw [choice?]
  split
  next hnone => simp [hnone] at ha
  next only honly =>
    rw [honly, List.mem_singleton] at ha hb
    exact absurd (ha.trans hb.symm) hne
  next => rfl

/-- No choice is one of its own members. -/
theorem choice_notMem (members : List Diagram) : choice members ∉ members := by
  intro h
  have hlt := List.sizeOf_lt_of_mem h
  simp only [choice.sizeOf_spec] at hlt
  omega

/-- One of the alternatives stands for the choice between them if there is no other. -/
theorem choice?_eq_some_iff_of_mem (ha : a ∈ alternatives) :
    choice? alternatives = some a ↔ ∀ b ∈ alternatives, b = a := by
  refine ⟨fun h b hb => ?_, choice?_of_forall_eq ha⟩
  by_contra hne
  rw [choice?_of_ne hb ha hne, Option.some.injEq] at h
  exact choice_notMem (setOf alternatives) (Ascending.mem_ofList.2 (h ▸ ha))

/-- Comparing diagrams decides which of them comes first: of two diagrams that differ exactly one
precedes the other, and whatever precedes a diagram precedes what comes behind it. Choices between
the members of two sets compare equal if the sets are. Of no alternatives there is no choice,
alternatives that are all the same stand for themselves, and from others a choice is left between
exactly these, in ascending order, which is why neither their order nor their repetition matters. -/
theorem strictTotalOrder_and_choice? :
    (∀ a b : Diagram, (compare a b = .lt ↔ a.Precedes b) ∧ (compare a b = .gt ↔ b.Precedes a) ∧
      (compare a b = .eq ↔ a = b)) ∧
    (∀ a : Diagram, ¬ a.Precedes a) ∧
    (∀ a b c : Diagram, a.Precedes b → b.Precedes c → a.Precedes c) ∧
    (∀ a b : Diagram, a.Precedes b ∨ a = b ∨ b.Precedes a) ∧
    (∀ as bs : List Diagram, as.Pairwise Precedes → bs.Pairwise Precedes →
      (compare (.choice as) (.choice bs) = .eq ↔ ∀ d, d ∈ as ↔ d ∈ bs)) ∧
    ∀ alternatives : List Diagram,
      (choice? alternatives = none ↔ alternatives = []) ∧
      (∀ a ∈ alternatives, (choice? alternatives = some a ↔ ∀ b ∈ alternatives, b = a)) ∧
      (∀ a ∈ alternatives, ∀ b ∈ alternatives, a ≠ b → ∃ members,
        choice? alternatives = some (.choice members) ∧ members.Pairwise Precedes ∧
          ∀ d, d ∈ members ↔ d ∈ alternatives) ∧
      ∀ others : List Diagram, (∀ d, d ∈ alternatives ↔ d ∈ others) →
        choice? alternatives = choice? others := by
  refine ⟨fun a b => ⟨compare_eq_lt_iff a b, compare_eq_gt_iff a b, compare_eq_iff a b⟩,
    precedes_irrefl, fun _ _ _ => .trans, precedes_trichotomy, fun as bs has hbs => ?_,
    fun alternatives => ?_⟩
  · rw [compare_eq_iff, choice.injEq]
    constructor
    · rintro rfl d
      exact Iff.rfl
    · exact (strict_iff_pairwise_precedes.2 has).eq_of_mem_iff (strict_iff_pairwise_precedes.2 hbs)
  · refine ⟨choice?_eq_none_iff, fun a => choice?_eq_some_iff_of_mem, fun a ha b hb hne => ?_,
      fun others => choice?_congr⟩
    refine ⟨setOf alternatives, choice?_of_ne ha hb hne, ?_, fun d => Ascending.mem_ofList⟩
    exact strict_iff_pairwise_precedes.1 (Ascending.strict_ofList alternatives)

/-- A box precedes a choice, which precedes a choice that has a member more. Repeated and in another
order, the box and the longer choice make the same choice, and the longer choice alone stands for
itself. -/
theorem strictTotalOrder_and_choice?_nested : ∃ a b c : Diagram, a = .terminal "x" ∧
    b = .choice [.terminal "y", .nonTerminal "A"] ∧
    c = .choice [.terminal "y", .nonTerminal "A", .nonTerminal "B"] ∧
    a.Precedes b ∧ b.Precedes c ∧ a.Precedes c ∧
    [a, b, c].Pairwise Precedes ∧ compare (.choice [a, b, c]) (.choice [a, b, c]) = .eq ∧
    c ≠ a ∧ (∃ members, choice? [c, a, c] = some (.choice members) ∧ members.Pairwise Precedes ∧
      ∀ d, d ∈ members ↔ d ∈ [c, a, c]) ∧
    choice? [c, a, c] = choice? [a, c] ∧ choice? [c, c] = some c := by
  obtain ⟨-, -, htrans, -, hsets, hchoice⟩ := strictTotalOrder_and_choice?
  have hab : (terminal "x").Precedes (.choice [.terminal "y", .nonTerminal "A"]) :=
    .kind (by decide)
  have hbc : (choice [.terminal "y", .nonTerminal "A"]).Precedes
      (.choice [.terminal "y", .nonTerminal "A", .nonTerminal "B"]) := .choice (.cons (.cons .nil))
  have hac := htrans _ _ _ hab hbc
  have hascending : [terminal "x", choice [.terminal "y", .nonTerminal "A"],
      choice [.terminal "y", .nonTerminal "A", .nonTerminal "B"]].Pairwise Precedes := by
    simp [hab, hbc, hac]
  have hne : choice [.terminal "y", .nonTerminal "A", .nonTerminal "B"] ≠ terminal "x" := nofun
  obtain ⟨-, -, hseveral, hset⟩ :=
    hchoice [choice [.terminal "y", .nonTerminal "A", .nonTerminal "B"],
    terminal "x", choice [.terminal "y", .nonTerminal "A", .nonTerminal "B"]]
  refine ⟨_, _, _, rfl, rfl, rfl, hab, hbc, hac, hascending, ?_, hne, ?_, ?_, ?_⟩
  · exact (hsets _ _ hascending hascending).2 fun d => Iff.rfl
  · exact hseveral _ (by simp) _ (by simp) hne
  · exact hset _ fun d => by grind
  · exact ((hchoice _).2.1 _ (by simp)).2 (by simp)

end Railroad.Diagram
