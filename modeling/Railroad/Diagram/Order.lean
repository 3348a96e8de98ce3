import Railroad.Diagram.Basic
set_option autoImplicit false

/-!
# The order of diagrams

Diagrams are ordered first by their kind and then by what they hold: texts by their characters,
lists of diagrams member by member with a list before its own continuations.
`Diagram.compare_eq_iff` says that two diagrams compare equal exactly when they are equal.
-/

namespace Railroad.Diagram

/-- Place of the kind of a diagram in the order of diagrams. -/
def rank : Diagram → Nat
  | .terminal _ => 0
  | .nonTerminal _ => 1
  | .sequence _ => 2
  | .choice _ => 3
  | .optional _ => 4
  | .zeroOrMore _ => 5
  | .oneOrMore _ => 6

mutual

/-- Diagrams compare by kind, and within a kind by what they hold. -/
def compare : Diagram → Diagram → Ordering
  | .terminal a, .terminal b => Ord.compare a b
  | .nonTerminal a, .nonTerminal b => Ord.compare a b
  | .sequence a, .sequence b => compareEach a b
  | .choice a, .choice b => compareEach a b
  | .optional a, .optional b => compare a b
  | .zeroOrMore a, .zeroOrMore b => compare a b
  | .oneOrMore a, .oneOrMore b => compare a b
  | a, b => Ord.compare a.rank b.rank

/-- Lists of diagrams compare member by member, and a list comes before its own continuations. -/
def compareEach : List Diagram → List Diagram → Ordering
  | [], [] => .eq
  | [], _ :: _ => .lt
  | _ :: _, [] => .gt
  | a :: as, b :: bs => (compare a b).then (compareEach as bs)

end

instance : Ord Diagram := ⟨Diagram.compare⟩

mutual

/-- Only equal diagrams compare equal. -/
theorem compare_eq_iff : (a b : Diagram) → (compare a b = .eq ↔ a = b)
  | .terminal _, b => by cases b <;> simp [compare, rank]
  | .nonTerminal _, b => by cases b <;> simp [compare, rank]
  | .sequence as, b => by
      cases b with
      | sequence bs => simp [compare, compareEach_eq_iff as bs]
      | _ => simp [compare, rank]
  | .choice as, b => by
      cases b with
      | choice bs => simp [compare, compareEach_eq_iff as bs]
      | _ => simp [compare, rank]
  | .optional a, b => by
      cases b with
      | optional b => simp [compare, compare_eq_iff a b]
      | _ => simp [compare, rank]
  | .zeroOrMore a, b => by
      cases b with
      | zeroOrMore b => simp [compare, compare_eq_iff a b]
      | _ => simp [compare, rank]
  | .oneOrMore a, b => by
      cases b with
      | oneOrMore b => simp [compare, compare_eq_iff a b]
      | _ => simp [compare, rank]

/-- Only equal lists of diagrams compare equal. -/
theorem compareEach_eq_iff : (as bs : List Diagram) → (compareEach as bs = .eq ↔ as = bs)
  | [], bs => by cases bs <;> simp [compareEach]
  | a :: as, bs => by
      cases bs with
      | nil => simp [compareEach]
      | cons b bs =>
          simp [compareEach, Ordering.then_eq_eq, compare_eq_iff a b, compareEach_eq_iff as bs]

end

instance : Std.LawfulEqCmp Diagram.compare where
  compare_self := (compare_eq_iff _ _).2 rfl
  eq_of_compare := (compare_eq_iff _ _).1

instance : DecidableEq Diagram := fun a b => decidable_of_iff _ (compare_eq_iff a b)

end Railroad.Diagram
