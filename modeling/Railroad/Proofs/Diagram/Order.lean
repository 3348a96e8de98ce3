import Railroad.Diagram.Order
set_option autoImplicit false

/-!
# The order of diagrams is a linear order

`Diagram.compare` is antisymmetric (`compare_swap`) and transitive (`compare_lt_trans`); that only
equal diagrams compare equal is `compare_eq_iff`. Diagrams of different kinds are ordered by their
ranks alone, so that in a chain of three diagrams only those of a single kind have to be looked
into.
-/

namespace Railroad.Diagram

variable {a b c : Diagram}

/-- Diagrams of different kinds are compared by their kinds. -/
theorem compare_of_rank_ne (h : a.rank ≠ b.rank) : compare a b = Ord.compare a.rank b.rank := by
  unfold compare
  split
  case h_8 => rfl
  -- the other cases are those of two diagrams of one kind
  all_goals exact absurd rfl h

/-- A diagram that comes first is of no later kind. -/
theorem rank_le_of_compare_lt (h : compare a b = .lt) : a.rank ≤ b.rank := by
  apply Nat.le_of_not_lt
  intro hlt
  have hne : a.rank ≠ b.rank := by omega
  rw [compare_of_rank_ne hne, Nat.compare_eq_lt] at h
  omega

/-- A chain of three diagrams that are not all of one kind is decided by the ranks. -/
theorem compare_lt_trans_of_rank_ne (hab : compare a b = .lt) (hbc : compare b c = .lt)
    (h : a.rank ≠ b.rank ∨ b.rank ≠ c.rank) : compare a c = .lt := by
  have hle := rank_le_of_compare_lt hab
  have hle' := rank_le_of_compare_lt hbc
  have hlt : a.rank < c.rank := by omega
  rw [compare_of_rank_ne (Nat.ne_of_lt hlt), Nat.compare_eq_lt]
  exact hlt

theorem compare_swap_of_rank_ne (h : a.rank ≠ b.rank) : compare a b = (compare b a).swap := by
  rw [compare_of_rank_ne h, compare_of_rank_ne h.symm]
  exact Std.OrientedOrd.eq_swap

mutual

/-- Comparing the other way round gives the opposite, constructor by constructor. -/
theorem compare_swap : (a b : Diagram) → compare a b = (compare b a).swap
  | .terminal a, b => by
      cases b with
      | terminal b => exact Std.OrientedOrd.eq_swap
      | _ => exact compare_swap_of_rank_ne (by simp [rank])
  | .nonTerminal a, b => by
      cases b with
      | nonTerminal b => exact Std.OrientedOrd.eq_swap
      | _ => exact compare_swap_of_rank_ne (by simp [rank])
  | .sequence as, b => by
      cases b with
      | sequence bs => exact compareEach_swap as bs
      | _ => exact compare_swap_of_rank_ne (by simp [rank])
  | .choice as, b => by
      cases b with
      | choice bs => exact compareEach_swap as bs
      | _ => exact compare_swap_of_rank_ne (by simp [rank])
  | .optional a, b => by
      cases b with
      | optional b => exact compare_swap a b
      | _ => exact compare_swap_of_rank_ne (by simp [rank])
  | .zeroOrMore a, b => by
      cases b with
      | zeroOrMore b => exact compare_swap a b
      | _ => exact compare_swap_of_rank_ne (by simp [rank])
  | .oneOrMore a, b => by
      cases b with
      | oneOrMore b => exact compare_swap a b
      | _ => exact compare_swap_of_rank_ne (by simp [rank])

theorem compareEach_swap : (as bs : List Diagram) → compareEach as bs = (compareEach bs as).swap
  | [], bs => by cases bs <;> rfl
  | a :: as, bs => by
      cases bs with
      | nil => rfl
      | cons b bs =>
          rw [compareEach, compareEach, Ordering.swap_then, ← compare_swap a b,
            ← compareEach_swap as bs]

end

theorem compare_text_lt_trans {s t u : String} (hst : Ord.compare s t = .lt)
    (htu : Ord.compare t u = .lt) : Ord.compare s u = .lt :=
  Std.TransCmp.lt_trans hst htu

mutual

theorem compare_lt_trans : (a b c : Diagram) → compare a b = .lt → compare b c = .lt →
    compare a c = .lt
  | .terminal a, b, c, hab, hbc => by
      -- where one of the three is of another kind, the kinds decide, here and in the cases below
      cases b with
      | terminal b =>
          cases c with
          | terminal c => exact compare_text_lt_trans hab hbc
          | _ => exact compare_lt_trans_of_rank_ne hab hbc (by simp [rank])
      | _ => exact compare_lt_trans_of_rank_ne hab hbc (by simp [rank])
  | .nonTerminal a, b, c, hab, hbc => by
      cases b with
      | nonTerminal b =>
          cases c with
          | nonTerminal c => exact compare_text_lt_trans hab hbc
          | _ => exact compare_lt_trans_of_rank_ne hab hbc (by simp [rank])
      | _ => exact compare_lt_trans_of_rank_ne hab hbc (by simp [rank])
  | .sequence as, b, c, hab, hbc => by
      cases b with
      | sequence bs =>
          cases c with
          | sequence cs => exact compareEach_lt_trans as bs cs hab hbc
          | _ => exact compare_lt_trans_of_rank_ne hab hbc (by simp [rank])
      | _ => exact compare_lt_trans_of_rank_ne hab hbc (by simp [rank])
  | .choice as, b, c, hab, hbc => by
      cases b with
      | choice bs =>
          cases c with
          | choice cs => exact compareEach_lt_trans as bs cs hab hbc
          | _ => exact compare_lt_trans_of_rank_ne hab hbc (by simp [rank])
      | _ => exact compare_lt_trans_of_rank_ne hab hbc (by simp [rank])
  | .optional a, b, c, hab, hbc => by
      cases b with
      | optional b =>
          cases c with
          | optional c => exact compare_lt_trans a b c hab hbc
          | _ => exact compare_lt_trans_of_rank_ne hab hbc (by simp [rank])
      | _ => exact compare_lt_trans_of_rank_ne hab hbc (by simp [rank])
  | .zeroOrMore a, b, c, hab, hbc => by
      cases b with
      | zeroOrMore b =>
          cases c with
          | zeroOrMore c => exact compare_lt_trans a b c hab hbc
          | _ => exact compare_lt_trans_of_rank_ne hab hbc (by simp [rank])
      | _ => exact compare_lt_trans_of_rank_ne hab hbc (by simp [rank])
  | .oneOrMore a, b, c, hab, hbc => by
      cases b with
      | oneOrMore b =>
          cases c with
          | oneOrMore c => exact compare_lt_trans a b c hab hbc
          | _ => exact compare_lt_trans_of_rank_ne hab hbc (by simp [rank])
      | _ => exact compare_lt_trans_of_rank_ne hab hbc (by simp [rank])

/-- Lists are compared at the first place where they differ, so that the order of lists is
transitive where that of diagrams is. -/
theorem compareEach_lt_trans : (as bs cs : List Diagram) → compareEach as bs = .lt →
    compareEach bs cs = .lt → compareEach as cs = .lt
  | [], bs, cs, hab, hbc => by
      cases bs with
      | nil => cases hab
      | cons b bs =>
          cases cs with
          | nil => cases hbc
          | cons c cs => rfl
  | a :: as, bs, cs, hab, hbc => by
      cases bs with
      | nil => cases hab
      | cons b bs =>
          cases cs with
          | nil => cases hbc
          | cons c cs =>
              -- the first members decide, or they are equal and the rest decides
              simp only [compareEach, Ordering.then_eq_lt, compare_eq_iff] at hab hbc ⊢
              rcases hab with hab | ⟨rfl, hab⟩
              · rcases hbc with hbc | ⟨rfl, hbc⟩
                · exact .inl (compare_lt_trans a b c hab hbc)
                · exact .inl hab
              · rcases hbc with hbc | ⟨rfl, hbc⟩
                · exact .inl hbc
                · exact .inr ⟨rfl, compareEach_lt_trans as bs cs hab hbc⟩

end

instance : Std.TransCmp Diagram.compare where
  eq_swap := compare_swap _ _
  isLE_trans {a b c} hab hbc := by
    -- only equal diagrams compare equal, so that the strict order is all there is to it
    rw [Ordering.isLE_iff_eq_lt_or_eq_eq, compare_eq_iff] at hab hbc ⊢
    rcases hab with hab | rfl
    · rcases hbc with hbc | rfl
      · exact .inl (compare_lt_trans a b c hab hbc)
      · exact .inl hab
    · exact hbc

end Railroad.Diagram
