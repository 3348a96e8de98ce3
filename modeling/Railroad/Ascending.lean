set_option autoImplicit false

/-!
# Ascending lists

A finite set is kept as the list of its members in strictly ascending order. `Ascending.insert` puts
a member into its place and leaves the list alone when the member is there already;
`Ascending.ofList` forms the set of the members of any list. `Ascending.mem_ofList` says that the
members stay the same, provided that only equal members compare equal.
-/

namespace Railroad.Ascending

variable {α : Type}

/-- The ascending list with one more member. -/
def insert (compare : α → α → Ordering) (a : α) : List α → List α
  | [] => [a]
  | b :: rest =>
      match compare a b with
      | .lt => a :: b :: rest
      | .eq => b :: rest
      | .gt => b :: insert compare a rest

/-- The members of a list in strictly ascending order, each once. -/
def ofList (compare : α → α → Ordering) (members : List α) : List α :=
  members.foldr (insert compare) []

variable {compare : α → α → Ordering} [Std.LawfulEqCmp compare]

/-- Inserting a value adds it and loses none. -/
theorem mem_insert {a b : α} {members : List α} :
    b ∈ insert compare a members ↔ b = a ∨ b ∈ members := by
  induction members with
  | nil => simp [insert]
  | cons c rest ih =>
      rw [insert]
      cases h : compare a c with
      | lt => simp
      | eq =>
          obtain rfl : a = c := Std.LawfulEqCmp.eq_of_compare h
          simp
      | gt =>
          simp only [List.mem_cons, ih]
          exact or_left_comm

/-- The ascending list has the members of the list that it was made from. -/
theorem mem_ofList {b : α} {members : List α} :
    b ∈ ofList compare members ↔ b ∈ members := by
  induction members with
  | nil => simp [ofList]
  | cons a rest ih =>
      rw [ofList, List.foldr_cons, mem_insert, List.mem_cons]
      exact or_congr_right ih

end Railroad.Ascending
