import Mathlib.Data.List.Forall2
set_option autoImplicit false

/-!
# Results that may be errors

A computation in steps yields a value if each of its steps does (`bind_eq_ok`), and its errors may
be renamed in each step or in the end (`mapError_bind`). A step that is repeated for each member of
a list yields values if it yields one for each member (`exists_mapM_eq_ok_iff`), and these are its
values (`mem_of_mapM_eq_ok`).
-/

namespace Railroad

variable {ε ε' α β : Type}

/-- Behind a step that succeeds the computation goes on with its value. -/
theorem ok_bind (a : α) (next : α → Except ε β) : (Except.ok a >>= next) = next a := rfl

/-- A computation in two steps succeeds if both do. -/
theorem bind_eq_ok {x : Except ε α} {next : α → Except ε β} {b : β} :
    (x >>= next) = .ok b ↔ ∃ a, x = .ok a ∧ next a = .ok b := by
  constructor
  · intro h
    cases x with
    | ok a => exact ⟨a, rfl, h⟩
    | error e => cases h
  · rintro ⟨a, rfl, h⟩
    exact h

/-- A computation that needs no step succeeds with its value. -/
theorem pure_eq_ok {a b : α} : (pure a : Except ε α) = .ok b ↔ b = a := by
  show Except.ok a = .ok b ↔ _
  rw [Except.ok.injEq, eq_comm]

/-- Errors may be renamed in each of two steps. -/
theorem mapError_bind (g : ε → ε') (x : Except ε α) (next : α → Except ε β) :
    (x >>= next).mapError g = x.mapError g >>= fun a => (next a).mapError g := by
  cases x <;> rfl

/-- A computation succeeds whatever its errors are called. -/
theorem mapError_eq_ok {g : ε → ε'} {x : Except ε α} {a : α} :
    x.mapError g = .ok a ↔ x = .ok a := by
  cases x with
  | error e => constructor <;> intro h <;> cases h
  | ok b => constructor <;> intro h <;> cases h <;> rfl

/-- Without its errors, a computation in two steps is one of two steps that may fail. -/
theorem toOption_bind (x : Except ε α) (next : α → Except ε β) :
    (x >>= next).toOption = x.toOption.bind fun a => (next a).toOption := by
  cases x <;> rfl

/-- A changed value is the change of a value. -/
theorem map_eq_ok {f : α → β} {x : Except ε α} {b : β} :
    f <$> x = .ok b ↔ ∃ a, x = .ok a ∧ b = f a := by
  rw [map_eq_pure_bind, bind_eq_ok]
  simp only [pure_eq_ok]

/-! ## Repeated steps -/

section Repeated

variable {step : α → Except ε β} {as : List α} {bs : List β}

/-- A repeated step succeeds if it succeeds for the first member and for the others. -/
theorem mapM_cons_eq_ok {a : α} : (a :: as).mapM step = .ok bs ↔
    ∃ b rest, step a = .ok b ∧ as.mapM step = .ok rest ∧ bs = b :: rest := by
  rw [List.mapM_cons, bind_eq_ok]
  simp only [bind_eq_ok, pure_eq_ok, exists_and_left]

/-- There is a value for each member, in the order of the members. -/
theorem forall₂_of_mapM (h : as.mapM step = .ok bs) :
    List.Forall₂ (fun a b => step a = .ok b) as bs := by
  induction as generalizing bs with
  | nil =>
      rw [List.mapM_nil, pure_eq_ok] at h
      rw [h]
      exact .nil
  | cons a as ih =>
      obtain ⟨b, rest, hb, hrest, rfl⟩ := mapM_cons_eq_ok.1 h
      exact .cons hb (ih hrest)

/-- A repeated step succeeds just when it does so for every member. -/
theorem exists_mapM_eq_ok_iff :
    (∃ bs, as.mapM step = .ok bs) ↔ ∀ a ∈ as, ∃ b, step a = .ok b := by
  induction as with
  | nil => exact ⟨fun _ a ha => absurd ha List.not_mem_nil, fun _ => ⟨[], rfl⟩⟩
  | cons a as ih =>
      rw [List.forall_mem_cons, ← ih]
      constructor
      · rintro ⟨bs, h⟩
        obtain ⟨b, rest, hb, hrest, -⟩ := mapM_cons_eq_ok.1 h
        exact ⟨⟨b, hb⟩, ⟨rest, hrest⟩⟩
      · rintro ⟨⟨b, hb⟩, ⟨rest, hrest⟩⟩
        exact ⟨b :: rest, mapM_cons_eq_ok.2 ⟨b, rest, hb, hrest, rfl⟩⟩

/-- The values of a repeated step are those of the members. -/
theorem mem_of_mapM_eq_ok (h : as.mapM step = .ok bs) {b : β} :
    b ∈ bs ↔ ∃ a ∈ as, step a = .ok b := by
  induction as generalizing bs with
  | nil =>
      cases h
      simp
  | cons a as ih =>
      obtain ⟨c, rest, hc, hrest, rfl⟩ := mapM_cons_eq_ok.1 h
      rw [List.mem_cons, List.exists_mem_cons_iff, ih hrest, hc, Except.ok.injEq, eq_comm]

/-- A member may be replaced by one for which the step gives the same result. -/
theorem mapM_replace {a a' : α} (h : step a' = step a) (before after : List α) :
    (before ++ a' :: after).mapM step = (before ++ a :: after).mapM step := by
  simp only [List.mapM_append, List.mapM_cons, h]

end Repeated

end Railroad
