import Mathlib.Data.List.Sort
import Railroad.Ascending
set_option autoImplicit false

/-!
# Ascending lists are ascending

`Ascending.insert` keeps a list in strictly ascending order, and so `Ascending.ofList` makes one
(`strict_ofList`). In such a list no two members are equal (`Strict.nodup`), and it is determined by
its members (`Strict.eq_of_mem_iff`).
-/

namespace Railroad.Ascending

variable {α : Type} {compare : α → α → Ordering}

/-- Each member of the list comes before all members behind it. -/
def Strict (compare : α → α → Ordering) (members : List α) : Prop :=
  members.Pairwise fun a b => compare a b = .lt

/-- In a strictly ascending list nothing occurs twice. -/
theorem Strict.nodup [Std.ReflCmp compare] {members : List α} (h : Strict compare members) :
    members.Nodup := by
  refine List.Pairwise.imp (fun {a b} hlt hab => ?_) h
  have heq : compare a b = .eq := hab ▸ Std.ReflCmp.compare_self
  rw [hlt] at heq
  cases heq

variable [Std.TransCmp compare] [Std.LawfulEqCmp compare]

/-- Inserting keeps a list strictly ascending. -/
theorem strict_insert (a : α) {members : List α} (h : Strict compare members) :
    Strict compare (insert compare a members) := by
  induction members with
  | nil => exact List.pairwise_singleton _ a
  | cons b rest ih =>
      obtain ⟨hb, hrest⟩ := List.pairwise_cons.1 h
      rw [insert]
      split
      next hab =>
        -- the new member comes before the first one, and so before all
        refine List.pairwise_cons.2 ⟨fun c hc => ?_, h⟩
        rcases List.mem_cons.1 hc with rfl | hc
        · exact hab
        · exact Std.TransCmp.lt_trans hab (hb c hc)
      next => exact h
      next hab =>
        -- the first member stays where it is
        refine List.pairwise_cons.2 ⟨fun c hc => ?_, ih hrest⟩
        rcases mem_insert.1 hc with rfl | hc
        · exact Std.OrientedCmp.lt_of_gt hab
        · exact hb c hc

/-- A list that is built by inserting is strictly ascending. -/
theorem strict_ofList (members : List α) : Strict compare (ofList compare members) := by
  induction members with
  | nil => exact List.Pairwise.nil
  | cons a rest ih => exact strict_insert a ih

/-- Strictly ascending lists with the same members are equal. -/
theorem Strict.eq_of_mem_iff {as bs : List α} (ha : Strict compare as) (hb : Strict compare bs)
    (h : ∀ a, a ∈ as ↔ a ∈ bs) : as = bs := by
  -- no member comes before itself
  have hself : ∀ a, compare a a ≠ .lt := by
    intro a hlt
    have heq : compare a a = .eq := Std.ReflCmp.compare_self
    rw [hlt] at heq
    cases heq
  have hirrefl : Std.Irrefl fun a b => compare a b = .lt := ⟨hself⟩
  have hantisymm : Std.Antisymm fun a b => compare a b = .lt :=
    ⟨fun a _ hab hba => absurd (Std.TransCmp.lt_trans hab hba) (hself a)⟩
  exact List.Pairwise.eq_of_mem_iff ha hb h

/-- The ascending list of some members depends only on which these are. -/
theorem ofList_congr {as bs : List α} (h : ∀ a, a ∈ as ↔ a ∈ bs) :
    ofList compare as = ofList compare bs := by
  apply (strict_ofList as).eq_of_mem_iff (strict_ofList bs)
  intro a
  rw [mem_ofList, mem_ofList]
  exact h a

end Railroad.Ascending
