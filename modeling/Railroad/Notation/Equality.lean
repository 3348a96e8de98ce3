import Railroad.Notation.Tree
set_option autoImplicit false

/-!
# Equality of trees

Trees are compared part by part, spans included. `Document.same_iff` and its companions say that the
comparison decides equality.
-/

namespace Railroad.Notation

mutual

/-- Whether two primaries are equal. -/
def Primary.same : Primary → Primary → Bool
  | .name a, .name b => a == b
  | .string a, .string b => a == b
  | .code a, .code b => a == b
  | .charClass a, .charClass b => a == b
  | .group a, .group b => a.same b
  | _, _ => false

/-- Whether two items are equal. -/
def Item.same : Item → Item → Bool
  | ⟨a, mark, span⟩, ⟨b, mark', span'⟩ => a.same b && (mark == mark' && span == span')

/-- Whether two branches are equal. -/
def Branch.same : Branch → Branch → Bool
  | .sequence a span, .sequence b span' => Item.sameEach a b && span == span'
  | .difference a b span, .difference a' b' span' => a.same a' && (b.same b' && span == span')
  | _, _ => false

/-- Whether two choices are equal. -/
def Choice.same : Choice → Choice → Bool
  | ⟨a, span⟩, ⟨b, span'⟩ => Branch.sameEach a b && span == span'

/-- Whether two lists of items are equal. -/
def Item.sameEach : List Item → List Item → Bool
  | [], [] => true
  | a :: as, b :: bs => a.same b && Item.sameEach as bs
  | _, _ => false

/-- Whether two lists of branches are equal. -/
def Branch.sameEach : List Branch → List Branch → Bool
  | [], [] => true
  | a :: as, b :: bs => a.same b && Branch.sameEach as bs
  | _, _ => false

end

mutual

/-- The equality that is computed is equality, constructor by constructor. -/
theorem Primary.same_iff : (a b : Primary) → (a.same b = true ↔ a = b)
  | .name _, b => by cases b <;> simp [Primary.same]
  | .string _, b => by cases b <;> simp [Primary.same]
  | .code _, b => by cases b <;> simp [Primary.same]
  | .charClass _, b => by cases b <;> simp [Primary.same]
  | .group a, b => by
      cases b with
      | group b => simp [Primary.same, Choice.same_iff a b]
      | _ => simp [Primary.same]

theorem Item.same_iff : (a b : Item) → (a.same b = true ↔ a = b)
  | ⟨a, _, _⟩, ⟨b, _, _⟩ => by simp [Item.same, Primary.same_iff a b]

theorem Branch.same_iff : (a b : Branch) → (a.same b = true ↔ a = b)
  | .sequence a _, b => by
      cases b with
      | sequence b _ => simp [Branch.same, Item.sameEach_iff a b]
      | _ => simp [Branch.same]
  | .difference a c _, b => by
      cases b with
      | difference b d _ => simp [Branch.same, Item.same_iff a b, Item.same_iff c d]
      | _ => simp [Branch.same]

theorem Choice.same_iff : (a b : Choice) → (a.same b = true ↔ a = b)
  | ⟨a, _⟩, ⟨b, _⟩ => by simp [Choice.same, Branch.sameEach_iff a b]

/-- Lists are compared item by item. -/
theorem Item.sameEach_iff : (as bs : List Item) → (Item.sameEach as bs = true ↔ as = bs)
  | [], bs => by cases bs <;> simp [Item.sameEach]
  | a :: as, bs => by
      cases bs with
      | nil => simp [Item.sameEach]
      | cons b bs => simp [Item.sameEach, Item.same_iff a b, Item.sameEach_iff as bs]

theorem Branch.sameEach_iff : (as bs : List Branch) → (Branch.sameEach as bs = true ↔ as = bs)
  | [], bs => by cases bs <;> simp [Branch.sameEach]
  | a :: as, bs => by
      cases bs with
      | nil => simp [Branch.sameEach]
      | cons b bs => simp [Branch.sameEach, Branch.same_iff a b, Branch.sameEach_iff as bs]

end

instance : DecidableEq Choice := fun a b => decidable_of_iff _ (Choice.same_iff a b)

deriving instance DecidableEq for Definition
deriving instance DecidableEq for Production
deriving instance DecidableEq for Document

end Railroad.Notation
