import Railroad.Proofs.Ascending
import Railroad.Proofs.Diagram.NormalForm
set_option autoImplicit false

/-!
# Diagrams in which every choice has a property

A property of the members of a choice may hold of the choices of a diagram at every depth
(`Diagram.EachChoice`). In a canonical diagram the members of every choice form a set of at least
two (`Diagram.IsCanonical`); diagrams in normal form are canonical, and so are those of every
grammar that is read from a grammar text.
-/

namespace Railroad

namespace Diagram

variable {P Q : List Diagram → Prop} {d : Diagram}

/-- At every depth, the members of a choice have a property. -/
inductive EachChoice (P : List Diagram → Prop) : Diagram → Prop where
  | terminal (text : String) : EachChoice P (.terminal text)
  | nonTerminal (name : String) : EachChoice P (.nonTerminal name)
  | sequence {parts : List Diagram} : (∀ d ∈ parts, EachChoice P d) → EachChoice P (.sequence parts)
  | choice {members : List Diagram} :
      P members → (∀ d ∈ members, EachChoice P d) → EachChoice P (.choice members)
  | optional {body : Diagram} : EachChoice P body → EachChoice P (.optional body)
  | zeroOrMore {body : Diagram} : EachChoice P body → EachChoice P (.zeroOrMore body)
  | oneOrMore {body : Diagram} : EachChoice P body → EachChoice P (.oneOrMore body)

/-- What holds of each choice can be weakened. -/
theorem EachChoice.imp (h : d.EachChoice P) (himp : ∀ members, P members → Q members) :
    d.EachChoice Q := by
  induction h with
  | terminal text => exact .terminal text
  | nonTerminal name => exact .nonTerminal name
  | sequence _ ih => exact .sequence ih
  | choice hmembers _ ih => exact .choice (himp _ hmembers) ih
  | optional _ ih => exact .optional ih
  | zeroOrMore _ ih => exact .zeroOrMore ih
  | oneOrMore _ ih => exact .oneOrMore ih

mutual

/-- A property of all lists of diagrams holds of all choices. -/
theorem eachChoice_of_forall (h : ∀ members, P members) : (d : Diagram) → d.EachChoice P
  | .terminal text => .terminal text
  | .nonTerminal name => .nonTerminal name
  | .sequence parts => .sequence (eachChoice_of_forall_mem h parts)
  | .choice members => .choice (h members) (eachChoice_of_forall_mem h members)
  | .optional body => .optional (eachChoice_of_forall h body)
  | .zeroOrMore body => .zeroOrMore (eachChoice_of_forall h body)
  | .oneOrMore body => .oneOrMore (eachChoice_of_forall h body)

theorem eachChoice_of_forall_mem (h : ∀ members, P members) :
    (ds : List Diagram) → ∀ d ∈ ds, d.EachChoice P
  | [] => List.forall_mem_nil _
  | d :: rest =>
      List.forall_mem_cons.2 ⟨eachChoice_of_forall h d, eachChoice_of_forall_mem h rest⟩

end

/-! The choices of a diagram are those of its parts, and a choice itself. -/

@[simp] theorem eachChoice_terminal (text : String) : (terminal text).EachChoice P := .terminal text

@[simp] theorem eachChoice_nonTerminal (name : String) : (nonTerminal name).EachChoice P :=
  .nonTerminal name

@[simp] theorem eachChoice_sequence {parts : List Diagram} :
    (sequence parts).EachChoice P ↔ ∀ d ∈ parts, d.EachChoice P :=
  ⟨fun | .sequence hparts => hparts, .sequence⟩

/-- A choice counts itself and the choices in its members. -/
@[simp] theorem eachChoice_choice {members : List Diagram} :
    (choice members).EachChoice P ↔ P members ∧ ∀ d ∈ members, d.EachChoice P :=
  ⟨fun | .choice h hmembers => ⟨h, hmembers⟩, fun h => .choice h.1 h.2⟩

@[simp] theorem eachChoice_optional {body : Diagram} :
    (optional body).EachChoice P ↔ body.EachChoice P :=
  ⟨fun | .optional h => h, .optional⟩

@[simp] theorem eachChoice_zeroOrMore {body : Diagram} :
    (zeroOrMore body).EachChoice P ↔ body.EachChoice P :=
  ⟨fun | .zeroOrMore h => h, .zeroOrMore⟩

@[simp] theorem eachChoice_oneOrMore {body : Diagram} :
    (oneOrMore body).EachChoice P ↔ body.EachChoice P :=
  ⟨fun | .oneOrMore h => h, .oneOrMore⟩

/-- At every depth, the members of a choice form a set of at least two. -/
def IsCanonical : Diagram → Prop :=
  EachChoice fun members => 2 ≤ members.length ∧ Ascending.Strict compare members

/-- Diagrams in normal form have at least two members in each choice, in ascending order. -/
theorem IsNormal.isCanonical (h : d.IsNormal) : d.IsCanonical := by
  induction h with
  | terminal text => exact .terminal text
  | nonTerminal name => exact .nonTerminal name
  | sequence _ _ ih => exact .sequence ih
  | choice htwo _ hstrict _ ih => exact .choice ⟨htwo, hstrict⟩ ih
  | optional _ ih => exact .optional ih
  | zeroOrMore _ ih => exact .zeroOrMore ih
  | oneOrMore _ ih => exact .oneOrMore ih

theorem IsFramed.isCanonical (h : d.IsFramed) : d.IsCanonical := by
  rcases h with ⟨box, hleaf, rfl⟩ | ⟨hnormal, -⟩
  · refine .sequence fun e he => ?_
    obtain rfl := List.mem_singleton.1 he
    cases e with
    | terminal text => exact .terminal text
    | nonTerminal name => exact .nonTerminal name
    | _ => cases hleaf
  · exact hnormal.isCanonical

/-- Members that form a set already are the set of themselves. -/
theorem setOf_of_strict {members : List Diagram} (h : Ascending.Strict compare members) :
    setOf members = members :=
  (Ascending.strict_ofList members).eq_of_mem_iff h fun _ => Ascending.mem_ofList

end Diagram

end Railroad
