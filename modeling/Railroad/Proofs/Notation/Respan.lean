import Railroad.Notation.Printer
set_option autoImplicit false

/-!
# Trees with other spans

Two texts may be read as the same tree but for the places of its parts. `mapSpans` replaces every
span of a tree, those inside names, strings, codes, classes and links included:
`Document.withoutSpans` forgets them all, and a shift by the length of what stands in front of a
text moves them.
-/

namespace Railroad

/-- The span that lies a number of bytes further on. -/
def Span.shift (k : Nat) (s : Span) : Span := ⟨s.start + k, s.stop + k⟩

/-- The same empty span for every span. -/
def Span.forget (_ : Span) : Span := .point 0

namespace Notation

variable (f : Span → Span)

/-- A name with another span. -/
def Name.mapSpans (n : Name) : Name := ⟨n.text, f n.span⟩

/-- A string with another span. -/
def StringLiteral.mapSpans (s : StringLiteral) : StringLiteral := ⟨s.value, s.quote, f s.span⟩

/-- A character code with another span. -/
def CharCode.mapSpans (k : CharCode) : CharCode := ⟨k.hex, f k.span⟩

/-- A member of a character class with other spans. -/
def ClassItem.mapSpans : ClassItem → ClassItem
  | .char c => .char c
  | .range first last => .range first last
  | .code k => .code (k.mapSpans f)
  | .codeRange first last => .codeRange (first.mapSpans f) (last.mapSpans f)

/-- A character class with other spans. -/
def CharClass.mapSpans (k : CharClass) : CharClass :=
  ⟨k.negated, k.items.map (ClassItem.mapSpans f), f k.span⟩

/-- A link with other spans. -/
def Link.mapSpans (l : Link) : Link := ⟨l.url, l.fragment.map (Name.mapSpans f), f l.span⟩

mutual

/-- A primary with other spans. -/
def Primary.mapSpans : Primary → Primary
  | .name n => .name (n.mapSpans f)
  | .string s => .string (s.mapSpans f)
  | .code k => .code (k.mapSpans f)
  | .charClass k => .charClass (k.mapSpans f)
  | .group c => .group c.mapSpans

/-- An item with other spans. -/
def Item.mapSpans : Item → Item
  | ⟨primary, cardinality, span⟩ => ⟨primary.mapSpans, cardinality, f span⟩

/-- A branch with other spans. -/
def Branch.mapSpans : Branch → Branch
  | .sequence items span => .sequence (Item.mapSpansEach items) (f span)
  | .difference left right span => .difference left.mapSpans right.mapSpans (f span)

/-- A choice with other spans. -/
def Choice.mapSpans : Choice → Choice
  | ⟨branches, span⟩ => ⟨Branch.mapSpansEach branches, f span⟩

/-- Several items with other spans. -/
def Item.mapSpansEach : List Item → List Item
  | [] => []
  | item :: rest => item.mapSpans :: Item.mapSpansEach rest

/-- Several branches with other spans. -/
def Branch.mapSpansEach : List Branch → List Branch
  | [] => []
  | branch :: rest => branch.mapSpans :: Branch.mapSpansEach rest

end

/-- A definition with other spans. -/
def Definition.mapSpans : Definition → Definition
  | .choice c => .choice (c.mapSpans f)
  | .link l => .link (l.mapSpans f)

/-- A production with other spans. -/
def Production.mapSpans (p : Production) : Production :=
  ⟨p.name.mapSpans f, p.definition.mapSpans f, f p.span⟩

/-- A tree with other spans. -/
def Document.mapSpans (d : Document) : Document := ⟨d.productions.map (Production.mapSpans f)⟩

/-- A tree with all its spans forgotten. -/
def Document.withoutSpans (d : Document) : Document := d.mapSpans Span.forget

/-- The spans of several items are changed one by one. -/
theorem Item.mapSpansEach_eq_map (items : List Item) :
    Item.mapSpansEach f items = items.map (Item.mapSpans f) := by
  induction items with
  | nil => rfl
  | cons item rest ih => rw [Item.mapSpansEach, ih, List.map_cons]

/-- The spans of several branches are changed one by one. -/
theorem Branch.mapSpansEach_eq_map (branches : List Branch) :
    Branch.mapSpansEach f branches = branches.map (Branch.mapSpans f) := by
  induction branches with
  | nil => rfl
  | cons branch rest ih => rw [Branch.mapSpansEach, ih, List.map_cons]

theorem ClassItem.mapSpans_id (i : ClassItem) : i.mapSpans id = i := by
  cases i <;> rfl

theorem ClassItem.mapSpans_mapSpans {f g : Span → Span} (i : ClassItem) :
    (i.mapSpans f).mapSpans g = i.mapSpans (g ∘ f) := by
  cases i <;> rfl

theorem CharClass.mapSpans_mapSpans {f g : Span → Span} (k : CharClass) :
    (k.mapSpans f).mapSpans g = k.mapSpans (g ∘ f) := by
  simp only [CharClass.mapSpans, List.map_map, Function.comp_def, ClassItem.mapSpans_mapSpans]

theorem Link.mapSpans_mapSpans {f g : Span → Span} (l : Link) :
    (l.mapSpans f).mapSpans g = l.mapSpans (g ∘ f) := by
  rcases l with ⟨url, fragment, span⟩
  cases fragment <;> rfl

mutual

theorem Primary.mapSpans_mapSpans {f g : Span → Span} :
    (p : Primary) → (p.mapSpans f).mapSpans g = p.mapSpans (g ∘ f)
  | .name _ => rfl
  | .string _ => rfl
  | .code _ => rfl
  | .charClass k => congrArg Primary.charClass k.mapSpans_mapSpans
  | .group c => congrArg Primary.group c.mapSpans_mapSpans

/-- Changing all spans in an item twice is changing them once by both functions, one constructor of
the tree after the other. -/
theorem Item.mapSpans_mapSpans {f g : Span → Span} :
    (i : Item) → (i.mapSpans f).mapSpans g = i.mapSpans (g ∘ f)
  | ⟨primary, cardinality, span⟩ => by
      rw [Item.mapSpans, Item.mapSpans, Item.mapSpans, primary.mapSpans_mapSpans]
      rfl

theorem Branch.mapSpans_mapSpans {f g : Span → Span} :
    (b : Branch) → (b.mapSpans f).mapSpans g = b.mapSpans (g ∘ f)
  | .sequence items span => by
      rw [Branch.mapSpans, Branch.mapSpans, Branch.mapSpans, Item.mapSpansEach_mapSpansEach items]
      rfl
  | .difference left right span => by
      rw [Branch.mapSpans, Branch.mapSpans, Branch.mapSpans, left.mapSpans_mapSpans,
        right.mapSpans_mapSpans]
      rfl

theorem Choice.mapSpans_mapSpans {f g : Span → Span} :
    (c : Choice) → (c.mapSpans f).mapSpans g = c.mapSpans (g ∘ f)
  | ⟨branches, span⟩ => by
      rw [Choice.mapSpans, Choice.mapSpans, Choice.mapSpans,
        Branch.mapSpansEach_mapSpansEach branches]
      rfl

theorem Item.mapSpansEach_mapSpansEach {f g : Span → Span} : (items : List Item) →
    Item.mapSpansEach g (Item.mapSpansEach f items) = Item.mapSpansEach (g ∘ f) items
  | [] => rfl
  | item :: rest => by
      rw [Item.mapSpansEach, Item.mapSpansEach, Item.mapSpansEach, item.mapSpans_mapSpans,
        Item.mapSpansEach_mapSpansEach rest]

theorem Branch.mapSpansEach_mapSpansEach {f g : Span → Span} : (branches : List Branch) →
    Branch.mapSpansEach g (Branch.mapSpansEach f branches) = Branch.mapSpansEach (g ∘ f) branches
  | [] => rfl
  | branch :: rest => by
      rw [Branch.mapSpansEach, Branch.mapSpansEach, Branch.mapSpansEach, branch.mapSpans_mapSpans,
        Branch.mapSpansEach_mapSpansEach rest]

end

/-- The same for definitions. -/
theorem Definition.mapSpans_mapSpans {f g : Span → Span} (v : Definition) :
    (v.mapSpans f).mapSpans g = v.mapSpans (g ∘ f) := by
  cases v with
  | choice c => exact congrArg Definition.choice c.mapSpans_mapSpans
  | link l => exact congrArg Definition.link l.mapSpans_mapSpans

/-- The same for productions. -/
theorem Production.mapSpans_mapSpans {f g : Span → Span} (p : Production) :
    (p.mapSpans f).mapSpans g = p.mapSpans (g ∘ f) := by
  simp only [Production.mapSpans, Definition.mapSpans_mapSpans]
  rfl

/-- Other spans do not change the written form of a class. -/
theorem CharClass.chars_mapSpans (f : Span → Span) (k : CharClass) :
    (k.mapSpans f).chars = k.chars := by
  have hitem : ∀ i : ClassItem, (i.mapSpans f).chars = i.chars := by
    intro i
    cases i <;> rfl
  simp only [CharClass.chars, CharClass.mapSpans, List.flatMap_map, hitem]
  rfl

/-- Other spans do not change the target of a link. -/
theorem Link.target_mapSpans (f : Span → Span) (l : Link) : (l.mapSpans f).target = l.target := by
  rcases l with ⟨url, fragment, span⟩
  cases fragment <;> rfl

end Notation

end Railroad
