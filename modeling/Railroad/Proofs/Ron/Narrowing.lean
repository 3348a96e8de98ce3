import Railroad.Proofs.Ron.Reader
set_option autoImplicit false

/-!
# Readers that accept less

A strict reader narrows a plain one if it reads the values of the plain reader that are good, each
after a conversion, and fails on everything else (`Narrows`). A value that is bad may be noticed by
the strict reader before the plain one comes to the end of it. That makes no difference as long as a
bad part makes the whole bad, which is what `Narrows.bind` asks for. So narrowing goes from the
values in brackets to the brackets, and from a value to a whole text. A reader whose values are all
good narrows itself.
-/

namespace Railroad.Ron.Reader

variable {α β γ δ σ : Type} {good : α → Prop} {convert : α → β} {good' : γ → Prop}
  {convert' : γ → δ} {plain : Reader α} {strict : Reader β}

/-- The strict reader reads what the plain one reads, converted, if it is good, and fails everywhere
else. -/
def Narrows (good : α → Prop) (convert : α → β) (plain : Reader α) (strict : Reader β) : Prop :=
  ∀ cs b tail, strict cs = .ok (b, tail) ↔
    ∃ a, plain cs = .ok (a, tail) ∧ good a ∧ b = convert a

/-- A reader whose values are all good narrows itself. -/
theorem narrows_id {reader : Reader α} (h : ∀ cs a tail, reader cs = .ok (a, tail) → good a) :
    Narrows good id reader reader := by
  intro cs a tail
  constructor
  · exact fun ha => ⟨a, ha, h cs a tail ha, rfl⟩
  · rintro ⟨_, ha, -, rfl⟩
    exact ha

theorem narrows_pure {a : α} (h : good a) : Narrows good convert (pure a) (pure (convert a)) := by
  intro cs b tail
  simp only [pure_eq_ok]
  constructor
  · rintro ⟨rfl, rfl⟩
    exact ⟨a, ⟨rfl, rfl⟩, h, rfl⟩
  · rintro ⟨_, ⟨rfl, rfl⟩, -, rfl⟩
    exact ⟨rfl, rfl⟩

/-- Where both readers stop it makes no difference why. -/
theorem narrows_stop (error error' : ReadError) :
    Narrows good convert (stop error) (stop error') := by
  intro cs b tail
  simp only [stop_apply, reduceCtorEq, false_and, exists_false]

/-- Nothing good is read where the strict reader stops. -/
theorem narrows_stop_of_not {a : α} (h : ¬ good a) (error : ReadError) :
    Narrows good convert (pure a) (stop error) := by
  intro cs b tail
  simp only [stop_apply, reduceCtorEq, pure_eq_ok, false_iff, not_exists]
  rintro _ ⟨⟨rfl, -⟩, hgood, -⟩
  exact h hgood

/-- A step that both readers take in front makes no difference. -/
theorem Narrows.behind {first : Reader σ} {plain : σ → Reader α} {strict : σ → Reader β}
    (h : ∀ s, Narrows good convert (plain s) (strict s)) :
    Narrows good convert (first >>= plain) (first >>= strict) := by
  intro cs b tail
  simp only [bind_eq_ok, h _ _ b tail]
  constructor
  · rintro ⟨s, mid, hs, a, ha, hrest⟩
    exact ⟨a, ⟨s, mid, hs, ha⟩, hrest⟩
  · rintro ⟨a, ⟨s, mid, hs, ha⟩, hrest⟩
    exact ⟨s, mid, hs, a, ha, hrest⟩

/-- Two steps in a row narrow two others, provided that nothing good is made of what is not good. -/
theorem Narrows.bind {next : α → Reader γ} {next' : β → Reader δ}
    (h : Narrows good convert plain strict)
    (hnext : ∀ a, good a → Narrows good' convert' (next a) (next' (convert a)))
    (hback : ∀ a cs c tail, next a cs = .ok (c, tail) → good' c → good a) :
    Narrows good' convert' (plain >>= next) (strict >>= next') := by
  intro cs d tail
  constructor
  · intro hd
    -- the strict reader takes both steps, and what it reads first is good
    obtain ⟨b, mid, hb, hnextb⟩ := bind_eq_ok.1 hd
    obtain ⟨a, ha, hgood, rfl⟩ := (h cs b mid).1 hb
    obtain ⟨c, hc, hgood', rfl⟩ := (hnext a hgood mid d tail).1 hnextb
    exact ⟨c, bind_eq_ok.2 ⟨a, mid, ha, hc⟩, hgood', rfl⟩
  · rintro ⟨c, hc, hgood', rfl⟩
    obtain ⟨a, mid, ha, hnexta⟩ := bind_eq_ok.1 hc
    -- what is good in the end was good before
    have hgood := hback a mid c tail hnexta hgood'
    exact bind_eq_ok.2 ⟨convert a, mid, (h cs _ mid).2 ⟨a, ha, hgood, rfl⟩,
      (hnext a hgood mid _ tail).2 ⟨c, hnexta, hgood', rfl⟩⟩

/-- What is made of a value is good if the value is. -/
theorem Narrows.made (h : Narrows good convert plain strict) {make : α → γ} {make' : β → δ}
    (hgood : ∀ a, good' (make a) ↔ good a) (hmake : ∀ a, make' (convert a) = convert' (make a)) :
    Narrows good' convert' (do return make (← plain)) (do return make' (← strict)) := by
  apply h.bind
  · intro a ha
    rw [hmake]
    exact narrows_pure ((hgood a).2 ha)
  · intro a cs c tail hc hgood'
    obtain ⟨rfl, -⟩ := pure_eq_ok.1 hc
    exact (hgood a).1 hgood'

/-! ## Brackets -/

/-- Between the parentheses of a variant a reader narrows another as it does alone. -/
theorem Narrows.payload (h : Narrows good convert plain strict) :
    Narrows good convert (payload plain) (payload strict) := by
  refine .behind fun _ => .behind fun _ => .behind fun _ => h.bind ?_ ?_
  · exact fun a ha => .behind fun _ => .behind fun _ => narrows_pure ha
  · intro a cs c tail hlast hc
    simp only [bind_eq_ok, pure_eq_ok] at hlast
    obtain ⟨_, _, -, _, _, -, rfl, -⟩ := hlast
    exact hc

/-- Nesting makes no difference, since both readers have the same limit. -/
theorem Narrows.nested (h : Narrows good convert plain strict) (budget : Nat) :
    Narrows good convert (nested budget plain) (nested budget strict) := by
  cases budget with
  | zero => exact narrows_stop _ _
  | succ budget => exact h

theorem Narrows.collect (h : Narrows good convert plain strict) {done : List α}
    (hdone : ∀ a ∈ done, good a) :
    Narrows (fun as => ∀ a ∈ as, good a) (List.map convert) (collect plain done)
      (collect strict (done.map convert)) := by
  refine h.made (fun a => ?_) (fun a => rfl)
  rw [List.forall_mem_cons, and_iff_left hdone]

/-- The elements that have been read stay behind those that are read later. -/
theorem suffix_of_eachWithin {element : Reader α} {closing : Char} {budget cs tail : List Char}
    {done last : List α} {afterComma : Bool}
    (h : eachWithin closing (Reader.collect element) budget done afterComma cs = .ok (last, tail)) :
    done <:+ last := by
  induction budget generalizing done afterComma cs with
  | nil =>
      rw [eachWithin, bind_eq_ok] at h
      obtain ⟨another, _, -, hlast⟩ := h
      cases another with
      -- no budget is left for another element
      | true => exact absurd hlast stop_ne_ok
      | false =>
          obtain ⟨rfl, -⟩ := pure_eq_ok.1 hlast
          exact List.suffix_refl last
  | cons b budget ih =>
      rw [eachWithin, bind_eq_ok] at h
      obtain ⟨another, _, -, hlast⟩ := h
      cases another with
      | true =>
          obtain ⟨next, _, hnext, hmore⟩ := bind_eq_ok.1 hlast
          obtain ⟨a, _, -, hpure⟩ := bind_eq_ok.1 hnext
          obtain ⟨rfl, -⟩ := pure_eq_ok.1 hpure
          obtain ⟨found, _, -, hlater⟩ := bind_eq_ok.1 hmore
          exact (List.suffix_cons a done).trans (ih hlater)
      | false =>
          obtain ⟨rfl, -⟩ := pure_eq_ok.1 hlast
          exact List.suffix_refl last

theorem Narrows.eachWithin (h : Narrows good convert plain strict) (closing : Char)
    (budget : List Char) {done : List α} (hdone : ∀ a ∈ done, good a) (afterComma : Bool) :
    Narrows (fun as => ∀ a ∈ as, good a) (List.map convert)
      (eachWithin closing (Reader.collect plain) budget done afterComma)
      (eachWithin closing (Reader.collect strict) budget (done.map convert) afterComma) := by
  -- the elements that have been read are good, and the induction is on those that may still come
  induction budget generalizing done afterComma with
  | nil =>
      unfold Reader.eachWithin
      refine .behind fun another => ?_
      cases another with
      | true => exact narrows_stop _ _
      | false => exact narrows_pure hdone
  | cons b budget ih =>
      unfold Reader.eachWithin
      refine .behind fun another => ?_
      cases another with
      | false => exact narrows_pure hdone
      | true =>
          apply (h.collect hdone).bind
          · exact fun as has => .behind fun found => ih has found
          · intro as cs last tail hlast hgood a ha
            -- elements that are not good stay in the list
            obtain ⟨found, _, -, hlater⟩ := bind_eq_ok.1 hlast
            exact hgood a ((suffix_of_eachWithin hlater).subset ha)

/-- A list is good if its elements are. -/
theorem Narrows.list (h : Narrows good convert plain strict) (budget : Nat) :
    Narrows (fun as => ∀ a ∈ as, good a) (List.map convert) (list budget plain)
      (list budget strict) := by
  have heach : Narrows (fun as => ∀ a ∈ as, good a) (List.map convert)
      (each ']' (Reader.collect plain) []) (each ']' (Reader.collect strict) []) :=
    .behind fun cs => h.eachWithin ']' cs (List.forall_mem_nil good) true
  refine .behind fun _ => Narrows.nested (heach.bind ?_ ?_) budget
  -- the elements were collected in reverse order
  · intro reversed hgood
    rw [← List.map_reverse]
    exact .behind fun _ => narrows_pure fun a ha => hgood a (List.mem_reverse.1 ha)
  · intro reversed cs items tail hlast hgood a ha
    simp only [bind_eq_ok, pure_eq_ok] at hlast
    obtain ⟨_, _, -, rfl, -⟩ := hlast
    exact hgood a (List.mem_reverse.2 ha)

/-- A pair narrows another in its second place. -/
theorem Narrows.pair (h : Narrows good convert plain strict) (first : Reader γ) (budget : Nat) :
    Narrows (fun both => good both.2) (Prod.map id convert) (pair budget first plain)
      (pair budget first strict) := by
  refine .behind fun _ => Narrows.nested (.behind fun another => ?_) budget
  cases another with
  | false => exact narrows_stop _ _
  | true =>
      refine .behind fun c => .behind fun found => .behind fun another => ?_
      cases another with
      | false => exact narrows_stop _ _
      | true =>
          apply h.bind
          -- the first value makes no difference to what is good
          · intro a ha
            have hboth : good (c, a).2 := ha
            exact .behind fun _ => .behind fun _ => narrows_pure hboth
          · intro a cs both tail hlast hboth
            simp only [bind_eq_ok, pure_eq_ok] at hlast
            obtain ⟨_, _, -, _, _, -, rfl, -⟩ := hlast
            exact hboth

/-! ## Whole texts -/

/-- A whole text is good if its value is. -/
theorem Narrows.whole (h : Narrows good convert plain strict) :
    Narrows good convert (whole plain) (whole strict) := by
  refine .behind fun _ => .behind fun _ => h.bind ?_ ?_
  · intro a ha
    refine .behind fun _ => .behind fun cs => ?_
    split
    · exact narrows_pure ha
    · exact narrows_stop _ _
  · intro a cs c tail hlast hc
    simp only [bind_eq_ok] at hlast
    obtain ⟨_, _, -, left, _, -, hvalue⟩ := hlast
    split at hvalue
    · obtain ⟨rfl, -⟩ := pure_eq_ok.1 hvalue
      exact hc
    · exact absurd hvalue stop_ne_ok

theorem run_eq_ok {reader : Reader α} {text : String} {a : α} :
    run reader text = .ok a ↔ ∃ tail, whole reader text.toList = .ok (a, tail) := by
  unfold run
  cases hwhole : Reader.whole reader text.toList with
  | error stopped => simp
  | ok step => simp [Prod.ext_iff]

/-- A text is read by a strict reader if the plain one reads something good, which is converted. -/
theorem Narrows.run_eq_ok (h : Narrows good convert plain strict) {text : String} {b : β} :
    run strict text = .ok b ↔ ∃ a, run plain text = .ok a ∧ good a ∧ b = convert a := by
  simp only [Reader.run_eq_ok, h.whole _ b]
  constructor
  · rintro ⟨tail, a, ha, hrest⟩
    exact ⟨a, ⟨tail, ha⟩, hrest⟩
  · rintro ⟨a, ⟨tail, ha⟩, hrest⟩
    exact ⟨tail, a, ha, hrest⟩

end Railroad.Ron.Reader
