import Mathlib.Data.List.Basic
import Mathlib.Order.Basic

/-!
# Nested pairs

Sequences of items that open something and items that close what was opened last. What is open is kept on
a stack, top first; an item may not be opened while one that it clashes with is open.

## What is proved

* `Nested.held_unique` — a sequence leaves one thing open at most.
* `nested_iff_balanced` — the sequences that leave nothing open are those of the grammar of balanced sequences.
-/

namespace SEDiff.Foundation

variable {α : Type*} (opens : α → Prop) (clash closes : α → α → Prop)

/-- `Balanced held w`: inside `held`, the sequence `w` closes all it opens, in order. -/
inductive Balanced : List α → List α → Prop
  /-- Nothing opened. -/
  | nil {held : List α} : Balanced held []
  /-- An item, what is inside, what closes it, and the rest. -/
  | pair {held w w' : List α} {l u : α} : opens l → (∀ h ∈ held, ¬ clash h l) → ¬ opens u → closes l u →
      Balanced (l :: held) w → Balanced held w' → Balanced held (l :: w ++ u :: w')

/-- `Nested held w held'`: with `held` open before the sequence `w`, `held'` is open after it. -/
inductive Nested : List α → List α → List α → Prop
  /-- Nothing changes. -/
  | nil {held : List α} : Nested held [] held
  /-- An item is opened. -/
  | opening {held w held' : List α} {l : α} : opens l → (∀ h ∈ held, ¬ clash h l) → Nested (l :: held) w held' →
      Nested held (l :: w) held'
  /-- The item on top is closed. -/
  | closing {held w held' : List α} {l u : α} : ¬ opens u → closes l u → Nested held w held' →
      Nested (l :: held) (u :: w) held'

variable {opens clash closes}

theorem nested_nil_iff {held held' : List α} : Nested opens clash closes held [] held' ↔ held' = held := by
  constructor
  · intro h
    cases h with
    | nil => rfl
  · rintro rfl
    exact .nil

/-- What a sequence leaves open depends on what was open before it. -/
theorem Nested.held_unique {held w held₁ held₂ : List α} (h₁ : Nested opens clash closes held w held₁)
    (h₂ : Nested opens clash closes held w held₂) : held₁ = held₂ := by
  induction h₁ with
  | nil =>
    cases h₂ with
    | nil => rfl
  | opening hl hc h ih =>
    cases h₂ with
    | opening hl' hc' h' => exact ih h'
    | closing hu hcl h' => exact absurd hl hu
  | closing hu hcl h ih =>
    cases h₂ with
    | opening hl hc h' => exact absurd hl hu
    | closing hu' hcl' h' => exact ih h'

/-- Running one sequence after another. -/
theorem Nested.append {held held₁ held₂ w w' : List α} (h : Nested opens clash closes held w held₁)
    (h' : Nested opens clash closes held₁ w' held₂) : Nested opens clash closes held (w ++ w') held₂ := by
  induction h with
  | nil => exact h'
  | opening hl hc _ ih => exact .opening hl hc (ih h')
  | closing hu hcl _ ih => exact .closing hu hcl (ih h')

/-- A sequence in two parts. -/
theorem nested_append_iff {held held₂ w w' : List α} : Nested opens clash closes held (w ++ w') held₂ ↔
    ∃ held₁, Nested opens clash closes held w held₁ ∧ Nested opens clash closes held₁ w' held₂ := by
  refine ⟨fun h => ?_, fun ⟨held₁, h, h'⟩ => h.append h'⟩
  induction w generalizing held with
  | nil => exact ⟨held, .nil, h⟩
  | cons c w ih =>
    cases h with
    | opening hl hc h =>
      obtain ⟨held₁, h, h'⟩ := ih h
      exact ⟨held₁, .opening hl hc h, h'⟩
    | closing hu hcl h =>
      obtain ⟨held₁, h, h'⟩ := ih h
      exact ⟨held₁, .closing hu hcl h, h'⟩

/-- A balanced sequence leaves open what was open before it. -/
theorem Balanced.nested {held w : List α} (h : Balanced opens clash closes held w) :
    Nested opens clash closes held w held := by
  induction h with
  | nil => exact .nil
  | pair hl hc hu hcl _ _ ih ih' => exact .opening hl hc (ih.append (.closing hu hcl ih'))

/-- A sequence that closes everything, cut where the item on top is closed: up to there it is balanced. -/
theorem Nested.cut {held w : List α} (h : Nested opens clash closes held w []) :
    match held with
    | [] => Balanced opens clash closes [] w
    | l :: held' => ∃ w₁ u w₂, w = w₁ ++ u :: w₂ ∧ Balanced opens clash closes (l :: held') w₁ ∧ ¬ opens u ∧
        closes l u ∧ Nested opens clash closes held' w₂ [] := by
  -- by induction on the length: an opening item is cut off first, and then what is left
  induction hn : w.length using Nat.strongRecOn generalizing held w with
  | _ n ih =>
    subst hn
    cases h with
    | nil => exact .nil
    | @opening _ w _ l hl hc hrest =>
      obtain ⟨w₁, u, w₂, rfl, hw₁, hu, hcl, hw₂⟩ := ih _ (by simp) hrest rfl
      have hcut := ih w₂.length (by simp; omega) hw₂ rfl
      cases held with
      | nil => exact .pair hl hc hu hcl hw₁ hcut
      | cons l' held' =>
        obtain ⟨w₃, u', w₄, rfl, hw₃, hu', hcl', hw₄⟩ := hcut
        refine ⟨l :: w₁ ++ u :: w₃, u', w₄, by simp, .pair hl hc hu hcl hw₁ hw₃, hu', hcl', hw₄⟩
    | @closing held' w _ l u hu hcl hrest => exact ⟨[], u, w, rfl, .nil, hu, hcl, hrest⟩

/-- **The stack reads the grammar**: what leaves nothing open is what is balanced. -/
theorem nested_iff_balanced {w : List α} :
    Nested opens clash closes [] w [] ↔ Balanced opens clash closes [] w :=
  ⟨Nested.cut, Balanced.nested⟩

end SEDiff.Foundation
