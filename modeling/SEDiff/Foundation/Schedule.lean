import Mathlib.Data.Fintype.Card
import Mathlib.Data.Set.Finite.Basic
import Mathlib.Logic.Relation
import Mathlib.Order.WellFounded

/-!
# Scheduling by dependencies

The keys of a graph are taken one after the other: a key all of whose inputs are taken, or, when there
is no such key, any other one.

## What is proved

* `Scheduled.takes` — every key is taken at most once.
* `Stuck.not_acyclic` — when no key can be taken in order, some keys depend on themselves.
* `Takes.keysLeft_lt` — fewer keys are left after each one.
-/

namespace SEDiff.Foundation

variable {α : Type*}

/-! ### Cycles -/

/-- Nothing reaches itself. -/
def Acyclic (r : α → α → Prop) : Prop := ∀ x, ¬ Relation.TransGen r x x

/-- Finitely many things, each reached by another one of them: one of them reaches itself. -/
theorem not_acyclic_of_forall_exists {r : α → α → Prop} {xs : List α} (hne : xs ≠ [])
    (h : ∀ x ∈ xs, ∃ y ∈ xs, r y x) : ¬ Acyclic r := by
  intro hacyclic
  let s : {x // x ∈ xs} → {x // x ∈ xs} → Prop := fun a b => Relation.TransGen r a.1 b.1
  have : IsTrans {x // x ∈ xs} s := ⟨fun _ _ _ => Relation.TransGen.trans⟩
  have : Std.Irrefl s := ⟨fun a => hacyclic a.1⟩
  have : Finite {x // x ∈ xs} := List.finite_toSet xs
  have hwf : WellFounded s := Finite.wellFounded_of_trans_of_irrefl s
  obtain ⟨x, hx⟩ := List.exists_mem_of_ne_nil xs hne
  obtain ⟨m, -, hmin⟩ := hwf.has_min Set.univ ⟨⟨x, hx⟩, trivial⟩
  obtain ⟨y, hy, hr⟩ := h m.1 m.2
  exact hmin ⟨y, hy⟩ trivial (.single hr)

/-! ### Taking keys -/

section

variable {inputs : α → List α} {keys first done done' : List α}

/-- There are keys left, but none whose inputs are all taken. -/
structure Stuck (inputs : α → List α) (keys done : List α) : Prop where
  /-- Some key is left. -/
  left : ∃ k ∈ keys, k ∉ done
  /-- Each of them waits for an input. -/
  waits : ∀ k ∈ keys, k ∉ done → ¬ inputs k ⊆ done

/-- One more key is taken. -/
inductive Takes (inputs : α → List α) (keys : List α) : List α → List α → Prop
  /-- Its inputs are all taken. -/
  | ready {done : List α} {k : α} (hk : k ∈ keys) (hdone : k ∉ done) (h : inputs k ⊆ done) :
      Takes inputs keys done (done ++ [k])
  /-- There is no such key. -/
  | stuck {done : List α} {k : α} (hk : k ∈ keys) (hdone : k ∉ done) (h : Stuck inputs keys done) :
      Takes inputs keys done (done ++ [k])

/-- The key that is taken. -/
theorem Takes.eq_append (h : Takes inputs keys done done') : ∃ k ∈ keys, k ∉ done ∧ done' = done ++ [k] := by
  cases h with
  | ready hk hdone _ => exact ⟨_, hk, hdone, rfl⟩
  | stuck hk hdone _ => exact ⟨_, hk, hdone, rfl⟩

/-- What is taken after `first`: keys, each once. -/
structure Scheduled (keys first done : List α) : Prop where
  /-- `first` comes first, and then keys that are not in it, each once. -/
  order : ∃ order, done = first ++ order ∧ order.Nodup ∧ ∀ k ∈ order, k ∈ keys ∧ k ∉ first

theorem Scheduled.refl (keys first : List α) : Scheduled keys first first :=
  ⟨[], (List.append_nil first).symm, List.nodup_nil, fun _ hk => absurd hk List.not_mem_nil⟩

/-- Taking one more key. -/
theorem Scheduled.takes (h : Scheduled keys first done) (htakes : Takes inputs keys done done') :
    Scheduled keys first done' := by
  obtain ⟨k, hk, hdone, rfl⟩ := htakes.eq_append
  obtain ⟨order, rfl, hnodup, horder⟩ := h
  rw [List.mem_append, not_or] at hdone
  refine ⟨order ++ [k], List.append_assoc first order [k], ?_, fun k' hk' => ?_⟩
  · refine List.nodup_append.mpr ⟨hnodup, List.nodup_singleton k, fun a ha b hb hab => hdone.2 ?_⟩
    rw [← List.mem_singleton.mp hb, ← hab]
    exact ha
  · cases List.mem_append.mp hk' with
    | inl hm => exact horder k' hm
    | inr hm =>
      rw [List.mem_singleton.mp hm]
      exact ⟨hk, hdone.1⟩

theorem Scheduled.subset (h : Scheduled keys first done) : first ⊆ done := by
  obtain ⟨order, rfl, -⟩ := h
  exact List.subset_append_left first order

/-- Each key that is taken after `first` is taken once. -/
theorem Scheduled.count_eq_one [BEq α] [LawfulBEq α] (h : Scheduled keys first done) {k : α} (hk : k ∈ done)
    (hfirst : k ∉ first) : done.count k = 1 := by
  obtain ⟨order, rfl, hnodup, -⟩ := h
  have horder : k ∈ order := (List.mem_append.mp hk).resolve_left hfirst
  rw [List.count_append, List.count_eq_zero_of_not_mem hfirst, Nat.zero_add]
  exact List.count_eq_one_of_mem hnodup horder

/-- The dependencies between keys that are not in `first`. -/
def Depends (inputs : α → List α) (first : List α) (x y : α) : Prop := x ∈ inputs y ∧ x ∉ first ∧ y ∉ first

/-- **No progress means a cycle**: the keys that are left wait for each other. -/
theorem Stuck.not_acyclic (h : Stuck inputs keys done) (hclosed : ∀ k, ∀ x ∈ inputs k, x ∈ keys)
    (hfirst : first ⊆ done) : ¬ Acyclic (Depends inputs first) := by
  classical
  obtain ⟨k, hk, hdone⟩ := h.left
  have hmem : ∀ x, x ∈ keys.filter (· ∉ done) ↔ x ∈ keys ∧ x ∉ done := fun x => by
    rw [List.mem_filter, decide_eq_true_eq]
  refine @not_acyclic_of_forall_exists _ _ (keys.filter (· ∉ done)) ?_ fun y hy => ?_
  · exact List.ne_nil_of_mem ((hmem k).mpr ⟨hk, hdone⟩)
  · obtain ⟨hy, hydone⟩ := (hmem y).mp hy
    obtain ⟨x, hx, hxdone⟩ : ∃ x ∈ inputs y, x ∉ done := by
      have hwaits := h.waits y hy hydone
      rw [List.subset_def] at hwaits
      push Not at hwaits
      exact hwaits
    exact ⟨x, (hmem x).mpr ⟨hclosed y x hx, hxdone⟩, hx, fun hf => hxdone (hfirst hf), fun hf => hydone (hfirst hf)⟩

/-- How many keys are left. -/
def keysLeft [DecidableEq α] (keys done : List α) : ℕ := (keys.filter (· ∉ done)).length

/-- Fewer keys are left. -/
theorem Takes.keysLeft_lt [DecidableEq α] (h : Takes inputs keys done done') :
    keysLeft keys done' < keysLeft keys done := by
  obtain ⟨k, hk, hdone, rfl⟩ := h.eq_append
  have hsub : keys.filter (· ∉ done ++ [k]) = (keys.filter (· ∉ done)).filter (· ≠ k) := by
    rw [List.filter_filter]
    refine List.filter_congr fun x _ => ?_
    simp [not_or, and_comm]
  rw [keysLeft, keysLeft, hsub]
  refine List.length_filter_lt_length_iff_exists.mpr ⟨k, ?_, by simp⟩
  rw [List.mem_filter, decide_eq_true_eq]
  exact ⟨hk, hdone⟩

end

end SEDiff.Foundation
