import Mathlib.Algebra.BigOperators.Group.List.Lemmas
import Mathlib.Algebra.Order.BigOperators.Group.List
import Mathlib.Algebra.Order.Ring.Nat
import Mathlib.Data.List.Sort

/-!
# Dealing out a list

Each of a row of owners takes the elements of a list that it owns, in the list's order. The
elements have keys, and nobody takes an element whose key is below one of an earlier owner.

## What is proved

* `flatMap_filter_eq` — when each element has one owner, the owners together take the list.
* `sum_filter_eq` — together they take the weight of each element as often as it is owned.
-/

namespace SEDiff.Foundation

variable {α β : Type*} {own : β → α → Prop} [∀ b x, Decidable (own b x)]

/-- An element with an owner is taken. -/
theorem mem_flatMap_filter {bs : List β} {xs : List α} {x : α} :
    (x ∈ bs.flatMap fun b => xs.filter (own b)) ↔ x ∈ xs ∧ ∃ b ∈ bs, own b x := by
  simp only [List.mem_flatMap, List.mem_filter, decide_eq_true_eq]
  constructor
  · rintro ⟨b, hb, hx, ho⟩
    exact ⟨hx, b, hb, ho⟩
  · rintro ⟨hx, b, hb, ho⟩
    exact ⟨b, hb, hx, ho⟩

/-- **One owner each**: the owners together take the list, in order. -/
theorem flatMap_filter_eq {bs : List β} {xs : List α} (key : α → ℕ)
    (hxs : xs.Pairwise fun x y => key x < key y)
    (hbs : bs.Pairwise fun b c => ∀ x ∈ xs, ∀ y ∈ xs, own b x → own c y → key x < key y)
    (hown : ∀ x ∈ xs, ∃ b ∈ bs, own b x) : (bs.flatMap fun b => xs.filter (own b)) = xs := by
  have hpair : (bs.flatMap fun b => xs.filter (own b)).Pairwise fun x y => key x < key y := by
    rw [List.pairwise_flatMap]
    refine ⟨fun b _ => hxs.filter _, hbs.imp fun {b c} h x hx y hy => ?_⟩
    obtain ⟨hx, hox⟩ := List.mem_filter.mp hx
    obtain ⟨hy, hoy⟩ := List.mem_filter.mp hy
    exact h x hx y hy (of_decide_eq_true hox) (of_decide_eq_true hoy)
  have hnodup : ∀ {zs : List α}, zs.Pairwise (fun x y => key x < key y) → zs.Nodup := fun h =>
    List.Pairwise.imp (fun hlt heq => Nat.ne_of_lt hlt (congrArg key heq)) h
  refine List.Perm.eq_of_pairwise (fun x y _ _ hxy hyx => absurd hxy (Nat.lt_asymm hyx)) hpair hxs ?_
  refine (List.perm_ext_iff_of_nodup (hnodup hpair) (hnodup hxs)).mpr fun x => ?_
  rw [mem_flatMap_filter]
  exact ⟨And.left, fun hx => ⟨hx, hown x hx⟩⟩

theorem sum_map_filter (p : α → Prop) [DecidablePred p] (xs : List α) (w : α → ℕ) :
    ((xs.filter p).map w).sum = (xs.map fun x => if p x then w x else 0).sum := by
  induction xs with
  | nil => rfl
  | cons x xs ih =>
    by_cases hp : p x
    · simp [hp, ih]
    · simp [hp, ih]

/-- **How much is taken**: the weight of each element as often as it is owned. -/
theorem sum_filter_eq (bs : List β) (xs : List α) (w : α → ℕ) :
    (bs.map fun b => ((xs.filter (own b)).map w).sum).sum =
      (xs.map fun x => (bs.countP fun b => own b x) * w x).sum := by
  induction bs with
  | nil => simp
  | cons b bs ih =>
    rw [List.map_cons, List.sum_cons, ih, sum_map_filter, ← List.sum_map_add]
    congr 1
    refine List.map_congr_left fun x _ => ?_
    rw [List.countP_cons]
    by_cases ho : own b x
    · simp [ho, Nat.add_mul, Nat.add_comm]
    · simp [ho]

/-- Terms that are below others and have the same sum are the same. -/
theorem eq_of_sum_eq {xs : List α} {f g : α → ℕ} (hle : ∀ x ∈ xs, f x ≤ g x)
    (hsum : (xs.map f).sum = (xs.map g).sum) : ∀ x ∈ xs, f x = g x := by
  induction xs with
  | nil => exact fun x hx => absurd hx List.not_mem_nil
  | cons y xs ih =>
    have hrest := List.sum_le_sum fun x hx => hle x (List.mem_cons_of_mem _ hx)
    have hy := hle y List.mem_cons_self
    rw [List.map_cons, List.map_cons, List.sum_cons, List.sum_cons] at hsum
    intro x hx
    cases List.mem_cons.mp hx with
    | inl h =>
      subst h
      omega
    | inr h => exact ih (fun z hz => hle z (List.mem_cons_of_mem _ hz)) (by omega) x h

end SEDiff.Foundation
