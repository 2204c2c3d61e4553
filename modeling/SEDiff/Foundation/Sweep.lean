import Mathlib.Data.List.Basic

/-!
# Greedy chunk removal

A sweep goes over a list and removes chunks of a size, one after the other, when a predicate holds without them.

## What is proved

* `sweep_forall` — the lists a sweep goes through satisfy the predicate and are sublists of the first one.
* `cut_eq_of_repeat` — a chunk and a copy of it right before it leave the same list when they are removed.
-/

namespace SEDiff.Foundation

variable {α : Type*}

/-- The list without the `n` elements from `pos` on. -/
def cut (x : List α) (pos n : ℕ) : List α := x.take pos ++ x.drop (pos + n)

theorem cut_sublist (x : List α) (pos n : ℕ) : (cut x pos n).Sublist x := by
  have hdrop : (x.drop (pos + n)).Sublist (x.drop pos) := by
    rw [← List.drop_drop]
    exact List.drop_sublist n _
  have happend := hdrop.append_left (x.take pos)
  rwa [List.take_append_drop] at happend

theorem length_cut_sub {x : List α} {pos : ℕ} (hpos : pos < x.length) (n : ℕ) :
    (cut x pos n).length - pos = x.length - (pos + n) := by
  rw [cut, List.length_append, List.length_take, List.length_drop]
  omega

/-- **A repeated chunk**: it does not matter which of the two copies is removed. -/
theorem cut_eq_of_repeat {x : List α} {pos n : ℕ} (hn : n ≤ pos) (h : (x.drop (pos - n)).take n = (x.drop pos).take n) :
    cut x pos n = cut x (pos - n) n := by
  have hfront : x.take pos = x.take (pos - n) ++ (x.drop (pos - n)).take n := by
    rw [← List.take_add, Nat.sub_add_cancel hn]
  have hback : x.drop pos = (x.drop pos).take n ++ x.drop (pos + n) := by
    rw [← List.drop_drop, List.take_append_drop]
  rw [cut, cut, Nat.sub_add_cancel hn, hfront, h, List.append_assoc, ← hback]

theorem length_cut (x : List α) (pos n : ℕ) : (cut x pos n).length = min pos x.length + (x.length - (pos + n)) := by
  rw [cut, List.length_append, List.length_take, List.length_drop]

/-- Something is removed. -/
theorem length_cut_lt {x : List α} {pos n : ℕ} (hpos : pos < x.length) (hn : 0 < n) :
    (cut x pos n).length < x.length := by
  rw [length_cut]
  omega

variable (p : List α → Prop) [DecidablePred p]

/-- The lists that are left after each removal, from `pos` on. -/
def sweep (n : ℕ) (hn : 0 < n) (x : List α) (pos : ℕ) : List (List α) :=
  if pos < x.length then
    if p (cut x pos n) then cut x pos n :: sweep n hn (cut x pos n) pos
    else sweep n hn x (pos + n)
  else []
termination_by x.length - pos
decreasing_by
  · rw [length_cut_sub (by assumption)]
    omega
  · omega

variable {p}

/-- **What a sweep keeps** satisfies the predicate and is a sublist. -/
theorem sweep_forall {n : ℕ} {hn : 0 < n} {x : List α} {pos : ℕ} : ∀ y ∈ sweep p n hn x pos, p y ∧ y.Sublist x := by
  induction x, pos using sweep.induct p n hn with
  | case1 x pos h hp ih =>
    intro y hy
    rw [sweep, if_pos h, if_pos hp] at hy
    obtain rfl | hy := List.mem_cons.mp hy
    · exact ⟨hp, cut_sublist x pos n⟩
    · exact ⟨(ih y hy).1, (ih y hy).2.trans (cut_sublist x pos n)⟩
  | case2 x pos h hp ih =>
    rw [sweep, if_pos h, if_neg hp]
    exact ih
  | case3 x pos h =>
    rw [sweep, if_neg h]
    exact fun y hy => absurd hy List.not_mem_nil

end SEDiff.Foundation
