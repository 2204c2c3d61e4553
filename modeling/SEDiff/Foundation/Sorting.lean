import Mathlib.Data.List.Sort

/-!
# Sorting with a comparison function

`qsort` of the C library: of elements that compare equal it does not say which is first, so that any function that sorts
may stand for it.

## What is proved

* `Qsort.ordered` — sorting by a key.
* `Qsort.top`, `Qsort.rest` — sorting by one key, and then the first of them by another.
* `Qsort.stable` — there is such a function.
* `scan_sorted` — looking for a key in a sorted list.
-/

namespace SEDiff.Foundation

variable {α : Type}

/-- The results of a comparison function make sense for the elements of a list. -/
structure Consistent (cmp : α → α → ℤ) (l : List α) : Prop where
  /-- The other way round, the sign changes. -/
  antisymm : ∀ a ∈ l, ∀ b ∈ l, 0 < cmp a b ↔ cmp b a < 0
  /-- It is transitive. -/
  trans : ∀ a ∈ l, ∀ b ∈ l, ∀ c ∈ l, cmp a b ≤ 0 → cmp b c ≤ 0 → cmp a c ≤ 0

/-- A function that sorts. -/
structure Qsort (α : Type) where
  /-- The function. -/
  sort : (α → α → ℤ) → List α → List α
  /-- No element is lost. -/
  perm : ∀ cmp l, List.Perm (sort cmp l) l
  /-- The result is sorted. -/
  sorted : ∀ cmp l, Consistent cmp l → (sort cmp l).Pairwise fun a b => cmp a b ≤ 0

namespace Qsort

variable (q : Qsort α) {cmp cmp' : α → α → ℤ} {key key' : α → ℤ} {l : List α} {n : ℕ}

/-- **Sorting by a key.** -/
theorem ordered (h : ∀ a ∈ l, ∀ b ∈ l, cmp a b = key a - key b) : (q.sort cmp l).Pairwise fun a b => key a ≤ key b := by
  have hconsistent : Consistent cmp l := by
    refine ⟨fun a ha b hb => ?_, fun a ha b hb c hc hab hbc => ?_⟩
    · rw [h a ha b hb, h b hb a ha]
      omega
    · rw [h a ha b hb] at hab
      rw [h b hb c hc] at hbc
      rw [h a ha c hc]
      omega
  refine (q.sorted cmp l hconsistent).imp_of_mem fun {a b} ha hb hab => ?_
  rw [h a ((q.perm cmp l).mem_iff.mp ha) b ((q.perm cmp l).mem_iff.mp hb)] at hab
  omega

/-- Sort by one comparison, and then the first `n` by another. -/
def sort_top (cmp cmp' : α → α → ℤ) (n : ℕ) (l : List α) : List α :=
  q.sort cmp' ((q.sort cmp l).take n) ++ (q.sort cmp l).drop n

theorem perm_sort_top : (q.sort_top cmp cmp' n l).Perm l := by
  have hperm : (q.sort_top cmp cmp' n l).Perm ((q.sort cmp l).take n ++ (q.sort cmp l).drop n) :=
    (q.perm cmp' _).append_right _
  rw [List.take_append_drop] at hperm
  exact hperm.trans (q.perm cmp l)

theorem take_sort_top : (q.sort_top cmp cmp' n l).take n = q.sort cmp' ((q.sort cmp l).take n) := by
  by_cases hn : n ≤ (q.sort cmp l).length
  · have hlen : (q.sort cmp' ((q.sort cmp l).take n)).length = n := by
      rw [(q.perm _ _).length_eq, List.length_take, Nat.min_eq_left hn]
    rw [sort_top, List.take_append_of_le_length hlen.ge, List.take_of_length_le hlen.le]
  · rw [sort_top, List.drop_of_length_le (Nat.le_of_not_le hn), List.append_nil, List.take_of_length_le]
    rw [(q.perm _ _).length_eq, List.length_take]
    exact Nat.min_le_left _ _

theorem drop_sort_top : (q.sort_top cmp cmp' n l).drop n = (q.sort cmp l).drop n := by
  by_cases hn : n ≤ (q.sort cmp l).length
  · have hlen : (q.sort cmp' ((q.sort cmp l).take n)).length = n := by
      rw [(q.perm _ _).length_eq, List.length_take, Nat.min_eq_left hn]
    rw [sort_top, List.drop_append_of_le_length hlen.ge, List.drop_of_length_le hlen.le, List.nil_append]
  · have hlen : (q.sort_top cmp cmp' n l).length ≤ n := by
      rw [q.perm_sort_top.length_eq, ← (q.perm cmp l).length_eq]
      exact Nat.le_of_not_le hn
    rw [List.drop_of_length_le hlen, List.drop_of_length_le (Nat.le_of_not_le hn)]

/-- **The first** are sorted by the second key. -/
theorem top (h : ∀ a ∈ l, ∀ b ∈ l, cmp' a b = key' a - key' b) :
    ((q.sort_top cmp cmp' n l).take n).Pairwise fun a b => key' a ≤ key' b := by
  rw [take_sort_top]
  have hmem : ∀ a ∈ (q.sort cmp l).take n, a ∈ l := fun a ha => (q.perm cmp l).mem_iff.mp (List.mem_of_mem_take ha)
  exact q.ordered fun a ha b hb => h a (hmem a ha) b (hmem b hb)

/-- **The others** are sorted by the first key, and not before any of the first. -/
theorem rest (cmp' : α → α → ℤ) (n : ℕ) (h : ∀ a ∈ l, ∀ b ∈ l, cmp a b = key a - key b) :
    ((q.sort_top cmp cmp' n l).drop n).Pairwise (fun a b => key a ≤ key b) ∧
      ∀ a ∈ (q.sort_top cmp cmp' n l).take n, ∀ b ∈ (q.sort_top cmp cmp' n l).drop n, key a ≤ key b := by
  rw [take_sort_top, drop_sort_top]
  have hsorted := q.ordered h
  rw [← List.take_append_drop n (q.sort cmp l), List.pairwise_append] at hsorted
  exact ⟨hsorted.2.1, fun a ha => hsorted.2.2 a ((q.perm _ _).mem_iff.mp ha)⟩

/-- Merge sort. -/
def stable : Qsort α where
  sort cmp l := l.mergeSort fun a b => decide (cmp a b ≤ 0)
  perm _ l := List.mergeSort_perm l _
  sorted cmp l h := by
    -- The elements of `l` as a type, on which the comparison is a total preorder.
    have hmap := List.map_mergeSort (l := l.attach) (f := Subtype.val) (r := fun a b => decide (cmp a.1 b.1 ≤ 0))
      (s := fun a b => decide (cmp a b ≤ 0)) fun a _ b _ => rfl
    rw [List.attach_map_subtype_val] at hmap
    rw [← hmap, List.pairwise_map]
    refine (List.pairwise_mergeSort (fun a b c hab hbc => ?_) (fun a b => ?_) l.attach).imp of_decide_eq_true
    · exact decide_eq_true (h.trans a a.2 b b.2 c c.2 (of_decide_eq_true hab) (of_decide_eq_true hbc))
    · have hba := h.antisymm a.1 a.2 b.1 b.2
      rw [Bool.or_eq_true, decide_eq_true_iff, decide_eq_true_iff]
      omega

end Qsort

/-! ### Scanning a sorted list -/

variable {f : α → ℕ} {l : List α} {n : ℕ}

/-- Once the key is reached. -/
theorem takeWhile_sorted (h : l.Pairwise fun a b => f a ≤ f b) (hge : ∀ a ∈ l, n ≤ f a) :
    (l.takeWhile fun a => f a == n) = l.filter fun a => f a == n := by
  induction l with
  | nil => rfl
  | cons a l ih =>
    rw [List.pairwise_cons] at h
    by_cases ha : f a = n
    · rw [List.takeWhile_cons_of_pos (by simp [ha]), List.filter_cons_of_pos (by simp [ha]),
        ih h.2 fun b hb => hge b (List.mem_cons_of_mem a hb)]
    · rw [List.takeWhile_cons_of_neg (by simp [ha]), List.filter_cons_of_neg (by simp [ha]), eq_comm,
        List.filter_eq_nil_iff]
      intro b hb
      have hab := h.1 b hb
      have hlt := hge a List.mem_cons_self
      simp only [beq_iff_eq]
      omega

/-- **The scan** of a sorted list finds all elements with the key. -/
theorem scan_sorted (h : l.Pairwise fun a b => f a ≤ f b) :
    ((l.dropWhile fun a => f a < n).takeWhile fun a => f a == n) = l.filter fun a => f a == n := by
  induction l with
  | nil => rfl
  | cons a l ih =>
    by_cases ha : f a < n
    · rw [List.dropWhile_cons_of_pos (by simp [ha]), List.filter_cons_of_neg (by simp; omega), ih h.of_cons]
    · rw [List.dropWhile_cons_of_neg (by simp [ha])]
      refine takeWhile_sorted h fun b hb => ?_
      rcases List.mem_cons.mp hb with rfl | hb
      · exact Nat.not_lt.mp ha
      · exact (Nat.not_lt.mp ha).trans ((List.pairwise_cons.mp h).1 b hb)

end SEDiff.Foundation
