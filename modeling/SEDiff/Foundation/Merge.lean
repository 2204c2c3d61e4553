import Mathlib.Algebra.BigOperators.Group.List.Basic
import Mathlib.Data.List.Sort

/-!
# Merging many sorted lists

Of a table of lists, each with the largest first, the largest head is taken again and again. What is merged is compared with
the heads of the last list that has anything left, which is what a scan of the table ends with.

## What is proved

* `merge_perm`, `merge_sorted` — merging a table of sorted lists sorts all its elements.
* `keys_eq_of_largest` — the largest elements of a list have the keys that its sorted list starts with.
* `reached_cutAt`, `Reached.unique` — a list is cut where its sums reach a threshold first, and that is one place.
-/

namespace SEDiff.Foundation

variable {α K : Type*}

/-! ### Taking the largest head -/

section Top

variable [LinearOrder K] (f : α → K)

/-- Where the first of the largest heads is, and what it is. -/
def top : List (List α) → Option (ℕ × α)
  | [] => none
  | [] :: t => (top t).map fun p => (p.1 + 1, p.2)
  | (a :: _) :: t =>
    match top t with
    | some (i, b) => if f a < f b then some (i + 1, b) else some (0, a)
    | none => some (0, a)

/-- The head of the last list that is not empty. -/
def lastHead : List (List α) → Option α
  | [] => none
  | l :: t => (lastHead t).or l.head?

/-- The heads that are taken one after the other, each with the last head there was. -/
def rounds : ℕ → List (List α) → List (α × α)
  | 0, _ => []
  | n + 1, t =>
    match top f t, lastHead t with
    | some (i, a), some b => (a, b) :: rounds n (t.modify i List.tail)
    | _, _ => []

/-- All elements of a table, the largest head first. -/
def merge (t : List (List α)) : List α := (rounds f t.flatten.length t).map Prod.fst

variable {f} {t : List (List α)}

/-- Nothing is taken of a table of empty lists. -/
theorem top_eq_none_iff : top f t = none ↔ t.flatten = [] := by
  induction t with
  | nil => simp [top]
  | cons l t ih =>
    cases l with
    | nil => simpa [top] using ih
    | cons a l =>
      refine iff_of_false ?_ (by simp)
      rw [top]
      split
      · split <;> exact nofun
      · exact nofun

theorem lastHead_eq_none_iff : lastHead t = none ↔ t.flatten = [] := by
  induction t with
  | nil => simp [lastHead]
  | cons l t ih =>
    rw [lastHead, Option.or_eq_none_iff, ih, List.head?_eq_none_iff, List.flatten_cons, List.append_eq_nil_iff,
      and_comm]

/-- The list that the largest head is taken from. -/
theorem top_eq_some {i : ℕ} {a : α} (h : top f t = some (i, a)) :
    ∃ pre l post, t = pre ++ (a :: l) :: post ∧ i = pre.length := by
  induction t generalizing i a with
  | nil => cases h
  | cons l t ih =>
    cases l with
    | nil =>
      rw [top, Option.map_eq_some_iff] at h
      obtain ⟨⟨j, b⟩, hj, heq⟩ := h
      cases heq
      obtain ⟨pre, l, post, rfl, rfl⟩ := ih hj
      exact ⟨[] :: pre, l, post, rfl, rfl⟩
    | cons b l =>
      rw [top] at h
      split at h
      next j c hj =>
        split_ifs at h
        · cases h
          obtain ⟨pre, l', post, rfl, rfl⟩ := ih hj
          exact ⟨(b :: l) :: pre, l', post, rfl, rfl⟩
        · cases h
          exact ⟨[], l, t, rfl, rfl⟩
      next =>
        cases h
        exact ⟨[], l, t, rfl, rfl⟩

/-- One list of a table is changed. -/
theorem modify_append (pre : List (List α)) (l : List α) (post : List (List α)) (g : List α → List α) :
    (pre ++ l :: post).modify pre.length g = pre ++ g l :: post := by
  induction pre with
  | nil => rfl
  | cons l' pre ih => rw [List.cons_append, List.length_cons, List.modify_succ_cons, ih, List.cons_append]

/-- The largest first. -/
def Descending (f : α → K) (l : List α) : Prop := l.Pairwise fun a b => f b ≤ f a

/-- **The head that is taken** is a largest element of the table. -/
theorem le_top {i : ℕ} {a : α} (hsorted : ∀ l ∈ t, Descending f l) (h : top f t = some (i, a)) :
    ∀ b ∈ t.flatten, f b ≤ f a := by
  induction t generalizing i a with
  | nil => cases h
  | cons l t ih =>
    have ht : ∀ l ∈ t, Descending f l := fun l' hl' => hsorted l' (List.mem_cons_of_mem _ hl')
    intro b hb
    rw [List.flatten_cons, List.mem_append] at hb
    cases l with
    | nil =>
      rw [top, Option.map_eq_some_iff] at h
      obtain ⟨⟨j, c⟩, hj, heq⟩ := h
      cases heq
      exact ih ht hj b (hb.resolve_left List.not_mem_nil)
    | cons c l =>
      have hc : ∀ d ∈ c :: l, f d ≤ f c := by
        intro d hd
        obtain rfl | hd := List.mem_cons.mp hd
        · exact le_rfl
        · exact (List.pairwise_cons.mp (hsorted _ List.mem_cons_self)).1 d hd
      rw [top] at h
      split at h
      next j d hj =>
        split_ifs at h with hlt
        · cases h
          exact hb.elim (fun hb => (hc b hb).trans hlt.le) (ih ht hj b)
        · cases h
          exact hb.elim (hc b) fun hb => (ih ht hj b hb).trans (not_lt.mp hlt)
      next hnone =>
        cases h
        refine hb.elim (hc b) fun hb => ?_
        rw [top_eq_none_iff.mp hnone] at hb
        cases hb

/-- What is taken and what is left are all elements. -/
theorem perm_of_top {i : ℕ} {a : α} (h : top f t = some (i, a)) :
    (a :: (t.modify i List.tail).flatten).Perm t.flatten := by
  obtain ⟨pre, l, post, rfl, rfl⟩ := top_eq_some h
  rw [modify_append, List.tail_cons, List.flatten_append, List.flatten_append, List.flatten_cons, List.flatten_cons,
    List.cons_append]
  exact List.perm_middle.symm

/-- What is left is sorted. -/
theorem descending_of_top {i : ℕ} {a : α} (hsorted : ∀ l ∈ t, Descending f l) (h : top f t = some (i, a)) :
    ∀ l ∈ t.modify i List.tail, Descending f l := by
  obtain ⟨pre, l, post, rfl, rfl⟩ := top_eq_some h
  intro l' hl'
  rw [modify_append, List.tail_cons, List.mem_append, List.mem_cons] at hl'
  obtain hl' | rfl | hl' := hl'
  · exact hsorted l' (List.mem_append_left _ hl')
  · exact (List.pairwise_cons.mp (hsorted (a :: l') (by simp))).2
  · exact hsorted l' (by simp [hl'])

/-- As long as there is something left, there is a last head. -/
theorem exists_lastHead {p : ℕ × α} (h : top f t = some p) : ∃ b, lastHead t = some b := by
  cases hlast : lastHead t with
  | some b => exact ⟨b, rfl⟩
  | none =>
    rw [top_eq_none_iff.mpr (lastHead_eq_none_iff.mp hlast)] at h
    cases h

theorem mem_of_lastHead {b : α} (h : lastHead t = some b) : b ∈ t.flatten := by
  induction t with
  | nil => cases h
  | cons l t ih =>
    rw [List.flatten_cons, List.mem_append]
    rw [lastHead, Option.or_eq_some_iff] at h
    obtain h | ⟨-, h⟩ := h
    · exact .inr (ih h)
    · exact .inl (List.mem_of_head? h)

/-- All elements are taken. -/
theorem rounds_perm {n : ℕ} (hn : t.flatten.length ≤ n) : ((rounds f n t).map Prod.fst).Perm t.flatten := by
  induction n generalizing t with
  | zero =>
    rw [List.length_eq_zero_iff.mp (Nat.le_zero.mp hn)]
    rfl
  | succ n ih =>
    rw [rounds]
    cases htop : top f t with
    | none =>
      rw [top_eq_none_iff.mp htop]
      rfl
    | some p =>
      obtain ⟨b, hb⟩ := exists_lastHead htop
      have hperm := perm_of_top htop
      have hlen := hperm.length_eq
      rw [List.length_cons] at hlen
      rw [hb]
      exact ((ih (by omega)).cons p.2).trans hperm

/-- What is taken is in the table, and so is the last head. -/
theorem mem_of_mem_rounds {n : ℕ} {p : α × α} (hp : p ∈ rounds f n t) : p.1 ∈ t.flatten ∧ p.2 ∈ t.flatten := by
  induction n generalizing t with
  | zero => cases hp
  | succ n ih =>
    rw [rounds] at hp
    cases htop : top f t with
    | none =>
      rw [htop] at hp
      cases hp
    | some q =>
      obtain ⟨b, hb⟩ := exists_lastHead htop
      rw [htop, hb] at hp
      have hperm := perm_of_top htop
      obtain rfl | hp := List.mem_cons.mp hp
      · exact ⟨hperm.mem_iff.mp List.mem_cons_self, mem_of_lastHead hb⟩
      · obtain ⟨htaken, hlast⟩ := ih hp
        exact ⟨hperm.mem_iff.mp (List.mem_cons_of_mem _ htaken), hperm.mem_iff.mp (List.mem_cons_of_mem _ hlast)⟩

/-- What is taken is taken in order. -/
theorem rounds_sorted (hsorted : ∀ l ∈ t, Descending f l) (n : ℕ) : Descending f ((rounds f n t).map Prod.fst) := by
  induction n generalizing t with
  | zero => exact List.Pairwise.nil
  | succ n ih =>
    rw [rounds]
    cases htop : top f t with
    | none => exact List.Pairwise.nil
    | some p =>
      obtain ⟨b, hb⟩ := exists_lastHead htop
      rw [hb]
      refine List.pairwise_cons.mpr ⟨fun c hc => ?_, ih (descending_of_top hsorted htop)⟩
      obtain ⟨q, hq, rfl⟩ := List.mem_map.mp hc
      exact le_top hsorted htop q.1 ((perm_of_top htop).mem_iff.mp (List.mem_cons_of_mem _ (mem_of_mem_rounds hq).1))

/-- **All elements** are merged. -/
theorem merge_perm (f : α → K) (t : List (List α)) : (merge f t).Perm t.flatten := rounds_perm le_rfl

/-- **In order.** -/
theorem merge_sorted (hsorted : ∀ l ∈ t, Descending f l) : Descending f (merge f t) := rounds_sorted hsorted _

/-- **The largest elements** of a list: their keys are the first ones of the list when it is sorted. -/
theorem keys_eq_of_largest {xs rest all : List α} (hxs : Descending f xs) (hperm : (xs ++ rest).Perm all)
    (hle : ∀ a ∈ xs, ∀ b ∈ rest, f b ≤ f a) (hall : Descending f all) :
    xs.map f = (all.map f).take xs.length := by
  have hsort : (rest.mergeSort fun a b => decide (f b ≤ f a)).Perm rest := List.mergeSort_perm _ _
  have hdesc : Descending f (rest.mergeSort fun a b => decide (f b ≤ f a)) := by
    refine (@List.pairwise_mergeSort _ (fun a b => decide (f b ≤ f a)) ?_ ?_ rest).imp fun h => of_decide_eq_true h
    · intro a b c hab hbc
      simp only [decide_eq_true_eq] at *
      exact hbc.trans hab
    · intro a b
      simpa using le_total (f b) (f a)
  have hlong : ((xs ++ rest.mergeSort fun a b => decide (f b ≤ f a)).map f).Pairwise (· ≥ ·) := by
    refine List.pairwise_map.mpr (List.pairwise_append.mpr ⟨hxs, hdesc, fun a ha b hb => ?_⟩)
    exact hle a ha b (hsort.mem_iff.mp hb)
  have hkeys : (xs ++ rest.mergeSort fun a b => decide (f b ≤ f a)).map f = all.map f := by
    refine List.Perm.eq_of_pairwise (fun a b _ _ hab hba => le_antisymm hba hab) hlong (List.pairwise_map.mpr hall) ?_
    exact ((hsort.append_left xs).trans hperm).map f
  rw [← hkeys, List.map_append, List.take_append_of_le_length (by simp), List.take_of_length_le (by simp)]

end Top

/-! ### Reaching a threshold -/

section Cut

variable [LinearOrder K] (add : K → K → K)

/-- The list up to where the sum of its keys, added to `total` one by one, reaches the threshold. -/
def cutAt (f : α → K) (threshold : K) : K → List α → List α
  | _, [] => []
  | total, a :: l => if threshold ≤ add total (f a) then [a] else a :: cutAt f threshold (add total (f a)) l

/-- The first `n` keys are the fewest, but at least one, whose sum reaches the threshold when they are added to `total`
one by one, or all of them. -/
structure Reached (threshold total : K) (keys : List K) (n : ℕ) : Prop where
  /-- No fewer do. -/
  least : ∀ j, 0 < j → j < n → (keys.take j).foldl add total < threshold
  /-- They do, when keys are left. -/
  reached : n < keys.length → 0 < n ∧ threshold ≤ (keys.take n).foldl add total

variable {add} {f : α → K} {threshold total : K}

theorem cutAt_prefix_self (l : List α) : cutAt add f threshold total l <+: l := by
  induction l generalizing total with
  | nil => exact List.prefix_rfl
  | cons a l ih =>
    rw [cutAt]
    split_ifs with h
    · exact ⟨l, rfl⟩
    · exact (List.prefix_cons_inj a).mpr ih

/-- **The list is cut** where the threshold is reached. -/
theorem reached_cutAt (l : List α) : Reached add threshold total (l.map f) (cutAt add f threshold total l).length := by
  induction l generalizing total with
  | nil => exact ⟨fun j _ hj => absurd hj (Nat.not_lt_zero j), fun h => absurd h (Nat.not_lt_zero _)⟩
  | cons a l ih =>
    rw [cutAt]
    split_ifs with h
    · exact ⟨fun j hpos hj => absurd hj (by simpa using hpos.ne'), fun _ => ⟨by simp, by simpa using h⟩⟩
    · obtain ⟨hleast, hreached⟩ := @ih (add total (f a))
      constructor
      · intro j hpos hj
        obtain ⟨j, rfl⟩ := Nat.exists_eq_succ_of_ne_zero hpos.ne'
        rw [List.map_cons, List.take_succ_cons, List.foldl_cons]
        cases j with
        | zero => simpa using h
        | succ j => exact hleast (j + 1) (Nat.succ_pos j) (by simpa using hj)
      · intro hlt
        rw [List.length_cons, List.map_cons, List.take_succ_cons, List.foldl_cons]
        exact ⟨Nat.succ_pos _, (hreached (by simpa using hlt)).2⟩

/-- There is one such number. -/
theorem Reached.unique {keys : List K} {m n : ℕ} (hm : Reached add threshold total keys m)
    (hn : Reached add threshold total keys n)
    (hml : m ≤ keys.length) (hnl : n ≤ keys.length) : m = n := by
  obtain hlt | heq | hlt := lt_trichotomy m n
  · obtain ⟨hpos, hle⟩ := hm.reached (hlt.trans_le hnl)
    exact absurd (hn.least m hpos hlt) (not_lt.mpr hle)
  · exact heq
  · obtain ⟨hpos, hle⟩ := hn.reached (hlt.trans_le hml)
    exact absurd (hm.least n hpos hlt) (not_lt.mpr hle)

/-- Only the keys up to there matter. -/
theorem Reached.of_take {keys keys' : List K} {n : ℕ} (h : Reached add threshold total keys n)
    (htake : keys.take n = keys'.take n) (hlen : keys.length = keys'.length) : Reached add threshold total keys' n := by
  have hsum : ∀ j ≤ n, keys.take j = keys'.take j := by
    intro j hj
    have hboth := congrArg (List.take j) htake
    rwa [List.take_take, List.take_take, Nat.min_eq_left hj] at hboth
  refine ⟨fun j hpos hj => ?_, fun hlt => ?_⟩
  · rw [← hsum j hj.le]
    exact h.least j hpos hj
  · rw [← hsum n le_rfl]
    exact h.reached (hlen ▸ hlt)

end Cut

end SEDiff.Foundation
