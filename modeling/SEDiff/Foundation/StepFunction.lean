import Mathlib.Algebra.BigOperators.Finprod
import Mathlib.Algebra.Order.Field.Rat
import Mathlib.Order.Interval.Finset.Basic
import Mathlib.Data.Int.Interval
import Mathlib.Tactic.Linarith
import Mathlib.Tactic.Ring
import Mathlib.Tactic.Push

/-!
# Step functions on the integers

Weights spread over integer intervals, as functions `ℤ → ℚ`: `box s e w` is `w` on
`[s, e]` and `0` elsewhere, a step function is a finite sum of boxes, and `area f` is
the sum of `f` over all the integers.

## What is proved

* `area_box` — the area of a box is its width times its weight.
* `area_add`, `area_listSum` — areas of finitely supported functions add up.
* `min_listSum_of_disjoint` — the pointwise minimum of two sums of pairwise disjoint
  boxes is the sum of the minima of the pairs of boxes.
-/

namespace SEDiff.Foundation

open Function

/-- The weight `w` on the integers of `[s, e]`. -/
def box (s e : ℤ) (w : ℚ) : ℤ → ℚ := fun x => if s ≤ x ∧ x ≤ e then w else 0

theorem box_of_mem {s e : ℤ} {w : ℚ} {x : ℤ} (h : s ≤ x ∧ x ≤ e) : box s e w x = w := if_pos h

theorem box_of_not_mem {s e : ℤ} {w : ℚ} {x : ℤ} (h : ¬ (s ≤ x ∧ x ≤ e)) : box s e w x = 0 :=
  if_neg h

theorem box_nonneg {s e : ℤ} {w : ℚ} (hw : 0 ≤ w) (x : ℤ) : 0 ≤ box s e w x := by
  unfold box; split_ifs <;> simp [hw]

/-- The sum of a finitely supported function over the integers. -/
noncomputable def area (f : ℤ → ℚ) : ℚ := ∑ᶠ x, f x

theorem finite_support_box (s e : ℤ) (w : ℚ) : (support (box s e w)).Finite :=
  (Finset.Icc s e).finite_toSet.subset fun x hx => by
    rw [mem_support] at hx
    by_contra h
    exact hx (box_of_not_mem (by simpa using h))

/-- A box has its width times its weight as its area. -/
theorem area_box {s e : ℤ} (w : ℚ) (h : s ≤ e + 1) : area (box s e w) = (e - s + 1) * w := by
  have hsub : support (box s e w) ⊆ ↑(Finset.Icc s e) := fun x hx => by
    rw [mem_support] at hx
    by_contra hc
    exact hx (box_of_not_mem (by simpa using hc))
  rw [area, finsum_eq_sum_of_support_subset _ hsub]
  have hcard : ∑ x ∈ Finset.Icc s e, box s e w x = ∑ _x ∈ Finset.Icc s e, w :=
    Finset.sum_congr rfl fun x hx => box_of_mem (by simpa using hx)
  rw [hcard, Finset.sum_const, Int.card_Icc, nsmul_eq_mul]
  congr 1
  have : ((e + 1 - s).toNat : ℤ) = e + 1 - s := Int.toNat_of_nonneg (by omega)
  have hq : (((e + 1 - s).toNat : ℤ) : ℚ) = ((e + 1 - s : ℤ) : ℚ) := by rw [this]
  push_cast at hq
  rw [hq]; ring

theorem area_add {f g : ℤ → ℚ} (hf : (support f).Finite) (hg : (support g).Finite) :
    area (fun x => f x + g x) = area f + area g :=
  finsum_add_distrib hf hg

/-- A function of two finitely supported functions that vanishes with both is finitely supported. -/
theorem finite_support_map₂ {op : ℚ → ℚ → ℚ} (h0 : op 0 0 = 0) {f g : ℤ → ℚ} (hf : (support f).Finite)
    (hg : (support g).Finite) : (support fun x => op (f x) (g x)).Finite := by
  refine (hf.union hg).subset fun x hx => ?_
  rw [mem_support] at hx
  by_contra hc
  simp only [Set.mem_union, mem_support, not_or, not_not] at hc
  rw [hc.1, hc.2] at hx
  exact hx h0

/-- The larger function has the larger area. -/
theorem area_mono {f g : ℤ → ℚ} (hf : (support f).Finite) (hg : (support g).Finite)
    (hle : ∀ x, f x ≤ g x) : area f ≤ area g := by
  have hsub := @finite_support_map₂ (fun a b => b - a) (sub_zero 0) f g hf hg
  have hsplit : area g = area f + area fun x => g x - f x := by
    rw [← area_add hf hsub]
    exact congrArg area (funext fun x => (add_sub_cancel (f x) (g x)).symm)
  have hnn : 0 ≤ area fun x => g x - f x := finsum_nonneg fun x => sub_nonneg.mpr (hle x)
  rw [hsplit]
  exact le_add_of_nonneg_right hnn

theorem area_zero : area (fun _ => 0) = 0 := finsum_zero

/-- The sum of a list of functions. -/
def listSum (fs : List (ℤ → ℚ)) : ℤ → ℚ := fun x => (fs.map fun f => f x).sum

@[simp] theorem listSum_nil (x : ℤ) : listSum [] x = 0 := rfl

@[simp] theorem listSum_cons (f : ℤ → ℚ) (fs : List (ℤ → ℚ)) (x : ℤ) :
    listSum (f :: fs) x = f x + listSum fs x := by simp [listSum]

theorem finite_support_listSum {fs : List (ℤ → ℚ)} (h : ∀ f ∈ fs, (support f).Finite) :
    (support (listSum fs)).Finite := by
  induction fs with
  | nil => exact Set.Finite.subset Set.finite_empty fun x hx => by simp at hx
  | cons f fs ih =>
    have hrest := ih fun g hg => h g (List.mem_cons_of_mem _ hg)
    refine ((h f List.mem_cons_self).union hrest).subset fun x hx => ?_
    rw [mem_support, listSum_cons] at hx
    by_contra hc
    simp only [Set.mem_union, mem_support, not_or, not_not] at hc
    rw [hc.1, hc.2, add_zero] at hx
    exact hx rfl

/-- The area of a sum of functions is the sum of their areas. -/
theorem area_listSum {fs : List (ℤ → ℚ)} (h : ∀ f ∈ fs, (support f).Finite) :
    area (listSum fs) = (fs.map area).sum := by
  induction fs with
  | nil => exact area_zero
  | cons f fs ih =>
    have hfs : ∀ g ∈ fs, (support g).Finite := fun g hg => h g (List.mem_cons_of_mem _ hg)
    have hsplit : listSum (f :: fs) = fun x => f x + listSum fs x := funext fun x => by simp
    rw [hsplit, area_add (h f List.mem_cons_self) (finite_support_listSum hfs), ih hfs]
    simp

/-- Two functions that are never both nonzero. -/
def Apart (f g : ℤ → ℚ) : Prop := ∀ x, f x = 0 ∨ g x = 0

/-- Among functions apart from each other, at most one contributes to the sum at a point. -/
theorem listSum_eq_zero_or_of_apart {f : ℤ → ℚ} {fs : List (ℤ → ℚ)} (h : ∀ g ∈ fs, Apart f g)
    (x : ℤ) : f x = 0 ∨ listSum fs x = 0 := by
  by_cases hf : f x = 0
  · exact Or.inl hf
  · refine Or.inr (List.sum_eq_zero fun v hv => ?_)
    obtain ⟨g, hg, rfl⟩ := List.mem_map.mp hv
    exact (h g hg x).resolve_left hf

/-- The minimum with a sum of functions apart from each other, one function at a time. -/
theorem min_listSum {v : ℚ} (hv : 0 ≤ v) {fs : List (ℤ → ℚ)} (hfs : ∀ f ∈ fs, ∀ x, 0 ≤ f x)
    (hp : fs.Pairwise Apart) (x : ℤ) :
    min v (listSum fs x) = (fs.map fun f => min v (f x)).sum := by
  induction fs with
  | nil => simp [hv]
  | cons f fs ih =>
    rw [List.pairwise_cons] at hp
    have ih := ih (fun g hg => hfs g (List.mem_cons_of_mem _ hg)) hp.2
    rw [listSum_cons, List.map_cons, List.sum_cons, ← ih]
    rcases listSum_eq_zero_or_of_apart hp.1 x with hx | hx
    · rw [hx, min_eq_right hv, zero_add, zero_add]
    · rw [hx, min_eq_right hv, add_zero, add_zero]

/-- The minimum of two sums of functions, each list apart within itself, pair by pair. -/
theorem min_listSum_of_disjoint {fs gs : List (ℤ → ℚ)} (hf : ∀ f ∈ fs, ∀ x, 0 ≤ f x)
    (hg : ∀ g ∈ gs, ∀ x, 0 ≤ g x) (hfp : fs.Pairwise Apart) (hgp : gs.Pairwise Apart) (x : ℤ) :
    min (listSum fs x) (listSum gs x) =
      (fs.map fun f => (gs.map fun g => min (f x) (g x)).sum).sum := by
  have hnn : 0 ≤ listSum gs x := List.sum_nonneg fun v hv => by
    obtain ⟨g, hm, rfl⟩ := List.mem_map.mp hv
    exact hg g hm x
  rw [min_comm, min_listSum hnn hf hfp]
  congr 1
  refine List.map_congr_left fun f hm => ?_
  rw [min_comm, min_listSum (hf f hm x) hg hgp]

/-- The minimum of two boxes is the box over their overlap. -/
theorem min_box {s₁ e₁ s₂ e₂ : ℤ} {w₁ w₂ : ℚ} (h₁ : 0 ≤ w₁) (h₂ : 0 ≤ w₂) (x : ℤ) :
    min (box s₁ e₁ w₁ x) (box s₂ e₂ w₂ x) = box (max s₁ s₂) (min e₁ e₂) (min w₁ w₂) x := by
  by_cases hx₁ : s₁ ≤ x ∧ x ≤ e₁
  · by_cases hx₂ : s₂ ≤ x ∧ x ≤ e₂
    · rw [box_of_mem hx₁, box_of_mem hx₂, box_of_mem (by omega)]
    · rw [box_of_mem hx₁, box_of_not_mem hx₂, box_of_not_mem (by omega), min_eq_right h₁]
  · rw [box_of_not_mem hx₁, box_of_not_mem (s := max s₁ s₂) (by omega),
      min_eq_left (box_nonneg h₂ x)]

/-- A box over an empty interval is zero. -/
theorem box_of_lt {s e : ℤ} (w : ℚ) (h : e < s) (x : ℤ) : box s e w x = 0 :=
  box_of_not_mem (by omega)

end SEDiff.Foundation
