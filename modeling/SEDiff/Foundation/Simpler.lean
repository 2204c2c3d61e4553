import Mathlib.Data.List.Forall2
import SEDiff.Foundation.Sweep

/-!
# Simpler lists

A list is simpler than another one when elements were removed from it, or replaced by a neutral one.

## What is proved

* `Simpler.trans`, `simpler_cut`, `simpler_fill` — the ways in which lists get simpler.
* `Simpler.weight_lt` — a simpler list weighs less, unless it is the same: simplification comes to an end.
-/

namespace SEDiff.Foundation

variable {α : Type*} {zero : α} {x y z : List α}

/-- `y` is `x` with some elements removed, and some of the others replaced by `zero`. -/
def Simpler (zero : α) (y x : List α) : Prop := List.SublistForall₂ (fun c b => c = b ∨ c = zero) y x

theorem Simpler.refl (x : List α) : Simpler zero x x := by
  induction x with
  | nil => exact .nil
  | cons b x ih => exact .cons (.inl rfl) ih

/-- Simplifications compose. -/
theorem Simpler.trans (h₁ : Simpler zero z y) (h₂ : Simpler zero y x) : Simpler zero z x := by
  have : IsTrans α fun c b => c = b ∨ c = zero := by
    constructor
    rintro a b c (rfl | rfl) (rfl | rfl)
    · exact .inl rfl
    · exact .inr rfl
    · exact .inr rfl
    · exact .inr rfl
  exact (List.SublistForall₂.is_trans).trans _ _ _ h₁ h₂

/-- What is left after a removal. -/
theorem simpler_of_sublist (h : y.Sublist x) : Simpler zero y x := by
  induction h with
  | slnil => exact .nil
  | cons b _ ih => exact .cons_right ih
  | cons_cons b _ ih => exact .cons (.inl rfl) ih

theorem simpler_cut (x : List α) (pos n : ℕ) : Simpler zero (cut x pos n) x := simpler_of_sublist (cut_sublist x pos n)

/-- Lists that differ by replacements only. -/
theorem simpler_of_forall₂ (h : List.Forall₂ (fun c b => c = b ∨ c = zero) y x) : Simpler zero y x :=
  List.sublistForall₂_iff.mpr ⟨x, h, List.Sublist.refl x⟩

/-- What each element is mapped to is itself or `zero`. -/
theorem simpler_map {f : α → α} (hf : ∀ b, f b = b ∨ f b = zero) (x : List α) : Simpler zero (x.map f) x := by
  induction x with
  | nil => exact .nil
  | cons b x ih => exact .cons (hf b) ih

theorem simpler_set (x : List α) (i : ℕ) : Simpler zero (x.set i zero) x := by
  induction x generalizing i with
  | nil => exact .nil
  | cons b x ih =>
    cases i with
    | zero => exact .cons (.inr rfl) (Simpler.refl x)
    | succ i => exact .cons (.inl rfl) (ih i)

/-- A position that does not hold `zero` is replaced. -/
theorem set_ne {i : ℕ} (hi : i < x.length) (hx : x[i] ≠ zero) : x.set i zero ≠ x := by
  intro h
  have hget : (x.set i zero)[i]? = x[i]? := by rw [h]
  rw [List.getElem?_set_self hi, List.getElem?_eq_getElem hi] at hget
  exact hx (Option.some.inj hget).symm

/-- `n` elements from `pos` on are `zero`, as after `memset`. -/
def fill (zero : α) (x : List α) (pos n : ℕ) : List α := x.take pos ++ (List.replicate n zero ++ x.drop (pos + n))

theorem length_fill {pos n : ℕ} (h : pos + n ≤ x.length) : (fill zero x pos n).length = x.length := by
  rw [fill, List.length_append, List.length_append, List.length_take, List.length_replicate, List.length_drop]
  omega

theorem simpler_fill {pos n : ℕ} (h : pos + n ≤ x.length) : Simpler zero (fill zero x pos n) x := by
  apply simpler_of_forall₂
  induction pos generalizing x with
  | zero =>
    rw [fill, List.take_zero, List.nil_append, Nat.zero_add]
    rw [Nat.zero_add] at h
    induction n generalizing x with
    | zero =>
      rw [List.replicate_zero, List.nil_append, List.drop_zero]
      exact List.forall₂_same.mpr fun b _ => .inl rfl
    | succ n ih =>
      cases x with
      | nil => exact absurd h (Nat.not_succ_le_zero n)
      | cons b x => exact .cons (.inr rfl) (ih (Nat.le_of_succ_le_succ h))
  | succ pos ih =>
    cases x with
    | nil =>
      rw [List.length_nil] at h
      omega
    | cons b x =>
      rw [List.length_cons] at h
      have hrest := @ih x (by omega)
      rw [fill, List.take_succ_cons, Nat.add_right_comm, List.drop_succ_cons, List.cons_append]
      exact .cons (.inl rfl) hrest

/-! ### Weights -/

variable [DecidableEq α]

/-- One for each element, and one more when it is not `zero`. -/
def weight (zero : α) : List α → ℕ
  | [] => 0
  | b :: x => (if b = zero then 1 else 2) + weight zero x

theorem one_le_weight_cons (b : α) (x : List α) : 1 + weight zero x ≤ weight zero (b :: x) := by
  rw [weight]
  split_ifs <;> omega

/-- A simpler list is not heavier; it is the same one when it is not lighter. -/
theorem Simpler.eq_or_weight_lt (h : Simpler zero y x) : y = x ∨ weight zero y < weight zero x := by
  induction h with
  | @nil l =>
    cases l with
    | nil => exact .inl rfl
    | cons b l =>
      have := @one_le_weight_cons α zero _ b l
      exact .inr (by rw [weight]; omega)
  | @cons c b l₁ l₂ hc hl ih =>
    rw [weight, weight]
    by_cases hcb : c = b
    · subst hcb
      rcases ih with rfl | hlt
      · exact .inl rfl
      · exact .inr (by omega)
    · have hzero := hc.resolve_left hcb
      have hb : ¬ b = zero := fun hb => hcb (hzero.trans hb.symm)
      rw [if_pos hzero, if_neg hb]
      rcases ih with rfl | hlt
      · exact .inr (by omega)
      · exact .inr (by omega)
  | @cons_right b l₁ l₂ hl ih =>
    have := @one_le_weight_cons α zero _ b l₂
    rcases ih with rfl | hlt
    · exact .inr (by omega)
    · exact .inr (by omega)

/-- **Simplification makes progress.** -/
theorem Simpler.weight_lt (h : Simpler zero y x) (hne : y ≠ x) : weight zero y < weight zero x :=
  h.eq_or_weight_lt.resolve_left hne

theorem Simpler.weight_le (h : Simpler zero y x) : weight zero y ≤ weight zero x := by
  rcases h.eq_or_weight_lt with rfl | hlt
  · exact Nat.le_refl _
  · exact Nat.le_of_lt hlt

end SEDiff.Foundation
