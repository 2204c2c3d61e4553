import Mathlib.Data.Finset.Card
import Mathlib.Data.Finset.Range
import Mathlib.Data.Finset.Insert
import Mathlib.Algebra.BigOperators.Group.Finset.Basic
import Mathlib.Algebra.BigOperators.Group.Finset.Piecewise

/-!
# Arrays of slots

An array of `n` slots, each empty or holding an entry, and how often it holds each entry.

## What is proved

* `slots_update` — overwriting one slot moves one unit of the count from its old to its new
  entry.
* `countP_flip` — a flag that is set on one entry of a list adds one to the number of flagged entries.
-/

namespace SEDiff.Foundation

variable {ε : Type*} [DecidableEq ε]

/-- How many of the first `n` slots of `f` hold `e`. -/
def slots (n : ℕ) (f : ℕ → Option ε) (e : ε) : ℕ := ((Finset.range n).filter fun i => f i = some e).card

/-- `1` when the slot holds `e`. -/
def holds (v : Option ε) (e : ε) : ℕ := if v = some e then 1 else 0

@[simp] theorem holds_none (e : ε) : holds none e = 0 := by simp [holds]

@[simp] theorem holds_self (e : ε) : holds (some e) e = 1 := by simp [holds]

theorem holds_of_ne {e w : ε} (h : w ≠ e) : holds (some w) e = 0 := by simp [holds, h]

theorem slots_eq_sum (n : ℕ) (f : ℕ → Option ε) (e : ε) :
    slots n f e = ∑ i ∈ Finset.range n, holds (f i) e :=
  Finset.card_filter _ _

/-- Overwriting a slot takes a unit from the entry it held and gives one to the new entry. -/
theorem slots_update {n i : ℕ} (hi : i < n) (f : ℕ → Option ε) (v : Option ε) (e : ε) :
    slots n (Function.update f i v) e + holds (f i) e = slots n f e + holds v e := by
  have hm : i ∈ Finset.range n := Finset.mem_range.mpr hi
  rw [slots_eq_sum, slots_eq_sum, ← Finset.add_sum_erase _ _ hm, ← Finset.add_sum_erase _ _ hm,
    Function.update_self]
  have hrest : ∑ j ∈ (Finset.range n).erase i, holds (Function.update f i v j) e =
      ∑ j ∈ (Finset.range n).erase i, holds (f j) e :=
    Finset.sum_congr rfl fun j hj => by rw [Function.update_of_ne (Finset.ne_of_mem_erase hj)]
  rw [hrest]
  omega

/-- An entry is held when some slot holds it. -/
theorem slots_pos_iff {n : ℕ} {f : ℕ → Option ε} {e : ε} : 0 < slots n f e ↔ ∃ i < n, f i = some e := by
  rw [slots, Finset.card_pos]
  constructor
  · rintro ⟨i, hi⟩
    obtain ⟨h1, h2⟩ := Finset.mem_filter.mp hi
    exact ⟨i, Finset.mem_range.mp h1, h2⟩
  · rintro ⟨i, h1, h2⟩
    exact ⟨i, Finset.mem_filter.mpr ⟨Finset.mem_range.mpr h1, h2⟩⟩

theorem slots_le (n : ℕ) (f : ℕ → Option ε) (e : ε) : slots n f e ≤ n :=
  (Finset.card_filter_le _ _).trans_eq (Finset.card_range n)

/-- An empty array holds nothing. -/
theorem slots_none (n : ℕ) (e : ε) : slots n (fun _ => none) e = 0 := by simp [slots]

omit [DecidableEq ε] in
/-- Setting a flag of one entry adds one to the number of entries that have it. -/
theorem countP_flip {p p' : ε → Bool} {l : List ε} (hnd : l.Nodup) {e : ε} (he : e ∈ l) (hp : p e = false)
    (hp' : p' e = true) (hother : ∀ a, a ≠ e → p' a = p a) : l.countP p' = l.countP p + 1 := by
  induction l with
  | nil => cases he
  | cons a l ih =>
    obtain ⟨ha, hnd⟩ := List.nodup_cons.mp hnd
    by_cases hae : a = e
    · have hrest : l.countP p' = l.countP p := List.countP_congr fun b hb => by
        rw [hother b fun hbe => ha (hae ▸ hbe ▸ hb)]
      subst hae
      rw [List.countP_cons_of_pos hp', List.countP_cons_of_neg (by simp [hp]), hrest]
    · have hl : e ∈ l := (List.mem_cons.mp he).resolve_left fun h => hae h.symm
      rw [List.countP_cons, List.countP_cons, ih hnd hl, hother a hae, Nat.add_right_comm]

end SEDiff.Foundation
