import SEDiff.Juxta.Lock

/-!
# The stacks of the lock checker

Whether `explore_path` can raise, and what its two stacks have to do with each other.

## What is proved

* `Exploration.visit_ok_iff` — an effect raises when it is an unlock that takes all the locks held for failed trylocks.
* `explore_path_error` — nothing but an `IndexError` is raised: the assertion holds.
* `explore_path_safe_iff` — the checker is safe on the paths without such an unlock, and only on them.
-/

namespace SEDiff.Juxta

open Foundation

namespace Exploration

open LockState

variable {effects : List Effect} {x : Exploration}

/-- Some lock held is not taken for a failed trylock. -/
def Stops (s : LockState) (e : Effect) : Prop :=
  ∀ u, e = .call u → is_unlock u.val.func → s.is_locked → ∃ l ∈ s.locks, ¬ Skipped l u

theorem Stops.of_not_unlock {s : LockState} {e : Effect} (h : ∀ u, e = .call u → ¬ is_unlock u.val.func) :
    Stops s e := fun u he hu => absurd hu (h u he)

/-- **When an effect raises.** -/
theorem visit_ok_iff (hx : x.state.Aligned) (e : Effect) :
    (∃ x', visit effects x e = .ok x') ↔ Stops x.state e := by
  obtain he | ⟨c, rfl, hc⟩ | ⟨u, rfl, hu⟩ := kinds e
  · refine iff_of_true ⟨_, visit_plain he⟩ (.of_not_unlock ?_)
    rintro u rfl
    exact he.2
  · refine iff_of_true ⟨_, visit_lock hc⟩ (.of_not_unlock fun u hu => ?_)
    cases hu
    exact not_is_unlock_of_is_lock hc
  · by_cases hlocked : x.state.is_locked
    · obtain ⟨hall, hraise⟩ | ⟨tries, lock, rest, above, below, hsplit, -, hstop, -, -, hvisit⟩ :=
        visit_unlock effects hx hu hlocked
      · refine iff_of_false ?_ fun hstops => ?_
        · rintro ⟨x', hx'⟩
          rw [hraise] at hx'
          cases hx'
        · obtain ⟨l, hl, hnot⟩ := hstops u rfl hu hlocked
          exact hnot (hall l hl)
      · refine iff_of_true ⟨_, hvisit⟩ fun u' hu' _ _ => ⟨lock, ?_, ?_⟩
        · rw [hsplit]
          exact List.mem_append_right tries List.mem_cons_self
        · cases hu'
          exact hstop
    · refine iff_of_true ⟨_, visit_uncoordinated hu hlocked⟩ fun u' _ _ h => absurd h hlocked

/-- The assertion of `unlock` holds. -/
theorem visit_error (hx : x.state.Aligned) {e : Effect} {error : PyErr} (h : visit effects x e = .error error) :
    error = .indexError := by
  obtain he | ⟨c, rfl, hc⟩ | ⟨u, rfl, hu⟩ := kinds e
  · rw [visit_plain he] at h
    cases h
  · rw [visit_lock hc] at h
    cases h
  · by_cases hlocked : x.state.is_locked
    · obtain ⟨-, hraise⟩ | ⟨tries, lock, rest, above, below, -, -, -, -, -, hvisit⟩ :=
        visit_unlock effects hx hu hlocked
      · rw [hraise] at h
        cases h
        rfl
      · rw [hvisit] at h
        cases h
    · rw [visit_uncoordinated hu hlocked] at h
      cases h

/-- Every effect that the loop reaches passes. -/
def AlwaysStops (effects : List Effect) : Prop :=
  ∀ pre e x, pre ++ [e] <+: effects → Reaches effects pre x → Stops x.state e

/-- The loop gets to the end of the path when every effect passes. -/
theorem exists_reaches (h : AlwaysStops effects) {pre : List Effect} (hpre : pre <+: effects) :
    ∃ x, Reaches effects pre x := by
  induction pre using List.reverseRecOn with
  | nil => exact ⟨init, hpre, rfl⟩
  | append_singleton pre e ih =>
    obtain ⟨x, hx⟩ := ih ((List.prefix_append pre [e]).trans hpre)
    obtain ⟨x', hvisit⟩ := (visit_ok_iff hx.aligned e).mpr (h pre e x hpre hx)
    exact ⟨x', hpre, run_concat.mpr ⟨x, hx.run, hvisit⟩⟩

end Exploration

open Exploration

/-- What is asked of the checker: it does not raise, and after every effect the locks held are a subsequence of the
entries, and there are no entries exactly when no lock is held. -/
def Safe (effects : List Effect) : Prop :=
  (∃ x, explore_path effects = .ok x) ∧
    ∀ pre x, Reaches effects pre x → (x.state.locks.map Effect.call).Sublist x.state.entries ∧
      (x.state.entries = [] ↔ x.state.locks = [])

/-- The assertion of `unlock` holds, and what is raised is that a stack is empty. -/
theorem explore_path_error {effects : List Effect} {error : PyErr} (h : explore_path effects = .error error) :
    error = .indexError := by
  rw [explore_path] at h
  cases hrun : effects.foldlM (visit effects) Exploration.init with
  | error e =>
    rw [hrun] at h
    cases h
    obtain ⟨pre, e, post, x, -, hpre, hvisit⟩ := run_error hrun
    exact visit_error (run_aligned hpre) hvisit
  | ok x =>
    rw [hrun] at h
    cases h

/-- **The checker is safe** on exactly the paths where no unlock takes all the locks held for failed trylocks. -/
theorem explore_path_safe_iff (effects : List Effect) : Safe effects ↔ AlwaysStops effects := by
  constructor
  · rintro ⟨⟨x', hx'⟩, -⟩ pre e x hpre hx
    obtain ⟨xEnd, hEnd, -⟩ := explore_path_eq_ok.mp hx'
    obtain ⟨post, rfl⟩ := hpre
    obtain ⟨x₂, hrun₂, -⟩ := run_append.mp hEnd.run
    obtain ⟨x₁, hrun₁, hvisit⟩ := run_concat.mp hrun₂
    obtain rfl : x₁ = x := Except.ok.inj (hrun₁.symm.trans hx.run)
    exact (visit_ok_iff hx.aligned e).mp ⟨x₂, hvisit⟩
  · intro h
    obtain ⟨x, hx⟩ := exists_reaches h (List.prefix_refl effects)
    refine ⟨⟨_, explore_path_eq_ok.mpr ⟨x, hx, rfl⟩⟩, fun pre x' hreach => ?_⟩
    exact ⟨hreach.aligned.sublist, hreach.aligned.entries_eq_nil⟩

/-- A mismatched unlock after a trylock. -/
theorem not_explore_path_safe : ¬ ∀ effects : List Effect, effects.Nodup → Safe effects := by
  intro hall
  have herr : explore_path [.callOf 0 "mutex_trylock" "a", .callOf 1 "spin_unlock" "b"] = .error .indexError := by
    decide
  obtain ⟨⟨x, hx⟩, -⟩ := hall [.callOf 0 "mutex_trylock" "a", .callOf 1 "spin_unlock" "b"] (by decide)
  rw [herr] at hx
  cases hx

end SEDiff.Juxta
