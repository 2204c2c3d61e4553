import SEDiff.Foundation.Nesting
import SEDiff.Juxta.Lock

/-!
# What the lock checker reports

On paths without trylocks and without `"0"` arguments the checker is a reader of nested pairs: each lock opens,
and each unlock closes the lock that was taken last.

## What is proved

* `Exploration.visit_nested`, `Exploration.run_nested` — the checker has no error as long as the calls nest, and holds
  the locks that are open.
* `explore_path_reports_iff` — the errors tell whether the calls are well nested, except where one lock is held at
  the end.
-/

namespace SEDiff.Juxta

open Foundation

/-- The call of a lock or unlock function that an effect is. -/
def Effect.locking? : Effect → Option Call
  | .call c => if is_lock c.val.func ∨ is_unlock c.val.func then some c else none
  | .other _ => none

/-- The calls of lock and unlock functions. -/
def calls (effects : List Effect) : List Call := effects.filterMap Effect.locking?

/-- A call of a lock function. -/
def Opens (l : Call) : Prop := is_lock l.val.func

/-- The same function with the same arguments. -/
def Clash (held l : Call) : Prop := l.val.func = held.val.func ∧ l.val.args = held.val.args

/-- The unlock function of a lock, with the same arguments. -/
def Closes (l u : Call) : Prop := LOCKS.get? l.val.func = some u.val.func ∧ u.val.args = l.val.args

instance (l : Call) : Decidable (Opens l) := inferInstanceAs (Decidable (is_lock _))

instance (held l : Call) : Decidable (Clash held l) := inferInstanceAs (Decidable (_ ∧ _))

instance (l u : Call) : Decidable (Closes l u) := inferInstanceAs (Decidable (_ ∧ _))

/-- Well nested: a balanced sequence. -/
def WellNested (cs : List Call) : Prop := Balanced Opens Clash Closes [] cs

/-- With the locks `held` before the calls, `held'` are held after them. -/
abbrev Nests (held cs held' : List Call) : Prop := Nested Opens Clash Closes held cs held'

/-- No trylock, and no argument `"0"`. -/
def Regular (c : Call) : Prop := (is_lock c.val.func → ¬ is_try c.val.func) ∧ "0".toList ∉ c.val.args

instance (c : Call) : Decidable (Regular c) := inferInstanceAs (Decidable (_ ∧ _))

theorem cmp_args_iff {args args' : List Str} (h : "0".toList ∉ args) (h' : "0".toList ∉ args') :
    _cmp_args args args' ↔ args = args' := by
  rw [_cmp_args]
  induction args generalizing args' with
  | nil => cases args' <;> simp
  | cons a args ih =>
    cases args' with
    | nil => simp
    | cons b args' =>
      rw [List.mem_cons, not_or] at h h'
      rw [List.forall₂_cons, ih h.2 h'.2, or_iff_right (Ne.symm h.1), or_iff_right (Ne.symm h'.1), List.cons.injEq]

theorem paired_iff {l u : Call} (hl : Regular l) (hu : Regular u) : paired l.val u.val ↔ Closes l u :=
  and_congr_right fun _ => cmp_args_iff hu.2 hl.2

namespace Exploration

open LockState

variable {effects : List Effect} {x : Exploration}

theorem locking?_plain {e : Effect} (he : Plain e) : e.locking? = none := by
  cases e with
  | other o => rfl
  | call c => exact if_neg (not_or.mpr he)

/-- The two kinds of effects. -/
theorem kinds_locking (e : Effect) : Plain e ∨ ∃ c, e = .call c ∧ (is_lock c.val.func ∨ is_unlock c.val.func) := by
  obtain he | ⟨c, rfl, hc⟩ | ⟨u, rfl, hu⟩ := kinds e
  · exact .inl he
  · exact .inr ⟨c, rfl, .inl hc⟩
  · exact .inr ⟨u, rfl, .inr hu⟩

/-- After these calls: the locks held, and whether there is an error. -/
structure Follows (s : LockState) (cs : List Call) (s' : LockState) : Prop where
  /-- No error is the same as nesting. -/
  errs : s'.errs = [] ↔ s.errs = [] ∧ Nests s.locks cs s'.locks
  /-- Nested calls leave the locks held. -/
  locks : ∀ held, Nests s.locks cs held → held = s'.locks

/-- Nothing happens. -/
theorem Follows.refl {s s' : LockState} (herrs : s'.errs = s.errs) (hlocks : s'.locks = s.locks) : Follows s [] s' where
  errs := by
    rw [herrs, hlocks]
    exact (and_iff_left .nil).symm
  locks held hheld := (nested_nil_iff.mp hheld).trans hlocks.symm

/-- One part after another. -/
theorem Follows.append {s s₁ s₂ : LockState} {cs cs' : List Call} (h : Follows s cs s₁)
    (h' : Follows s₁ cs' s₂) : Follows s (cs ++ cs') s₂ where
  errs := by
    rw [h'.errs, h.errs, and_assoc]
    refine and_congr_right fun _ => ⟨fun hn => nested_append_iff.mpr ⟨_, hn⟩, fun hn => ?_⟩
    obtain ⟨mid, hmid, hrest⟩ := nested_append_iff.mp hn
    obtain rfl := h.locks mid hmid
    exact ⟨hmid, hrest⟩
  locks held hheld := by
    obtain ⟨mid, hmid, hrest⟩ := nested_append_iff.mp hheld
    obtain rfl := h.locks mid hmid
    exact h'.locks held hrest

theorem nests_lock_iff {held held' : List Call} {c : Call} (hc : is_lock c.val.func) :
    Nests held [c] held' ↔ (∀ h ∈ held, ¬ Clash h c) ∧ held' = c :: held := by
  constructor
  · intro h
    cases h with
    | opening hl hclash h =>
      cases h
      exact ⟨hclash, rfl⟩
    | closing hu hcl h => exact absurd hc hu
  · rintro ⟨hclash, rfl⟩
    exact .opening hc hclash .nil

theorem nests_unlock_iff {held held' : List Call} {u : Call} (hu : ¬ is_lock u.val.func) :
    Nests held [u] held' ↔ ∃ l, held = l :: held' ∧ Closes l u := by
  constructor
  · intro h
    cases h with
    | opening hl hclash h => exact absurd hl hu
    | closing hu hcl h =>
      cases h
      exact ⟨_, rfl, hcl⟩
  · rintro ⟨l, rfl, hcl⟩
    exact .closing hu hcl .nil

/-- **One call** of a path without trylocks. -/
theorem visit_nested (hx : x.state.Aligned) (hheld : ∀ l ∈ x.state.locks, Regular l) {c : Call} (hc : Regular c)
    (hkind : is_lock c.val.func ∨ is_unlock c.val.func) :
    ∃ x', visit effects x (.call c) = .ok x' ∧ Follows x.state [c] x'.state := by
  obtain hlock | hunlock := hkind
  · refine ⟨_, visit_lock hlock, ?_, fun held hn => ((nests_lock_iff hlock).mp hn).2⟩
    rw [nests_lock_iff hlock]
    show (x.state.taken c).errs = [] ↔ _ ∧ (∀ h ∈ x.state.locks, ¬ Clash h c) ∧ c :: x.state.locks = c :: x.state.locks
    rw [and_iff_left rfl]
    by_cases hdouble : x.state._check_double_locks c
    · rw [taken, if_pos hdouble]
      refine iff_of_false (err_errs_ne_nil _ _ _ _) fun h => ?_
      obtain ⟨l, hl, hsame⟩ := hdouble
      exact h.2 l hl hsame
    · rw [taken, if_neg hdouble]
      exact (and_iff_left fun l hl hsame => hdouble ⟨l, hl, hsame⟩).symm
  · have hnot : ¬ is_lock c.val.func := fun h => not_is_unlock_of_is_lock h hunlock
    by_cases hlocked : x.state.is_locked
    · obtain ⟨hall, -⟩ | ⟨tries, lock, rest, above, below, hsplit, htries, -, -, -, hvisit⟩ :=
        visit_unlock effects hx hunlock hlocked
      · -- not all locks held are trylocks: none is
        obtain ⟨l, hl⟩ := List.exists_mem_of_ne_nil _ hlocked
        exact absurd (hall l hl).2 ((hheld l hl).1 (hx.is_lock hl))
      · obtain rfl : tries = [] := by
          cases tries with
          | nil => rfl
          | cons l tries =>
            have hl : l ∈ x.state.locks := hsplit ▸ List.mem_cons_self
            exact absurd (htries l List.mem_cons_self).2 ((hheld l hl).1 (hx.is_lock hl))
        rw [List.nil_append] at hsplit
        have hlock : Regular lock := hheld lock (hsplit ▸ List.mem_cons_self)
        refine ⟨_, hvisit, ?_, fun held hn => ?_⟩
        · rw [nests_unlock_iff hnot, hsplit]
          show (x.state.verdict lock c).errs = [] ↔ _ ∧ ∃ l, lock :: rest = l :: rest ∧ Closes l c
          have hiff : (∃ l, lock :: rest = l :: rest ∧ Closes l c) ↔ paired lock.val c.val := by
            rw [paired_iff hlock hc]
            constructor
            · rintro ⟨l, heq, hcl⟩
              cases heq
              exact hcl
            · exact fun hcl => ⟨lock, rfl, hcl⟩
          rw [hiff, verdict]
          split_ifs with hpaired
          · exact (and_iff_left hpaired).symm
          · exact iff_of_false (err_errs_ne_nil _ _ _ _) fun h => hpaired h.2
        · obtain ⟨l, heq, -⟩ := (nests_unlock_iff hnot).mp hn
          exact (List.cons.inj (hsplit.symm.trans heq)).2.symm
    · have hnil : x.state.locks = [] := not_ne_iff.mp hlocked
      refine ⟨_, visit_uncoordinated hunlock hlocked, ?_, fun held hn => ?_⟩
      · refine iff_of_false (err_errs_ne_nil _ _ _ _) fun h => ?_
        obtain ⟨l, heq, -⟩ := (nests_unlock_iff hnot).mp h.2
        rw [hnil] at heq
        cases heq
      · obtain ⟨l, heq, -⟩ := (nests_unlock_iff hnot).mp hn
        rw [hnil] at heq
        cases heq

/-- The locks held after an effect were held before it, or are the effect. -/
theorem visit_locks (hx : x.state.Aligned) {e : Effect} {x' : Exploration} (hvisit : visit effects x e = .ok x')
    {l : Call} (hl : l ∈ x'.state.locks) : l ∈ x.state.locks ∨ e = .call l ∧ is_lock l.val.func := by
  obtain he | ⟨c, rfl, hc⟩ | ⟨u, rfl, hu⟩ := kinds e
  · rw [visit_plain he] at hvisit
    cases hvisit
    refine .inl ?_
    dsimp only at hl
    split_ifs at hl <;> exact hl
  · rw [visit_lock hc] at hvisit
    cases hvisit
    obtain rfl | hl := List.mem_cons.mp hl
    · exact .inr ⟨rfl, hc⟩
    · exact .inl hl
  · by_cases hlocked : x.state.is_locked
    · obtain ⟨-, hraise⟩ | ⟨tries, lock, rest, above, below, hsplit, -, -, -, -, hun⟩ :=
        visit_unlock effects hx hu hlocked
      · rw [hraise] at hvisit
        cases hvisit
      · rw [hun] at hvisit
        cases hvisit
        exact .inl (hsplit ▸ List.mem_append_right tries (List.mem_cons_of_mem lock hl))
    · rw [visit_uncoordinated hu hlocked] at hvisit
      cases hvisit
      exact .inl (by simpa using hl)

/-- **A run** over effects without trylocks. -/
theorem run_nested {es : List Effect} (hes : ∀ c ∈ calls es, Regular c) (hx : x.state.Aligned)
    (hheld : ∀ l ∈ x.state.locks, Regular l) :
    ∃ x', es.foldlM (visit effects) x = .ok x' ∧ (∀ l ∈ x'.state.locks, Regular l) ∧
      Follows x.state (calls es) x'.state := by
  induction es generalizing x with
  | nil => exact ⟨x, rfl, hheld, .refl rfl rfl⟩
  | cons e es ih =>
    have hcalls : calls (e :: es) = calls [e] ++ calls es := List.filterMap_append (l := [e])
    rw [hcalls] at hes
    obtain ⟨x₁, hvisit, hfollows⟩ : ∃ x₁, visit effects x e = .ok x₁ ∧ Follows x.state (calls [e]) x₁.state := by
      obtain he | ⟨c, rfl, hc⟩ := kinds_locking e
      · refine ⟨_, visit_plain he, ?_⟩
        rw [calls, List.filterMap_cons_none (locking?_plain he)]
        apply Follows.refl
        · dsimp only
          split_ifs <;> rfl
        · dsimp only
          split_ifs <;> rfl
      · have hcall : calls [.call c] = [c] := List.filterMap_cons_some (if_pos hc)
        rw [hcall] at hes ⊢
        exact visit_nested hx hheld (hes c List.mem_cons_self) hc
    have hheld₁ : ∀ l ∈ x₁.state.locks, Regular l := by
      intro l hl
      obtain hl | ⟨rfl, hlock⟩ := visit_locks hx hvisit hl
      · exact hheld l hl
      · exact hes l (List.mem_append_left _ (List.mem_filterMap.mpr ⟨_, List.mem_cons_self, if_pos (.inl hlock)⟩))
    obtain ⟨x', hrun, hheld', hfollows'⟩ :=
      ih (fun c hc => hes c (List.mem_append_right _ hc)) (visit_aligned hx hvisit) hheld₁
    refine ⟨x', ?_, hheld', ?_⟩
    · rw [List.foldlM_cons, hvisit]
      exact hrun
    · rw [hcalls]
      exact hfollows.append hfollows'

/-- The errors after the loop. -/
theorem not_resolved_errs {s : LockState} (hlocks : ∀ l ∈ s.locks, ¬ is_try l.val.func) :
    (not_resolved s).errs = [] ↔ s.errs = [] ∧ s.locks.length ≤ 1 := by
  rw [not_resolved]
  split_ifs with hlen
  · refine iff_of_false ?_ fun h => absurd h.2 (not_le.mpr hlen)
    -- the last lock of the loop leaves an error
    obtain ⟨l, rest, hsplit⟩ := List.exists_cons_of_length_pos (Nat.zero_lt_of_lt hlen)
    have hl : ¬ is_try l.val.func := hlocks l (hsplit ▸ List.mem_cons_self)
    rw [hsplit, List.reverse_cons, List.foldl_append, List.foldl_cons, List.foldl_nil, if_neg hl]
    exact err_errs_ne_nil _ _ _ _
  · exact (and_iff_left (not_lt.mp hlen)).symm

end Exploration

open Exploration

/-- **The errors of the checker** tell whether the calls of a path are well nested, unless they nest up to one lock
that is held at the end. -/
theorem explore_path_reports_iff {effects : List Effect} (hregular : ∀ c ∈ calls effects, Regular c) :
    ∃ x, explore_path effects = .ok x ∧
      ((x.state.errs = [] ↔ WellNested (calls effects)) ↔ ¬ ∃ l, Nests [] (calls effects) [l]) := by
  obtain ⟨x, hrun, hheld, hfollows⟩ := @run_nested effects init effects hregular LockState.Aligned.init
    nofun
  refine ⟨_, explore_path_eq_ok.mpr ⟨x, ⟨List.prefix_refl effects, hrun⟩, rfl⟩, ?_⟩
  have htry : ∀ l ∈ x.state.locks, ¬ is_try l.val.func := fun l hl =>
    (hheld l hl).1 ((run_aligned hrun).is_lock hl)
  have herrs : (not_resolved x.state).errs = [] ↔ Nests [] (calls effects) x.state.locks ∧ x.state.locks.length ≤ 1 := by
    have hinit : init.state.errs = [] := rfl
    rw [not_resolved_errs htry, hfollows.errs, and_iff_right hinit]
    rfl
  have hnested : WellNested (calls effects) ↔ Nests [] (calls effects) [] := nested_iff_balanced.symm
  show ((not_resolved x.state).errs = [] ↔ _) ↔ _
  rw [herrs, hnested]
  constructor
  · rintro hiff ⟨l, hl⟩
    have hlocks := hfollows.locks [l] hl
    have hnil := hfollows.locks [] (hiff.mp ⟨hlocks ▸ hl, by rw [← hlocks]; exact le_rfl⟩)
    rw [← hlocks] at hnil
    cases hnil
  · intro hone
    constructor
    · rintro ⟨hn, hlen⟩
      cases hlocks : x.state.locks with
      | nil => rwa [hlocks] at hn
      | cons l rest =>
        rw [hlocks] at hn hlen
        cases rest with
        | nil => exact absurd ⟨l, hn⟩ hone
        | cons l' rest => simp at hlen
    · intro hn
      have hnil := hfollows.locks [] hn
      rw [← hnil]
      exact ⟨hn, Nat.zero_le 1⟩

/-- A lock, a call under it, and its unlock. -/
theorem explore_path_reports_spin_lock :
    ∃ x, explore_path [.callOf 0 "spin_lock" "a", .callOf 1 "f" "b", .callOf 2 "spin_unlock" "a"] = .ok x ∧
      (x.state.errs = [] ↔
        WellNested (calls [.callOf 0 "spin_lock" "a", .callOf 1 "f" "b", .callOf 2 "spin_unlock" "a"])) := by
  obtain ⟨x, hx, hiff⟩ := @explore_path_reports_iff
    [.callOf 0 "spin_lock" "a", .callOf 1 "f" "b", .callOf 2 "spin_unlock" "a"] (by decide)
  refine ⟨x, hx, hiff.mpr ?_⟩
  rintro ⟨l, hl⟩
  have hnone : Nests [] (calls [.callOf 0 "spin_lock" "a", .callOf 1 "f" "b", .callOf 2 "spin_unlock" "a"]) [] := by
    apply Nested.opening (by decide) nofun
    exact .closing (by decide) (by decide) .nil
  have := hl.held_unique hnone
  cases this

/-- One lock that is held at the end is not reported. -/
theorem not_explore_path_reports : ¬ ∀ effects : List Effect, (∀ c ∈ calls effects, Regular c) →
    ∃ x, explore_path effects = .ok x ∧ (x.state.errs = [] ↔ WellNested (calls effects)) := by
  intro hall
  obtain ⟨x, hx, hiff⟩ := hall [.callOf 0 "spin_lock" "a"] (by decide)
  have herrs : (explore_path [.callOf 0 "spin_lock" "a"]).map (·.state.errs) = .ok [] := by decide
  rw [hx] at herrs
  have hnone : Nests [] (calls [.callOf 0 "spin_lock" "a"]) [] :=
    nested_iff_balanced.mpr (hiff.mp (Except.ok.inj herrs))
  have hone : Nests [] (calls [.callOf 0 "spin_lock" "a"]) [⟨0, "spin_lock".toList, ["a".toList], []⟩] :=
    .opening (by decide) nofun .nil
  have := hnone.held_unique hone
  cases this

end SEDiff.Juxta
