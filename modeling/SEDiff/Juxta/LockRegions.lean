import SEDiff.Juxta.Lock

/-!
# What the locks protect

The triples that `explore_path` passes to `collect`: a lock, the effects under it, and the unlock.

## What is proved

* `_grep_append` — `_grep` finds what is strictly between two effects of a path.
* `Exploration.reaches_kept` — every collected triple is a region of the path, and no lock is collected twice.
* `collected_sound_iff` — all triples are matching pairs exactly on the paths where no unlock gets to a lock that it
  is not paired with and that is not a trylock.
-/

namespace SEDiff.Juxta

open Foundation

/-! ### The search for a region -/

theorem grep_loop_before {beg fin : Effect} {before : List Effect} (hbeg : beg ∉ before) (hfin : fin ∉ before)
    (stack : List Effect) : grep_loop beg fin (before ++ stack) false = grep_loop beg fin stack false := by
  induction before with
  | nil => rfl
  | cons e before ih =>
    rw [List.mem_cons, not_or] at hbeg hfin
    rw [List.cons_append, grep_loop, if_neg (Ne.symm hbeg.1), if_neg (Ne.symm hfin.1), if_neg Bool.false_ne_true,
      ih hbeg.2 hfin.2]

theorem grep_loop_inside {beg fin : Effect} {region : List Effect} (hbeg : beg ∉ region) (hfin : fin ∉ region)
    (stack : List Effect) : grep_loop beg fin (region ++ stack) true = region ++ grep_loop beg fin stack true := by
  induction region with
  | nil => rfl
  | cons e region ih =>
    rw [List.mem_cons, not_or] at hbeg hfin
    rw [List.cons_append, grep_loop, if_neg (Ne.symm hbeg.1), if_neg (Ne.symm hfin.1), if_pos rfl,
      ih hbeg.2 hfin.2, List.cons_append]

/-- **`_grep`** finds what is strictly between. -/
theorem _grep_append {beg fin : Effect} {before region after : List Effect}
    (h : (before ++ beg :: (region ++ fin :: after)).Nodup) :
    _grep beg (before ++ beg :: (region ++ fin :: after)) fin = region := by
  obtain ⟨-, hrest, hdisjoint⟩ := List.nodup_append'.mp h
  obtain ⟨hbeg, hrest⟩ := List.nodup_cons.mp hrest
  obtain ⟨-, -, hfin⟩ := List.nodup_append'.mp hrest
  have hne : fin ≠ beg := fun heq => hbeg (heq ▸ List.mem_append_right region List.mem_cons_self)
  have hbefore : fin ∉ before := fun hm => hdisjoint hm (by simp)
  rw [_grep, grep_loop_before (fun hm => hdisjoint hm List.mem_cons_self) hbefore, grep_loop, if_pos rfl,
    grep_loop_inside (fun hm => hbeg (List.mem_append_left _ hm)) (fun hm => hfin hm List.mem_cons_self), grep_loop,
    if_neg hne, if_pos rfl, List.append_nil]

/-! ### Regions -/

/-- The triple is a region of the path: the effects strictly between a lock and a later unlock. -/
def Collected.Region (effects : List Effect) (t : Collected) : Prop :=
  ∃ before after, effects = before ++ .call t.lock :: (t.reclaimed ++ .call t.unlock :: after)

namespace Exploration

open LockState

variable {effects pre : List Effect} {x : Exploration}

/-- What the loop keeps: the locks held were taken in this order and are not collected yet, and what is collected is
regions of different locks. -/
structure Kept (effects pre : List Effect) (x : Exploration) : Prop where
  /-- The stacks agree. -/
  aligned : x.state.Aligned
  /-- The locks held. -/
  locks : (x.state.locks.map Effect.call).Sublist pre.reverse
  /-- The locks collected. -/
  spent : ∀ t ∈ x.collected, t.lock ∉ x.state.locks ∧ .call t.lock ∈ pre
  /-- The regions. -/
  regions : ∀ t ∈ x.collected, t.Region effects
  /-- No lock is collected twice. -/
  distinct : x.collected.Pairwise fun t t' => t.lock ≠ t'.lock

theorem Kept.lock_mem (h : Kept effects pre x) {l : Call} (hl : l ∈ x.state.locks) : .call l ∈ pre :=
  List.mem_reverse.mp (h.locks.subset (List.mem_map_of_mem hl))

/-- An effect that leaves the locks held and what is collected. -/
theorem Kept.quiet (h : Kept effects pre x) (e : Effect) {s : LockState} (hs : s.Aligned)
    (hlocks : s.locks = x.state.locks) : Kept effects (pre ++ [e]) { x with state := s } where
  aligned := hs
  locks := by
    rw [List.reverse_append, hlocks]
    exact h.locks.cons e
  spent t ht := by
    obtain ⟨hnot, hmem⟩ := h.spent t ht
    exact ⟨fun hl => hnot (hlocks ▸ hl), List.mem_append_left _ hmem⟩
  regions := h.regions
  distinct := h.distinct

/-- A region ends at the unlock that is visited. -/
theorem region_of_mem {u lock : Call} {post : List Effect} (hnodup : (pre ++ .call u :: post).Nodup)
    (hlock : .call lock ∈ pre) :
    Collected.Region (pre ++ .call u :: post)
      ⟨lock, _grep (.call lock) (pre ++ .call u :: post) (.call u), u⟩ := by
  obtain ⟨before, region, rfl⟩ := List.append_of_mem hlock
  rw [List.append_assoc, List.cons_append] at hnodup ⊢
  refine ⟨before, post, ?_⟩
  show _ = before ++ .call lock :: (_grep _ _ _ ++ _)
  rw [_grep_append hnodup]

/-- **One effect keeps it.** -/
theorem visit_kept {e : Effect} {post : List Effect} (heffects : effects = pre ++ e :: post)
    (hnodup : effects.Nodup) (h : Kept effects pre x) {x' : Exploration} (hvisit : visit effects x e = .ok x') :
    Kept effects (pre ++ [e]) x' := by
  have haligned' := visit_aligned h.aligned hvisit
  obtain he | ⟨c, rfl, hc⟩ | ⟨u, rfl, hu⟩ := kinds e
  · rw [visit_plain he] at hvisit
    cases hvisit
    refine h.quiet e haligned' ?_
    split_ifs <;> rfl
  · rw [visit_lock hc] at hvisit
    cases hvisit
    have hnew : .call c ∉ pre := fun hm => by
      rw [heffects] at hnodup
      exact (List.nodup_append'.mp hnodup).2.2 hm List.mem_cons_self
    refine ⟨haligned', ?_, fun t ht => ?_, h.regions, h.distinct⟩
    · rw [List.reverse_append]
      exact h.locks.cons_cons (.call c)
    · obtain ⟨hnot, hmem⟩ := h.spent t ht
      refine ⟨fun hl => ?_, List.mem_append_left _ hmem⟩
      obtain heq | hl := List.mem_cons.mp hl
      · exact hnew (heq ▸ hmem)
      · exact hnot hl
  · by_cases hlocked : x.state.is_locked
    · obtain ⟨-, hraise⟩ | ⟨tries, lock, rest, above, below, hsplit, -, -, -, -, hun⟩ :=
        visit_unlock effects h.aligned hu hlocked
      · rw [hraise] at hvisit
        cases hvisit
      · rw [hun] at hvisit
        cases hvisit
        have hrest : (lock :: rest).Sublist x.state.locks := hsplit ▸ List.sublist_append_right tries _
        have hlock : lock ∈ x.state.locks := hrest.subset List.mem_cons_self
        have hlocks : ((lock :: rest).map Effect.call).Nodup := by
          rw [heffects] at hnodup
          have hpre := List.nodup_reverse.mpr (List.nodup_append'.mp hnodup).1
          exact hpre.sublist ((hrest.map _).trans h.locks)
        have hnot : lock ∉ rest := (List.nodup_cons.mp hlocks.of_map).1
        refine ⟨haligned', ?_, fun t ht => ?_, fun t ht => ?_, ?_⟩
        · rw [List.reverse_append]
          have htail : rest.Sublist x.state.locks := (List.sublist_cons_self lock rest).trans hrest
          exact ((htail.map _).trans h.locks).cons (.call u)
        · obtain ht | ht := List.mem_append.mp ht
          · obtain ⟨hheld, hmem⟩ := h.spent t ht
            exact ⟨fun hl => hheld (hrest.subset (List.mem_cons_of_mem lock hl)), List.mem_append_left _ hmem⟩
          · obtain rfl := List.mem_singleton.mp ht
            exact ⟨hnot, List.mem_append_left _ (h.lock_mem hlock)⟩
        · obtain ht | ht := List.mem_append.mp ht
          · exact h.regions t ht
          · obtain rfl := List.mem_singleton.mp ht
            subst heffects
            exact region_of_mem hnodup (h.lock_mem hlock)
        · refine List.pairwise_append.mpr ⟨h.distinct, List.pairwise_singleton _ _, fun t ht t' ht' heq => ?_⟩
          obtain rfl := List.mem_singleton.mp ht'
          exact (h.spent t ht).1 (heq ▸ hlock)
    · rw [visit_uncoordinated hu hlocked] at hvisit
      cases hvisit
      exact h.quiet _ haligned' (err_locks _ _ _ _)

/-- It holds wherever the loop gets. -/
theorem reaches_kept (hnodup : effects.Nodup) (h : Reaches effects pre x) : Kept effects pre x := by
  obtain ⟨post, hpost⟩ := h.isPrefix
  have hinit : Kept effects [] init := ⟨Aligned.init, List.Sublist.slnil, nofun, nofun, List.Pairwise.nil⟩
  refine run_inv (I := Kept effects) hinit (fun pre' e post' x₁ x₂ hsplit _ hk hvisit => ?_) h.run
  have hcut : effects = pre' ++ e :: (post' ++ post) := by
    rw [← hpost, hsplit]
    simp
  exact visit_kept hcut hnodup hk hvisit

/-! ### Matching pairs -/

/-- The first lock that is not skipped. -/
theorem first_unique {u lock lock' : Call} {tries rest tries' rest' : List Call}
    (h : tries ++ lock :: rest = tries' ++ lock' :: rest') (htries : ∀ l ∈ tries, Skipped l u)
    (hlock : ¬ Skipped lock u) (htries' : ∀ l ∈ tries', Skipped l u) (hlock' : ¬ Skipped lock' u) : lock = lock' := by
  have hfind : (tries ++ lock :: rest).find? (fun l => ¬ Skipped l u) = some lock :=
    List.find?_eq_some_iff_append.mpr ⟨by simpa using hlock, tries, rest, rfl, by simpa using htries⟩
  have hfind' : (tries' ++ lock' :: rest').find? (fun l => ¬ Skipped l u) = some lock' :=
    List.find?_eq_some_iff_append.mpr ⟨by simpa using hlock', tries', rest', rfl, by simpa using htries'⟩
  rw [h, hfind'] at hfind
  exact (Option.some.inj hfind).symm

/-- Past failed trylocks, a lock that is not a trylock is paired with the unlock. -/
def Pairs (s : LockState) (e : Effect) : Prop :=
  ∀ u, e = .call u → is_unlock u.val.func → ∀ tries lock rest, s.locks = tries ++ lock :: rest →
    (∀ l ∈ tries, Skipped l u) → ¬ is_try lock.val.func → paired lock.val u.val

/-- Every unlock that the loop reaches. -/
def AlwaysPairs (effects : List Effect) : Prop :=
  ∀ pre e x, pre ++ [e] <+: effects → Reaches effects pre x → Pairs x.state e

/-- What an effect adds is a matching pair. -/
theorem visit_pairs {e : Effect} (haligned : x.state.Aligned) (hpairs : Pairs x.state e)
    (h : ∀ t ∈ x.collected, paired t.lock.val t.unlock.val) {x' : Exploration}
    (hvisit : visit effects x e = .ok x') : ∀ t ∈ x'.collected, paired t.lock.val t.unlock.val := by
  obtain he | ⟨c, rfl, hc⟩ | ⟨u, rfl, hu⟩ := kinds e
  · rw [visit_plain he] at hvisit
    cases hvisit
    exact h
  · rw [visit_lock hc] at hvisit
    cases hvisit
    exact h
  · by_cases hlocked : x.state.is_locked
    · obtain ⟨-, hraise⟩ | ⟨tries, lock, rest, above, below, hsplit, htries, hstop, -, -, hun⟩ :=
        visit_unlock effects haligned hu hlocked
      · rw [hraise] at hvisit
        cases hvisit
      · rw [hun] at hvisit
        cases hvisit
        intro t ht
        obtain ht | ht := List.mem_append.mp ht
        · exact h t ht
        · obtain rfl := List.mem_singleton.mp ht
          by_cases htry : is_try lock.val.func
          · by_contra hnot
            exact hstop ⟨hnot, htry⟩
          · exact hpairs u rfl hu tries lock rest hsplit htries htry
    · rw [visit_uncoordinated hu hlocked] at hvisit
      cases hvisit
      exact h

/-- When every unlock gets to a lock that it is paired with, all that is collected is matching pairs. -/
theorem reaches_pairs (hpairs : AlwaysPairs effects) (h : Reaches effects pre x) :
    ∀ t ∈ x.collected, paired t.lock.val t.unlock.val := by
  obtain ⟨post, hpost⟩ := h.isPrefix
  refine run_inv (I := fun _ x => ∀ t ∈ x.collected, paired t.lock.val t.unlock.val) nofun
    (fun pre' e post' x₁ x₂ hsplit hrun hk hvisit => ?_) h.run
  have hprefix : pre' ++ [e] <+: effects := ⟨post' ++ post, by rw [← hpost, hsplit]; simp⟩
  have hreach : Reaches effects pre' x₁ := ⟨(List.prefix_append pre' [e]).trans hprefix, hrun⟩
  exact visit_pairs (run_aligned hrun) (hpairs pre' e x₁ hprefix hreach) hk hvisit

end Exploration

open Exploration

/-- What is asked of a triple that is collected after `earlier`: the functions and the arguments match, the
effects are those strictly between the lock and a later unlock, and the lock was not released before. -/
structure Collected.Sound (effects : List Effect) (earlier : List Collected) (t : Collected) : Prop where
  /-- The functions. -/
  func : LOCKS.get? t.lock.val.func = some t.unlock.val.func
  /-- The arguments, up to `"0"`. -/
  args : List.Forall₂ (fun a b => a = "0".toList ∨ b = "0".toList ∨ a = b) t.unlock.val.args t.lock.val.args
  /-- The effects. -/
  region : t.Region effects
  /-- The pairs before. -/
  fresh : ∀ t' ∈ earlier, t'.lock ≠ t.lock

/-- All triples that are passed to `collect`, also in a run that raises later. -/
def CollectsSound (effects : List Effect) : Prop :=
  ∀ pre x, Reaches effects pre x → ∀ earlier t later, x.collected = earlier ++ t :: later → t.Sound effects earlier

/-- **Collection is sound** on exactly the paths where each unlock, past the trylocks held on top that do not match
it, gets to a trylock or to a lock that it is paired with. -/
theorem collected_sound_iff {effects : List Effect} (hnodup : effects.Nodup) :
    CollectsSound effects ↔ AlwaysPairs effects := by
  constructor
  · intro hsound pre e x hpre hx u he hu tries lock rest hsplit htries htry
    subst he
    have hlocked : x.state.is_locked := by
      rw [LockState.is_locked, hsplit]
      exact List.append_ne_nil_of_right_ne_nil tries (List.cons_ne_nil lock rest)
    obtain ⟨hall, -⟩ | ⟨tries', lock', rest', above, below, hsplit', htries', hstop, -, -, hvisit⟩ :=
      visit_unlock effects hx.aligned hu hlocked
    · have hskip : Skipped lock u := hall lock (hsplit ▸ List.mem_append_right tries List.mem_cons_self)
      exact absurd hskip.2 htry
    · obtain rfl := first_unique (hsplit.symm.trans hsplit') htries (fun h => htry h.2) htries' hstop
      have hreach : Reaches effects (pre ++ [.call u]) _ := ⟨hpre, run_concat.mpr ⟨x, hx.run, hvisit⟩⟩
      have ht := hsound _ _ hreach x.collected _ [] rfl
      exact ⟨ht.func, ht.args⟩
  · intro hpairs pre x hx earlier t later hcollected
    have hmem : t ∈ x.collected := hcollected ▸ List.mem_append_right earlier List.mem_cons_self
    have hkept := reaches_kept hnodup hx
    have hpaired := reaches_pairs hpairs hx t hmem
    refine ⟨hpaired.1, hpaired.2, hkept.regions t hmem, fun t' ht' => ?_⟩
    have hdistinct := hkept.distinct
    rw [hcollected] at hdistinct
    exact (List.pairwise_append.mp hdistinct).2.2 t' ht' t List.mem_cons_self

/-- A lock, a call under it, and its unlock. -/
theorem collected_sound_spin_lock : CollectsSound
    [.callOf 0 "spin_lock" "a", .callOf 1 "f" "b", .callOf 2 "spin_unlock" "a"] := by
  apply (collected_sound_iff (by decide)).mpr
  intro pre e x hpre hx u he hu tries lock rest hsplit _ _
  subst he
  have hrun : ([.callOf 0 "spin_lock" "a", .callOf 1 "f" "b"].foldlM (visit
      [.callOf 0 "spin_lock" "a", .callOf 1 "f" "b", .callOf 2 "spin_unlock" "a"]) init).map (·.state.locks) =
      .ok [⟨0, "spin_lock".toList, ["a".toList], []⟩] := by decide
  have hmem := (List.mem_inits _ _).mpr hpre
  obtain ⟨rfl, hfirst⟩ | ⟨rfl, hsecond⟩ | ⟨rfl, hthird⟩ : (pre = [] ∧ Effect.call u = .callOf 0 "spin_lock" "a") ∨
      (pre = [.callOf 0 "spin_lock" "a"] ∧ Effect.call u = .callOf 1 "f" "b") ∨
      (pre = [.callOf 0 "spin_lock" "a", .callOf 1 "f" "b"] ∧ Effect.call u = .callOf 2 "spin_unlock" "a") := by
    match pre with
    | [] => simpa using hmem
    | [_] => simpa using hmem
    | [_, _] => simpa [and_assoc] using hmem
    | _ :: _ :: _ :: pre => simp at hmem
  · cases hfirst
    exact absurd hu (by decide)
  · cases hsecond
    exact absurd hu (by decide)
  · cases hthird
    rw [hx.run] at hrun
    have hlocks : x.state.locks = _ := Except.ok.inj hrun
    rw [hsplit] at hlocks
    cases tries with
    | nil =>
      cases hlocks
      decide
    | cons l tries => simp at hlocks

/-- A lock that is not paired with the unlock is collected all the same. -/
theorem not_collected_sound : ¬ ∀ effects : List Effect, effects.Nodup → CollectsSound effects := by
  intro hall
  have hsound := hall [.callOf 0 "spin_lock" "a", .callOf 1 "mutex_unlock" "a"] (by decide)
  have hcollected : ([Effect.callOf 0 "spin_lock" "a", .callOf 1 "mutex_unlock" "a"].foldlM
      (visit [.callOf 0 "spin_lock" "a", .callOf 1 "mutex_unlock" "a"]) init).map (·.collected) =
      .ok [⟨⟨0, "spin_lock".toList, ["a".toList], []⟩, [], ⟨1, "mutex_unlock".toList, ["a".toList], []⟩⟩] := by
    decide
  cases hrun : [Effect.callOf 0 "spin_lock" "a", .callOf 1 "mutex_unlock" "a"].foldlM
      (visit [.callOf 0 "spin_lock" "a", .callOf 1 "mutex_unlock" "a"]) init with
  | error e =>
    rw [hrun] at hcollected
    cases hcollected
  | ok x =>
    rw [hrun] at hcollected
    have ht := hsound _ x ⟨List.prefix_refl _, hrun⟩ [] _ [] (Except.ok.inj hcollected)
    exact absurd ht.func (by decide)

end SEDiff.Juxta
