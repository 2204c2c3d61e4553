import SEDiff.Afl.Favored

/-!
# The dirty bit of the slots

`cull_queue` recomputes the favored entries only when `score_changed` is set, and every branch of
`update_bitmap_score` that changes a slot has to set it on its own.

## What is proved

* `Hybrid.update_sets_iff` — which updates set `score_changed` when they change a slot.
* `Hybrid.favored_follows_iff` — in a run, `score_changed` is set after every change of a slot, and after every
  `cull_queue` an entry is favored if and only if it holds a slot and had not been fuzzed when the flags were
  last recomputed, exactly when every update of the run is such a one.
-/

namespace SEDiff.Afl

open Foundation

namespace Hybrid

/-! ### One slot -/

/-- The iteration changes slot `i` of `top_rated` and leaves `score_changed` alone: the slot is emptied
because the maximum is met, or an incorrect entry takes an empty slot without a new maximum. -/
def Silent (s : Hybrid) (q : ℕ) (trace_bits : ℕ → UInt8) (hybrid_bits : ℕ → UInt32) (i : ℕ) : Prop :=
  trace_bits i ≠ 0 ∧
    ((s.top_rated i ≠ none ∧ s.max_hybrid i = hybrid_bits i) ∨
      (s.top_rated i = none ∧ (s.entries q).has_new_incorrect = true ∧ hybrid_bits i ≤ s.max_hybrid i))

/-- The iteration sets `score_changed`. -/
def Marks (s : Hybrid) (q : ℕ) (trace_bits : ℕ → UInt8) (hybrid_bits : ℕ → UInt32) (i : ℕ) : Prop :=
  trace_bits i ≠ 0 ∧ ¬ s.Silent q trace_bits hybrid_bits i

/-- What the iteration for slot `k` does to the slots and to `score_changed`. -/
structure Scored (s : Hybrid) (q : ℕ) (trace_bits : ℕ → UInt8) (hybrid_bits : ℕ → UInt32) (k : ℕ) (s' : Hybrid) :
    Prop where
  /-- Other slots stay. -/
  top : ∀ i, i ≠ k → s'.top_rated i = s.top_rated i
  /-- So do other maxima. -/
  max : ∀ i, i ≠ k → s'.max_hybrid i = s.max_hybrid i
  /-- An entry stays correct or not. -/
  incorrect : ∀ e, (s'.entries e).has_new_incorrect = (s.entries e).has_new_incorrect
  /-- A trace byte of zero changes nothing. -/
  idle : trace_bits k = 0 → s'.top_rated k = s.top_rated k
  /-- A silent change is a change. -/
  silent : s.Silent q trace_bits hybrid_bits k → s'.top_rated k ≠ s.top_rated k
  /-- `score_changed` is set where it says so, and nowhere else. -/
  score : s'.score_changed = true ↔ s.score_changed = true ∨ s.Marks q trace_bits hybrid_bits k

theorem score_record_orig (q : ℕ) (fav_factor : UInt64) (trace_bits : ℕ → UInt8) (s : Hybrid) (k : ℕ) :
    let s' := record_orig q fav_factor trace_bits s k
    s'.top_rated = s.top_rated ∧ s'.max_hybrid = s.max_hybrid ∧ s'.score_changed = s.score_changed ∧
      ∀ e, (s'.entries e).has_new_incorrect = (s.entries e).has_new_incorrect := by
  intro s'
  have hwin : ∀ t : Hybrid, ∀ e, (((t.entries.count q).keep q trace_bits) e).has_new_incorrect =
      (t.entries e).has_new_incorrect := fun t e =>
    (((Entries.sameScore_count t.entries q).trans (Entries.sameScore_keep _ q trace_bits)) e).2
  have hs' : s' = record_orig q fav_factor trace_bits s k := rfl
  rw [record_orig] at hs'
  cases hw : s.top_rated_orig k with
  | none =>
    rw [hw] at hs'
    rw [hs']
    exact ⟨rfl, rfl, rfl, hwin s⟩
  | some w =>
    simp only [hw] at hs'
    by_cases hgt : fav_factor > (s.entries w).fav_factor
    · rw [if_pos hgt] at hs'
      rw [hs']
      exact ⟨rfl, rfl, rfl, fun _ => rfl⟩
    · rw [if_neg hgt] at hs'
      rw [hs']
      exact ⟨rfl, rfl, rfl, fun e => (hwin (s.release w) e).trans (Entries.sameScore_release s.entries w e).2⟩

theorem Scored.record {s s₁ : Hybrid} {q : ℕ} {trace_bits : ℕ → UInt8} {hybrid_bits : ℕ → UInt32} {k : ℕ}
    (hsc : s.Scored q trace_bits hybrid_bits k s₁) (fav_factor : UInt64) :
    s.Scored q trace_bits hybrid_bits k (record_orig q fav_factor trace_bits s₁ k) := by
  obtain ⟨htop, hmax, hscore, hinc⟩ := score_record_orig q fav_factor trace_bits s₁ k
  refine ⟨fun i hi => ?_, fun i hi => ?_, fun e => (hinc e).trans (hsc.incorrect e), fun h0 => ?_, fun hs => ?_, ?_⟩
  · rw [htop]
    exact hsc.top i hi
  · rw [hmax]
    exact hsc.max i hi
  · rw [htop]
    exact hsc.idle h0
  · rw [htop]
    exact hsc.silent hs
  · rw [hscore]
    exact hsc.score

/-- The iteration sets `score_changed`. -/
theorem Scored.of_marks {s s' : Hybrid} {q : ℕ} {trace_bits : ℕ → UInt8} {hybrid_bits : ℕ → UInt32} {k : ℕ}
    (hm : s.Marks q trace_bits hybrid_bits k) (htop : ∀ i, i ≠ k → s'.top_rated i = s.top_rated i)
    (hmax : ∀ i, i ≠ k → s'.max_hybrid i = s.max_hybrid i)
    (hinc : ∀ e, (s'.entries e).has_new_incorrect = (s.entries e).has_new_incorrect) (hset : s'.score_changed = true) :
    s.Scored q trace_bits hybrid_bits k s' :=
  ⟨htop, hmax, hinc, fun h0 => absurd h0 hm.1, fun hs => absurd hs hm.2, iff_of_true hset (.inr hm)⟩

/-- The iteration changes the slot silently. -/
theorem Scored.of_silent {s s' : Hybrid} {q : ℕ} {trace_bits : ℕ → UInt8} {hybrid_bits : ℕ → UInt32} {k : ℕ}
    (hs : s.Silent q trace_bits hybrid_bits k) (htop : ∀ i, i ≠ k → s'.top_rated i = s.top_rated i)
    (hmax : ∀ i, i ≠ k → s'.max_hybrid i = s.max_hybrid i)
    (hinc : ∀ e, (s'.entries e).has_new_incorrect = (s.entries e).has_new_incorrect)
    (hne : s'.top_rated k ≠ s.top_rated k) (hset : s'.score_changed = s.score_changed) :
    s.Scored q trace_bits hybrid_bits k s' := by
  refine ⟨htop, hmax, hinc, fun h0 => absurd h0 hs.1, fun _ => hne, ?_⟩
  rw [hset, or_iff_left fun hm => hm.2 hs]

theorem rate_of_ne (s : Hybrid) (k : ℕ) (v : Option ℕ) {i : ℕ} (hi : i ≠ k) :
    (s.rate k v).top_rated i = s.top_rated i :=
  Function.update_of_ne hi ..

theorem rate_self (s : Hybrid) (k : ℕ) (v : Option ℕ) : (s.rate k v).top_rated k = v := Function.update_self ..

/-- `judge` on a slot that is empty or whose maximum is exceeded. -/
theorem judge_scored {s t : Hybrid} {q : ℕ} {trace_bits : ℕ → UInt8} {hybrid_bits : ℕ → UInt32} {k : ℕ}
    (htr : trace_bits k ≠ 0) (htop : t.top_rated = s.top_rated) (hmax : t.max_hybrid = s.max_hybrid)
    (hscore : t.score_changed = s.score_changed)
    (hinc : ∀ e, (t.entries e).has_new_incorrect = (s.entries e).has_new_incorrect)
    (hjudge : s.top_rated k = none ∨ s.max_hybrid k < hybrid_bits k) :
    s.Scored q trace_bits hybrid_bits k (judge q trace_bits hybrid_bits t k) := by
  have hother : ∀ i, i ≠ k → (t.rate k (some q)).top_rated i = s.top_rated i := fun i hi => by
    rw [rate_of_ne t k _ hi, htop]
  have hmaxother : ∀ i, i ≠ k → t.max_hybrid i = s.max_hybrid i := fun i _ => by rw [hmax]
  have hcount : ∀ e, ((t.entries.count q) e).has_new_incorrect = (s.entries e).has_new_incorrect := fun e =>
    (Entries.sameScore_count t.entries q e).2.trans (hinc e)
  have hwin : ∀ e, ((t.entries.count q).keep q trace_bits e).has_new_incorrect = (s.entries e).has_new_incorrect :=
    fun e => (Entries.sameScore_keep _ q trace_bits e).2.trans (hcount e)
  rw [judge]
  simp only
  by_cases hexceeds : hybrid_bits k ≠ 0 ∧ t.max_hybrid k < hybrid_bits k
  · rw [if_pos hexceeds]
    rw [hmax] at hexceeds
    refine .of_marks ⟨htr, fun hs => ?_⟩ hother (fun i hi => ?_) hwin rfl
    · cases hs.2 with
      | inl h => exact UInt32.lt_irrefl _ (h.2 ▸ hexceeds.2)
      | inr h => exact UInt32.not_lt.mpr h.2.2 hexceeds.2
    · show Function.update t.max_hybrid k (hybrid_bits k) i = _
      rw [Function.update_of_ne hi, hmax]
  rw [if_neg hexceeds]
  have hle : hybrid_bits k ≤ s.max_hybrid k := by
    rw [hmax] at hexceeds
    by_cases h0 : hybrid_bits k = 0
    · rw [h0, UInt32.le_iff_toNat_le]
      exact Nat.zero_le _
    · exact UInt32.not_lt.mp fun hlt => hexceeds ⟨h0, hlt⟩
  have hnone : s.top_rated k = none := hjudge.resolve_right (UInt32.not_lt.mpr hle)
  by_cases hi : (t.entries q).has_new_incorrect = true
  · rw [if_pos hi]
    refine .of_silent ⟨htr, .inr ⟨hnone, ?_, hle⟩⟩ hother hmaxother hcount ?_ hscore
    · rw [← hinc]
      exact hi
    · show (t.rate k (some q)).top_rated k ≠ s.top_rated k
      rw [rate_self, hnone]
      exact Option.some_ne_none q
  · rw [if_neg hi]
    refine .of_marks ⟨htr, fun hs => ?_⟩ hother hmaxother hwin rfl
    cases hs.2 with
    | inl h => exact h.1 hnone
    | inr h =>
      rw [hinc] at hi
      exact hi h.2.1

/-- **One slot** of `update_bitmap_score`. -/
theorem update_slot_scored (s : Hybrid) (q : ℕ) (fav_factor : UInt64) (trace_bits : ℕ → UInt8)
    (hybrid_bits : ℕ → UInt32) (k : ℕ) :
    s.Scored q trace_bits hybrid_bits k (update_slot true q fav_factor trace_bits hybrid_bits s k) := by
  by_cases htr : trace_bits k = 0
  · rw [update_slot, if_pos htr]
    exact ⟨fun _ _ => rfl, fun _ _ => rfl, fun _ => rfl, fun _ => rfl, fun hs => absurd htr hs.1,
      (or_iff_left fun hm => hm.1 htr).symm⟩
  rw [update_slot, if_neg htr]
  cases hw : s.top_rated k with
  | none => exact (judge_scored htr rfl rfl rfl (fun _ => rfl) (.inl hw)).record fav_factor
  | some w =>
    have hheld : s.top_rated k ≠ none := hw ▸ Option.some_ne_none w
    have hrel : ∀ e, ((s.release w).entries e).has_new_incorrect = (s.entries e).has_new_incorrect := fun e =>
      (Entries.sameScore_release s.entries w e).2
    simp only [if_true]
    by_cases hgt : s.max_hybrid k > hybrid_bits k
    · -- the maximum is not met
      have hm : s.Marks q trace_bits hybrid_bits k := ⟨htr, fun hs => by
        cases hs.2 with
        | inl h => exact UInt32.lt_irrefl _ (h.2 ▸ hgt)
        | inr h => exact hheld h.1⟩
      rw [if_pos hgt]
      split_ifs
      · exact .of_marks hm (fun i hi => rate_of_ne s k _ hi) (fun _ _ => rfl) (fun _ => rfl) rfl
      · exact .of_marks hm (fun _ _ => rfl) (fun _ _ => rfl) (fun _ => rfl) rfl
    rw [if_neg hgt]
    by_cases hge : s.max_hybrid k ≥ hybrid_bits k
    · -- it is met: nobody holds the slot
      have heq : s.max_hybrid k = hybrid_bits k := UInt32.le_antisymm (UInt32.not_lt.mp hgt) hge
      rw [if_pos hge]
      have hne : ((s.release w).rate k none).top_rated k ≠ s.top_rated k := by
        rw [rate_self]
        exact hheld.symm
      have hsil : s.Scored q trace_bits hybrid_bits k ((s.release w).rate k none) :=
        .of_silent ⟨htr, .inl ⟨hheld, heq⟩⟩ (fun i hi => rate_of_ne (s.release w) k none hi) (fun _ _ => rfl) hrel
          hne rfl
      exact hsil.record fav_factor
    · rw [if_neg hge]
      exact (judge_scored (s := s) (t := s.release w) htr rfl rfl rfl hrel (.inr (UInt32.not_le.mp hge))).record fav_factor

/-! ### One call -/

/-- The updates that set `score_changed` when they change a slot: it is set already, or some slot sets it, or
no slot is changed silently. -/
def Sets (s : Hybrid) (q : ℕ) (trace_bits : ℕ → UInt8) (hybrid_bits : ℕ → UInt32) : Prop :=
  s.score_changed = true ∨ (∃ i < MAP_SIZE, s.Marks q trace_bits hybrid_bits i) ∨
    ∀ i < MAP_SIZE, ¬ s.Silent q trace_bits hybrid_bits i

/-- The slots from `k` on are as before the loop. -/
structure Onward (s₀ s : Hybrid) (k : ℕ) : Prop where
  /-- The slots. -/
  top : ∀ i, k ≤ i → s.top_rated i = s₀.top_rated i
  /-- The maxima. -/
  max : ∀ i, k ≤ i → s.max_hybrid i = s₀.max_hybrid i
  /-- What is incorrect. -/
  incorrect : ∀ e, (s.entries e).has_new_incorrect = (s₀.entries e).has_new_incorrect

theorem Onward.silent {s₀ s : Hybrid} {k : ℕ} (hu : Onward s₀ s k) (q : ℕ) (trace_bits : ℕ → UInt8)
    (hybrid_bits : ℕ → UInt32) : s.Silent q trace_bits hybrid_bits k ↔ s₀.Silent q trace_bits hybrid_bits k := by
  rw [Silent, Silent, hu.top k le_rfl, hu.max k le_rfl, hu.incorrect q]

/-- What the loop of `update_bitmap_score` has done before slot `k`. -/
theorem foldl_update_slot_scored (s : Hybrid) (q : ℕ) (fav_factor : UInt64) (trace_bits : ℕ → UInt8)
    (hybrid_bits : ℕ → UInt32) (k : ℕ) :
    let s' := (List.range k).foldl (update_slot true q fav_factor trace_bits hybrid_bits) s
    Onward s s' k ∧ (∀ i < k, trace_bits i = 0 → s'.top_rated i = s.top_rated i) ∧
      (∀ i < k, s.Silent q trace_bits hybrid_bits i → s'.top_rated i ≠ s.top_rated i) ∧
      (s'.score_changed = true ↔ s.score_changed = true ∨ ∃ i < k, s.Marks q trace_bits hybrid_bits i) := by
  induction k with
  | zero => exact ⟨⟨fun _ _ => rfl, fun _ _ => rfl, fun _ => rfl⟩, nofun, nofun, by simp⟩
  | succ k ih =>
    obtain ⟨hu, hidle, hsilent, hscore⟩ := ih
    rw [List.range_succ, List.foldl_append, List.foldl_cons, List.foldl_nil]
    set s₁ := (List.range k).foldl (update_slot true q fav_factor trace_bits hybrid_bits) s with hs₁
    have hsc := update_slot_scored s₁ q fav_factor trace_bits hybrid_bits k
    have hsil := hu.silent q trace_bits hybrid_bits
    refine ⟨⟨fun i hi => ?_, fun i hi => ?_, fun e => (hsc.incorrect e).trans (hu.incorrect e)⟩, fun i hi h0 => ?_,
      fun i hi hs => ?_, ?_⟩
    · exact (hsc.top i (by omega)).trans (hu.top i (by omega))
    · exact (hsc.max i (by omega)).trans (hu.max i (by omega))
    · by_cases hik : i = k
      · rw [hik] at h0 ⊢
        exact (hsc.idle h0).trans (hu.top k le_rfl)
      · exact (hsc.top i hik).trans (hidle i (by omega) h0)
    · by_cases hik : i = k
      · rw [hik] at hs ⊢
        rw [← hu.top k le_rfl]
        exact hsc.silent (hsil.mpr hs)
      · rw [hsc.top i hik]
        exact hsilent i (by omega) hs
    · have hmark : s₁.Marks q trace_bits hybrid_bits k ↔ s.Marks q trace_bits hybrid_bits k := by
        rw [Marks, Marks, hsil]
      rw [hsc.score, hscore, hmark, or_assoc]
      refine or_congr_right ⟨?_, ?_⟩
      · rintro (⟨i, hi, hm⟩ | hm)
        · exact ⟨i, by omega, hm⟩
        · exact ⟨k, by omega, hm⟩
      · rintro ⟨i, hi, hm⟩
        by_cases hik : i = k
        · exact .inr (hik ▸ hm)
        · exact .inl ⟨i, by omega, hm⟩

/-- What scoring does to the slots and to `score_changed`. -/
theorem update_bitmap_score_scored (s : Hybrid) (q : ℕ) (trace_bits : ℕ → UInt8) (hybrid_bits : ℕ → UInt32) :
    (∀ i < MAP_SIZE, trace_bits i = 0 →
        (s.update_bitmap_score true q trace_bits hybrid_bits).top_rated i = s.top_rated i) ∧
      (∀ i < MAP_SIZE, s.Silent q trace_bits hybrid_bits i →
        (s.update_bitmap_score true q trace_bits hybrid_bits).top_rated i ≠ s.top_rated i) ∧
      ((s.update_bitmap_score true q trace_bits hybrid_bits).score_changed = true ↔
        s.score_changed = true ∨ ∃ i < MAP_SIZE, s.Marks q trace_bits hybrid_bits i) := by
  rw [update_bitmap_score]
  exact (foldl_update_slot_scored s q (s.entries q).fav_factor trace_bits hybrid_bits MAP_SIZE).2

/-- **Which updates set `score_changed`** when they change a slot. -/
theorem update_sets_iff (s : Hybrid) (q : ℕ) (trace_bits : ℕ → UInt8) (hybrid_bits : ℕ → UInt32) :
    ((∃ i < MAP_SIZE, (s.update_bitmap_score true q trace_bits hybrid_bits).top_rated i ≠ s.top_rated i) →
        (s.update_bitmap_score true q trace_bits hybrid_bits).score_changed = true) ↔
      s.Sets q trace_bits hybrid_bits := by
  obtain ⟨hidle, hsilent, hscore⟩ := s.update_bitmap_score_scored q trace_bits hybrid_bits
  constructor
  · intro hset
    by_cases hany : ∃ i < MAP_SIZE, s.Silent q trace_bits hybrid_bits i
    · obtain ⟨i, hi, hs⟩ := hany
      cases hscore.mp (hset ⟨i, hi, hsilent i hi hs⟩) with
      | inl h => exact .inl h
      | inr h => exact .inr (.inl h)
    · exact .inr (.inr fun i hi hs => hany ⟨i, hi, hs⟩)
  · rintro hsets ⟨i, hi, hne⟩
    refine hscore.mpr ?_
    rcases hsets with h | h | h
    · exact .inl h
    · exact .inr h
    · exact .inr ⟨i, hi, fun h0 => hne (hidle i hi h0), h i hi⟩

/-- One slot of the pass over `top_rated` favors its winner unless it was fuzzed. -/
theorem favor_favored (top_rated : ℕ → Option ℕ) (c : Picks) (i e : ℕ) :
    ((favor top_rated c i).entries e).favored = true ↔
      (c.entries e).favored = true ∨ ((c.entries e).was_fuzzed = false ∧ top_rated i = some e) := by
  rw [favor]
  cases hw : top_rated i with
  | none => simp
  | some w =>
    have hsame : ∀ c' : Picks, c'.entries = Function.update c.entries w { c.entries w with favored := true } →
        (c.entries w).was_fuzzed = false → ((c'.entries e).favored = true ↔
          (c.entries e).favored = true ∨ ((c.entries e).was_fuzzed = false ∧ some w = some e)) := fun c' hc hf => by
      rw [hc, update_favored, or_comm]
      refine or_congr_right ⟨fun he => ?_, fun h => (Option.some_inj.mp h.2).symm⟩
      rw [he]
      exact ⟨hf, rfl⟩
    simp only
    by_cases hf : (c.entries w).was_fuzzed = true
    · rw [if_pos hf]
      refine (or_iff_left ?_).symm
      rintro ⟨h0, he⟩
      rw [← Option.some_inj.mp he, hf] at h0
      cases h0
    · rw [if_neg hf]
      split_ifs
      · exact hsame _ rfl (Bool.eq_false_iff.mpr hf)
      · exact hsame _ rfl (Bool.eq_false_iff.mpr hf)

theorem foldl_favor_favored (top_rated : ℕ → Option ℕ) (is : List ℕ) (c : Picks) (e : ℕ) :
    ((is.foldl (favor top_rated) c).entries e).favored = true ↔
      (c.entries e).favored = true ∨ ((c.entries e).was_fuzzed = false ∧ ∃ i ∈ is, top_rated i = some e) := by
  induction is generalizing c with
  | nil => simp
  | cons i is ih =>
    rw [List.foldl_cons, ih, favor_favored, (favor_pass top_rated c i).was_fuzzed e, or_assoc, ← and_or_left]
    refine or_congr_right (and_congr_right fun _ => ?_)
    simp

/-- The pass over `top_rated` favors the winners that were not fuzzed. -/
theorem favor_all_favored {s : Hybrid} (hs : s.Queued) (e : ℕ) :
    (s.favor_all.entries e).favored = true ↔
      (∃ i < MAP_SIZE, s.top_rated i = some e) ∧ (s.entries e).was_fuzzed = false := by
  have hfresh : ¬ (s.fresh_picks.entries e).favored = true := Bool.eq_false_iff.mp (hs.fresh e)
  rw [favor_all, foldl_favor_favored, or_iff_right hfresh, fresh_was_fuzzed, and_comm]
  simp only [List.mem_range]

/-! ### Runs -/

/-- The fuzzer, and what had been fuzzed when the flags were last recomputed. -/
structure Watched where
  /-- The fuzzer. -/
  fuzzer : Hybrid
  /-- What had been fuzzed. -/
  was_fuzzed : ℕ → Bool

/-- One call, watched. -/
def watch (dumb_mode : Bool) (w : Watched) (ev : Call) : Option Watched :=
  (w.fuzzer.call dumb_mode ev).map fun s' =>
    ⟨s', match ev with
      | .cull_queue =>
        if dumb_mode || !w.fuzzer.score_changed then w.was_fuzzed else fun e => (w.fuzzer.entries e).was_fuzzed
      | _ => w.was_fuzzed⟩

theorem watch_update (dumb_mode : Bool) (w : Watched) (q : ℕ) (trace_bits : ℕ → UInt8) (hybrid_bits : ℕ → UInt32) :
    watch dumb_mode w (.update_bitmap_score q trace_bits hybrid_bits) =
      some ⟨w.fuzzer.update_bitmap_score true q trace_bits hybrid_bits, w.was_fuzzed⟩ :=
  rfl

/-- The favored entries are the winners that had not been fuzzed. -/
def Watched.Current (w : Watched) : Prop :=
  ∀ e, (w.fuzzer.entries e).favored = true ↔
    (∃ i < MAP_SIZE, w.fuzzer.top_rated i = some e) ∧ w.was_fuzzed e = false

/-- What is asked of a call: an update that changes a slot leaves `score_changed` set, and the flags are
current right after a cull. -/
def Watched.Follows (dumb_mode : Bool) (w : Watched) (ev : Call) : Prop :=
  ∀ w', watch dumb_mode w ev = some w' →
    match ev with
    | .update_bitmap_score _ _ _ =>
      (∃ i < MAP_SIZE, w'.fuzzer.top_rated i ≠ w.fuzzer.top_rated i) → w'.fuzzer.score_changed = true
    | .cull_queue => w'.Current
    | _ => True

theorem Watched.follows_update_iff {dumb_mode : Bool} {w : Watched} {q : ℕ} {trace_bits : ℕ → UInt8}
    {hybrid_bits : ℕ → UInt32} {s' : Hybrid}
    (hstep : watch dumb_mode w (.update_bitmap_score q trace_bits hybrid_bits) = some ⟨s', w.was_fuzzed⟩) :
    w.Follows dumb_mode (.update_bitmap_score q trace_bits hybrid_bits) ↔
      ((∃ i < MAP_SIZE, s'.top_rated i ≠ w.fuzzer.top_rated i) → s'.score_changed = true) := by
  refine ⟨fun hf => hf _ hstep, fun hset w' hrun => ?_⟩
  cases hstep.symm.trans hrun
  exact hset

/-- The updates set `score_changed` when they change a slot. -/
def Watched.SetsScore (w : Watched) (ev : Call) : Prop :=
  match ev with
  | .update_bitmap_score q trace_bits hybrid_bits => w.fuzzer.Sets q trace_bits hybrid_bits
  | _ => True

/-- A valid call that leaves `TF_top_null` at zero. -/
def Watched.Valid (dumb_mode : Bool) (w : Watched) (ev : Call) : Prop :=
  w.fuzzer.CallValid dumb_mode ev ∧
    match ev with
    | .other _ _ TF_top_null => TF_top_null = false
    | _ => True

/-- What the calls keep. -/
structure Watched.Inv (dumb_mode : Bool) (w : Watched) : Prop where
  /-- What is favored or held is in the queue. -/
  queued : w.fuzzer.Queued
  /-- `top_rated_orig` is not asked. -/
  TF_top_null : w.fuzzer.TF_top_null = false
  /-- In dumb mode nothing is scored. -/
  dumb : dumb_mode = true → w.fuzzer.score_changed = false
  /-- The flags are current unless `score_changed` is set. -/
  clean : w.fuzzer.score_changed = false → w.Current

theorem Starts.watchedInv {s : Hybrid} (hs : s.Starts) (hnull : s.TF_top_null = false) (dumb_mode : Bool) :
    (⟨s, fun _ => false⟩ : Watched).Inv dumb_mode := by
  refine ⟨hs.queued, hnull, fun _ => hs.score_changed, fun _ e => ?_⟩
  show (s.entries e).favored = true ↔ (∃ i < MAP_SIZE, s.top_rated i = some e) ∧ _
  rw [hs.favored]
  refine iff_of_false nofun ?_
  rintro ⟨⟨i, -, hi⟩, -⟩
  rw [hs.top_rated] at hi
  cases hi

/-- Culling makes the flags current, and is done. -/
theorem Watched.Inv.cull {dumb_mode : Bool} {w w' : Watched} (hw : w.Inv dumb_mode)
    (hrun : watch dumb_mode w .cull_queue = some w') : w'.Current ∧ w'.Inv dumb_mode := by
  obtain ⟨s', hcull, rfl⟩ := Option.map_eq_some_iff.mp hrun
  have hv : w.fuzzer.CallValid dumb_mode .cull_queue := trivial
  have hqueued : s'.Queued := call_queued hw.queued hv hcull
  cases cull_queue_cases hcull with
  | inl h =>
    -- nothing is recomputed
    obtain ⟨hskip, haltern⟩ := h
    have hclean : w.fuzzer.score_changed = false := by
      cases hskip with
      | inl h => exact hw.dumb h
      | inr h => exact h
    cases altern_cases haltern with
    | inr h => exact absurd (hw.TF_top_null.symm.trans h.1) nofun
    | inl h =>
      obtain ⟨-, rfl⟩ := h
      have hcur := hw.clean hclean
      have hghost : (⟨w.fuzzer, if dumb_mode || !w.fuzzer.score_changed then w.was_fuzzed
          else fun e => (w.fuzzer.entries e).was_fuzzed⟩ : Watched) = w := by
        rw [hclean, Bool.not_false, Bool.or_true, if_pos rfl]
      simp only
      rw [hghost]
      exact ⟨hcur, hw⟩
  | inr h =>
    obtain ⟨hdumb, hset, hs'⟩ := h
    have hcur : Watched.Current ⟨s', fun e => (w.fuzzer.entries e).was_fuzzed⟩ := fun e => by
      show (s'.entries e).favored = true ↔ (∃ i < MAP_SIZE, s'.top_rated i = some e) ∧ _
      rw [hs', culled_top_rated, culled, settle_favored]
      exact favor_all_favored hw.queued e
    simp only [hdumb, hset, Bool.not_true, Bool.or_false, Bool.false_eq_true, if_false]
    refine ⟨hcur, ⟨hqueued, ?_, nofun, fun _ => hcur⟩⟩
    show s'.TF_top_null = false
    rw [hs', culled_TF_top_null]

/-- **One call** that sets `score_changed` where it has to keeps the flags current. -/
theorem Watched.Inv.step {dumb_mode : Bool} {w w' : Watched} (hw : w.Inv dumb_mode) {ev : Call}
    (hv : w.Valid dumb_mode ev) (hsets : w.SetsScore ev) (hrun : watch dumb_mode w ev = some w') :
    w'.Inv dumb_mode := by
  cases ev with
  | cull_queue => exact (hw.cull hrun).2
  | update_bitmap_score q trace_bits hybrid_bits =>
    obtain ⟨s', hstep, rfl⟩ := Option.map_eq_some_iff.mp hrun
    have hqueued := call_queued hw.queued hv.1 hstep
    cases hstep
    have hq := w.fuzzer.update_bitmap_score_quiet q trace_bits hybrid_bits
    obtain ⟨-, -, hscore⟩ := w.fuzzer.update_bitmap_score_scored q trace_bits hybrid_bits
    refine ⟨hqueued, hq.TF_top_null.trans hw.TF_top_null, fun hd => ?_, fun hclean e => ?_⟩
    · -- in dumb mode the trace is empty
      refine Bool.eq_false_iff.mpr fun hset => ?_
      cases hscore.mp hset with
      | inl h => exact absurd (hw.dumb hd) (by simp [h])
      | inr h =>
        obtain ⟨i, hi, hm⟩ := h
        exact hm.1 (hv.1.2 hd i hi)
    · -- nothing was changed
      have hold : w.fuzzer.score_changed = false :=
        Bool.eq_false_iff.mpr fun h => Bool.eq_false_iff.mp hclean (hscore.mpr (.inl h))
      have hsame : ∀ i < MAP_SIZE, (w.fuzzer.update_bitmap_score true q trace_bits hybrid_bits).top_rated i =
          w.fuzzer.top_rated i := fun i hi => by
        by_contra hne
        exact Bool.eq_false_iff.mp hclean
          ((update_sets_iff w.fuzzer q trace_bits hybrid_bits).mpr hsets ⟨i, hi, hne⟩)
      have hholds : (∃ i < MAP_SIZE, (w.fuzzer.update_bitmap_score true q trace_bits hybrid_bits).top_rated i =
          some e) ↔ ∃ i < MAP_SIZE, w.fuzzer.top_rated i = some e :=
        exists_congr fun i => and_congr_right fun hi => by rw [hsame i hi]
      show ((w.fuzzer.update_bitmap_score true q trace_bits hybrid_bits).entries e).favored = true ↔ _
      rw [(hq.flags e).1]
      exact (hw.clean hold e).trans (and_congr_left fun _ => hholds.symm)
  | abandon_entry queue_cur stop_soon cal_failed =>
    obtain ⟨s', hstep, rfl⟩ := Option.map_eq_some_iff.mp hrun
    have hqueued := call_queued hw.queued hv.1 hstep
    cases hstep
    cases w.fuzzer.abandon_entry_cases queue_cur stop_soon cal_failed with
    | inl h =>
      rw [h]
      exact hw
    | inr h =>
      rw [h.2] at hqueued ⊢
      refine ⟨hqueued, hw.TF_top_null, hw.dumb, fun hclean e => ?_⟩
      exact (Bool.eq_iff_iff.mp (Entries.favored_fuzz w.fuzzer.entries queue_cur e)).trans (hw.clean hclean e)
  | other measures added TF_top_null =>
    obtain ⟨s', hstep, rfl⟩ := Option.map_eq_some_iff.mp hrun
    have hqueued := call_queued hw.queued hv.1 hstep
    cases hstep
    exact ⟨hqueued, hv.2, hw.dumb, hw.clean⟩

/-- **The flags follow the slots** in a run with `TF_switch` on and `TF_top_null` zero exactly when every update
of the run sets `score_changed` where it changes a slot. -/
theorem favored_follows_iff (dumb_mode : Bool) {s : Hybrid} (hs : s.Starts) (hnull : s.TF_top_null = false)
    {evs : List Call} (hv : Each (watch dumb_mode) (Watched.Valid dumb_mode) ⟨s, fun _ => false⟩ evs) :
    Each (watch dumb_mode) (Watched.Follows dumb_mode) ⟨s, fun _ => false⟩ evs ↔
      Each (watch dumb_mode) Watched.SetsScore ⟨s, fun _ => false⟩ evs := by
  refine each_iff (fun w ev hw hev => ?_) (fun w ev w' hw hev hsets hrun => hw.step hev hsets hrun)
    (hs.watchedInv hnull dumb_mode) hv
  cases ev with
  | update_bitmap_score q trace_bits hybrid_bits =>
    exact (Watched.follows_update_iff (watch_update dumb_mode w q trace_bits hybrid_bits)).trans
      (update_sets_iff w.fuzzer q trace_bits hybrid_bits)
  | cull_queue => exact iff_of_true (fun w' hrun => (hw.cull hrun).1) trivial
  | abandon_entry queue_cur stop_soon cal_failed => exact iff_of_true (fun _ _ => trivial) trivial
  | other measures added TF_top_null => exact iff_of_true (fun _ _ => trivial) trivial

/-- A new maximum sets `score_changed`. -/
theorem sets_of_exceeds {s : Hybrid} {q : ℕ} {hybrid_bits : ℕ → UInt32} (hlt : s.max_hybrid 0 < hybrid_bits 0) :
    s.Sets q byteZero hybrid_bits := by
  refine .inr (.inl ⟨0, zero_lt_MAP_SIZE, by decide, fun hs => ?_⟩)
  cases hs.2 with
  | inl h => exact UInt32.lt_irrefl _ (h.2 ▸ hlt)
  | inr h => exact UInt32.not_lt.mpr h.2.2 hlt

/-- A cull that recomputes the flags keeps the slots. -/
theorem exists_watch_cull {s : Hybrid} (hset : s.score_changed = true) (was_fuzzed : ℕ → Bool) :
    ∃ w', watch false ⟨s, was_fuzzed⟩ .cull_queue = some w' ∧ w'.fuzzer.score_changed = false ∧
      w'.fuzzer.top_rated = s.top_rated ∧ w'.fuzzer.max_hybrid = s.max_hybrid ∧
      w'.fuzzer.queue = s.queue := by
  obtain ⟨s', hs'⟩ : ∃ s', s' = s.culled := ⟨_, rfl⟩
  have hcall : s.call false .cull_queue = some s' := hs' ▸ call_cull hset
  refine ⟨⟨s', fun e => (s.entries e).was_fuzzed⟩, ?_, ?_, ?_, ?_, ?_⟩
  · rw [watch, hcall, hset]
    rfl
  · exact hs' ▸ culled_score_changed s
  · exact hs' ▸ culled_top_rated s
  · exact hs' ▸ culled_max_hybrid s
  · exact hs' ▸ culled_queue s

/-- The first entry takes slot 0 with the maximum 5. -/
theorem first_score (queue : List ℕ) :
    ((init (fun _ => added false) queue).update_bitmap_score true 0 byteZero fun _ => 5).score_changed = true ∧
      ((init (fun _ => added false) queue).update_bitmap_score true 0 byteZero fun _ => 5).top_rated 0 = some 0 ∧
      ((init (fun _ => added false) queue).update_bitmap_score true 0 byteZero fun _ => 5).max_hybrid 0 = 5 := by
  rw [update_bitmap_score_byteZero]
  exact ⟨rfl, rfl, rfl⟩

/-- An entry that takes an empty slot with a new maximum is favored. -/
theorem favored_follows_new_maximum :
    Each (watch false) (Watched.Follows false) ⟨init (fun _ => added false) [0], fun _ => false⟩
      [.update_bitmap_score 0 byteZero fun _ => 5, .cull_queue] := by
  have hsets : (init (fun _ => added false) [0]).Sets 0 byteZero fun _ => 5 := by
    refine sets_of_exceeds ?_
    show (0 : UInt32) < 5
    decide
  have hstep := watch_update false ⟨init (fun _ => added false) [0], fun _ => false⟩ 0 byteZero fun _ => 5
  refine (favored_follows_iff false (init_starts (fun _ => false) (by decide)) rfl ?_).mpr ?_
  · rw [each_cons_some hstep, each_singleton]
    exact ⟨⟨⟨List.mem_singleton.mpr rfl, nofun⟩, trivial⟩, trivial, trivial⟩
  · rw [each_cons_some hstep, each_singleton]
    exact ⟨hsets, trivial⟩

/-- An entry that meets the maximum of slot 0 empties it silently. -/
theorem not_sets_of_meets {s : Hybrid} (hclean : s.score_changed = false) (htop : s.top_rated 0 = some 0)
    (hmax : s.max_hybrid 0 = 5) (q : ℕ) : ¬ s.Sets q byteZero fun _ => 5 := by
  have hsilent : s.Silent q byteZero (fun _ => 5) 0 := ⟨by decide, .inl ⟨htop ▸ Option.some_ne_none 0, hmax⟩⟩
  rintro (h | ⟨i, -, hm⟩ | h)
  · rw [hclean] at h
    cases h
  · -- only slot 0 is scored
    have hi : i = 0 := by
      by_contra hne
      exact hm.1 (if_neg hne)
    exact hm.2 (hi ▸ hsilent)
  · exact h 0 zero_lt_MAP_SIZE hsilent

/-- An entry that meets the maximum of a slot empties it, and `score_changed` is not set. -/
theorem not_favored_follows : ¬ ∀ (dumb_mode : Bool) (s : Hybrid), s.Starts → s.TF_top_null = false →
    ∀ evs : List Call, Each (watch dumb_mode) (Watched.Valid dumb_mode) ⟨s, fun _ => false⟩ evs →
      Each (watch dumb_mode) (Watched.Follows dumb_mode) ⟨s, fun _ => false⟩ evs := by
  intro hall
  obtain ⟨hscore, htop, hmax⟩ := first_score [0, 1]
  set s₀ := init (fun _ => added false) [0, 1] with hs₀
  have hstarts : s₀.Starts := init_starts (fun _ => false) (by decide)
  have hstep₀ := watch_update false ⟨s₀, fun _ => false⟩ 0 byteZero fun _ => 5
  have hquiet := s₀.update_bitmap_score_quiet 0 byteZero fun _ => 5
  dsimp only at hstep₀
  generalize s₀.update_bitmap_score true 0 byteZero (fun _ => 5) = s₁ at *
  have hqueue : 1 ∈ s₁.queue := hquiet.queue ▸ by decide
  obtain ⟨w₂, hstep₁, hclean, htop₂, hmax₂, hqueue₂⟩ := exists_watch_cull hscore fun _ => false
  have hvalid : (⟨s₁, fun _ => false⟩ : Watched).Valid false .cull_queue := ⟨trivial, trivial⟩
  have hrun := hall false s₀ hstarts rfl
    [.update_bitmap_score 0 byteZero fun _ => 5, .cull_queue, .update_bitmap_score 1 byteZero fun _ => 5] (by
      rw [each_cons_some hstep₀, each_cons_some hstep₁, each_singleton]
      exact ⟨⟨⟨List.mem_cons_self, nofun⟩, trivial⟩, hvalid, ⟨hqueue₂ ▸ hqueue, nofun⟩, trivial⟩)
  rw [each_cons_some hstep₀, each_cons_some hstep₁, each_singleton] at hrun
  obtain ⟨-, -, hlast⟩ := hrun
  have hset := (Watched.follows_update_iff (watch_update false w₂ 1 byteZero fun _ => 5)).mp hlast
  refine not_sets_of_meets hclean ?_ ?_ 1 ((update_sets_iff w₂.fuzzer 1 byteZero fun _ => 5).mp hset)
  · rw [htop₂, htop]
  · rw [hmax₂, hmax]

end Hybrid

end SEDiff.Afl
