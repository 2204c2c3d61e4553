import SEDiff.Afl.Favored
import SEDiff.Afl.Novelty

/-!
# The maximum of the hybrid map

`max_hybrid` over a run of the hybrid fuzzer with `TF_switch` on, whose maps come from the instrumentation.

## What is proved

* `Hybrid.update_bitmap_score_max_hybrid` — what scoring an execution does to `max_hybrid`.
* `Hybrid.running_max_iff` — `max_hybrid` is the running maximum, except when a counter of a new maximum has a trace byte
  that wrapped around to zero.
-/

namespace SEDiff.Afl

open Foundation

/-- `count_class_lookup8`. -/
def count_class_lookup8 (x : UInt8) : UInt8 :=
  if x ≤ 2 then x
  else if x = 3 then 4
  else if x ≤ 7 then 8
  else if x ≤ 15 then 16
  else if x ≤ 31 then 32
  else if x ≤ 127 then 64
  else 128

/-- Classes tell whether there is a count. -/
theorem count_class_lookup8_eq_zero_iff (x : UInt8) : count_class_lookup8 x = 0 ↔ x = 0 := by
  constructor
  · intro h
    rw [count_class_lookup8] at h
    split_ifs at h
    · exact h
    all_goals exact absurd h (by decide)
  · rintro rfl
    rfl

/-- The edges that an execution traverses, and whether the block that is entered is favored. -/
abbrev Traversals := List (ℕ × Bool)

namespace Traversals

/-- How often edge `i` is traversed. -/
def hits (x : Traversals) (i : ℕ) : ℕ := x.countP fun v => v.1 = i

/-- How often it leads to a favored block. -/
def favored_hits (x : Traversals) (i : ℕ) : ℕ := x.countP fun v => v.1 = i ∧ v.2

/-- The trace map after `classify_counts`. -/
def trace_bits (x : Traversals) : ℕ → UInt8 := fun i => count_class_lookup8 (UInt8.ofNat (x.hits i))

/-- The hybrid map. -/
def hybrid_bits (x : Traversals) : ℕ → UInt32 := fun i => UInt32.ofNat (x.favored_hits i)

/-- A trace byte is zero after a multiple of 256 traversals. -/
theorem trace_bits_eq_zero_iff (x : Traversals) (i : ℕ) : x.trace_bits i = 0 ↔ x.hits i % 256 = 0 := by
  rw [trace_bits, count_class_lookup8_eq_zero_iff, ← UInt8.toNat_inj, UInt8.toNat_ofNat', UInt8.toNat_zero]

end Traversals

/-- What happens in a run. -/
inductive Act
  /-- `update_bitmap_score(q)` after this execution. -/
  | score (q : ℕ) (x : Traversals)
  /-- `cull_queue()`. -/
  | cull
  /-- Anything else. -/
  | other (attrs : ℕ → Attrs) (queue : List ℕ) (TF_top_null : Bool) (pending_favored : UInt32)

/-- The event of the fuzzer. -/
def Act.event : Act → Event
  | .score q x => .update q x.trace_bits x.hybrid_bits
  | .cull => .cull
  | .other attrs queue TF_top_null pending_favored => .other attrs queue TF_top_null pending_favored

/-- The executions that were scored. -/
def scored (acts : List Act) : List Traversals :=
  acts.filterMap fun
    | .score _ x => some x
    | _ => none

/-- The maximum of some counts, 0 for none. -/
structure IsMax (counts : List UInt32) (m : UInt32) : Prop where
  /-- It bounds them. -/
  le : ∀ c ∈ counts, c ≤ m
  /-- It is one of them. -/
  mem : m = 0 ∨ m ∈ counts

/-- One count more. -/
theorem IsMax.concat {counts : List UInt32} {m : UInt32} (h : IsMax counts m) (c : UInt32) :
    IsMax (counts ++ [c]) (if m < c then c else m) := by
  by_cases hlt : m < c
  · rw [if_pos hlt]
    refine ⟨fun c' hc' => ?_, .inr (by simp)⟩
    obtain hc' | hc' := List.mem_append.mp hc'
    · exact UInt32.le_of_lt (UInt32.lt_of_le_of_lt (h.le c' hc') hlt)
    · rw [List.mem_singleton.mp hc']
      exact UInt32.le_refl c
  · rw [if_neg hlt]
    refine ⟨fun c' hc' => ?_, h.mem.imp_right (List.mem_append_left _)⟩
    obtain hc' | hc' := List.mem_append.mp hc'
    · exact h.le c' hc'
    · rw [List.mem_singleton.mp hc']
      exact UInt32.not_lt.mp hlt

namespace Hybrid

/-! ### One call -/

theorem record_orig_max_hybrid (q : ℕ) (fav_factor : UInt64) (trace_bits : ℕ → UInt8) (s : Hybrid) (i : ℕ) :
    (record_orig q fav_factor trace_bits s i).max_hybrid = s.max_hybrid := by
  rw [record_orig]
  cases s.top_rated_orig i with
  | none => rfl
  | some w =>
    dsimp only
    split_ifs <;> rfl

theorem judge_max_hybrid (q : ℕ) (trace_bits : ℕ → UInt8) (hybrid_bits : ℕ → UInt32) (s : Hybrid) (i : ℕ) :
    (judge q trace_bits hybrid_bits s i).max_hybrid =
      Function.update s.max_hybrid i (if s.max_hybrid i < hybrid_bits i then hybrid_bits i else s.max_hybrid i) := by
  have hne : s.max_hybrid i < hybrid_bits i → hybrid_bits i ≠ 0 := by
    intro hlt h0
    rw [h0, UInt32.lt_iff_toNat_lt] at hlt
    exact Nat.not_lt_zero _ hlt
  rw [judge]
  by_cases hlt : s.max_hybrid i < hybrid_bits i
  · rw [if_pos ⟨hne hlt, hlt⟩, if_pos hlt]
  · rw [if_neg fun h => hlt h.2, if_neg hlt, Function.update_eq_self]
    split_ifs <;> rfl

/-- One slot. -/
theorem update_slot_max_hybrid (q : ℕ) (fav_factor : UInt64) (trace_bits : ℕ → UInt8) (hybrid_bits : ℕ → UInt32)
    (s : Hybrid) (i : ℕ) :
    (update_slot true q fav_factor trace_bits hybrid_bits s i).max_hybrid =
      if trace_bits i = 0 then s.max_hybrid
      else Function.update s.max_hybrid i (if s.max_hybrid i < hybrid_bits i then hybrid_bits i else s.max_hybrid i) := by
  rw [update_slot]
  by_cases htr : trace_bits i = 0
  · rw [if_pos htr, if_pos htr]
  · rw [if_neg htr, if_neg htr]
    cases htop : s.top_rated i with
    | none =>
      dsimp only
      rw [if_pos rfl, record_orig_max_hybrid, judge_max_hybrid]
    | some w =>
      dsimp only
      rw [if_pos rfl]
      by_cases hgt : s.max_hybrid i > hybrid_bits i
      · have hnot : ¬ s.max_hybrid i < hybrid_bits i := UInt32.not_lt.mpr (UInt32.le_of_lt hgt)
        rw [if_pos hgt, if_neg hnot, Function.update_eq_self]
        split_ifs <;> rfl
      · rw [if_neg hgt]
        by_cases hge : s.max_hybrid i ≥ hybrid_bits i
        · rw [if_pos hge, if_neg (UInt32.not_lt.mpr hge), Function.update_eq_self, record_orig_max_hybrid]
          rfl
        · rw [if_neg hge, record_orig_max_hybrid, judge_max_hybrid]
          rfl

/-- **Scoring** raises `max_hybrid` where the trace byte is set. -/
theorem update_bitmap_score_max_hybrid (s : Hybrid) (q : ℕ) (trace_bits : ℕ → UInt8) (hybrid_bits : ℕ → UInt32)
    {i : ℕ} (hi : i < MAP_SIZE) :
    (s.update_bitmap_score true q trace_bits hybrid_bits).max_hybrid i =
      if trace_bits i = 0 then s.max_hybrid i
      else if s.max_hybrid i < hybrid_bits i then hybrid_bits i else s.max_hybrid i := by
  have hslots (k : ℕ) : ((List.range k).foldl (update_slot true q (s.entries q).fav_factor trace_bits hybrid_bits)
      s).max_hybrid i =
        if k ≤ i ∨ trace_bits i = 0 then s.max_hybrid i
        else if s.max_hybrid i < hybrid_bits i then hybrid_bits i else s.max_hybrid i := by
    induction k with
    | zero => exact (if_pos (.inl (Nat.zero_le i))).symm
    | succ k ih =>
      rw [List.range_succ, List.foldl_append, List.foldl_cons, List.foldl_nil, update_slot_max_hybrid]
      by_cases hki : k = i
      · subst hki
        rw [if_pos (.inl le_rfl)] at ih
        by_cases htr : trace_bits k = 0
        · rw [if_pos htr, if_pos (.inr htr), ih]
        · rw [if_neg htr, if_neg (not_or.mpr ⟨by omega, htr⟩), Function.update_self, ih]
      · have hiff : k ≤ i ↔ k + 1 ≤ i := by omega
        simp only [hiff] at ih
        by_cases htr : trace_bits k = 0
        · rw [if_pos htr, ih]
        · rw [if_neg htr, Function.update_of_ne (Ne.symm hki), ih]
  have hmap := hslots MAP_SIZE
  rw [update_bitmap_score, hmap]
  have hiff : (MAP_SIZE ≤ i ∨ trace_bits i = 0) ↔ trace_bits i = 0 := or_iff_right (Nat.not_le.mpr hi)
  simp only [hiff]

/-- A cull leaves `max_hybrid`. -/
theorem cull_queue_max_hybrid {dumb_mode : Bool} {s s' : Hybrid} (hrun : s.cull_queue true dumb_mode = some s') :
    s'.max_hybrid = s.max_hybrid := by
  obtain ⟨-, hrun⟩ | ⟨-, -, rfl⟩ := cull_queue_cases hrun
  · obtain ⟨-, rfl⟩ | ⟨-, c, -, rfl⟩ := altern_cases hrun
    · rfl
    · rfl
  · exact s.culled_max_hybrid

/-! ### Runs -/

/-- The acts from the start, with `TF_switch` on. -/
def acted (dumb_mode : Bool) (entries : Entries) (queue : List ℕ) (acts : List Act) : Option Hybrid :=
  run true dumb_mode (init entries queue) (acts.map Act.event)

/-- One act more. -/
theorem acted_concat {dumb_mode : Bool} {entries : Entries} {queue : List ℕ} {acts : List Act} {a : Act} {s' : Hybrid} :
    acted dumb_mode entries queue (acts ++ [a]) = some s' ↔
      ∃ s, acted dumb_mode entries queue acts = some s ∧ step true dumb_mode s a.event = some s' := by
  rw [acted, run, List.map_append, List.map_singleton]
  exact run_concat_some

/-- `max_hybrid` is the maximum of the hybrid maps that were scored. -/
def Maximal (acts : List Act) (s : Hybrid) : Prop :=
  ∀ i < MAP_SIZE, IsMax ((scored acts).map fun x => x.hybrid_bits i) (s.max_hybrid i)

/-- `max_hybrid` is the running maximum of the hybrid map, so that the map that was just scored has no new maximum. -/
def RunningMax (dumb_mode : Bool) (entries : Entries) (queue : List ℕ) (acts : List Act) : Prop :=
  ∀ pre s, pre <+: acts → acted dumb_mode entries queue pre = some s →
    Maximal pre s ∧ ∀ pre' q x, pre = pre' ++ [.score q x] → has_max_metric x.hybrid_bits s.max_hybrid = false

/-- An edge whose count is a new maximum was not traversed a multiple of 256 times. -/
def Unwrapped (dumb_mode : Bool) (entries : Entries) (queue : List ℕ) (acts : List Act) : Prop :=
  ∀ pre q x, pre ++ [.score q x] <+: acts → acted dumb_mode entries queue pre ≠ none →
    ∀ i < MAP_SIZE, x.hits i % 256 = 0 → x.hybrid_bits i = 0 ∨ ∃ y ∈ scored pre, x.hybrid_bits i ≤ y.hybrid_bits i

theorem scored_concat_score (acts : List Act) (q : ℕ) (x : Traversals) :
    scored (acts ++ [.score q x]) = scored acts ++ [x] := by
  rw [scored, List.filterMap_append]
  rfl

/-- Scoring keeps the maxima under the condition, and only then. -/
theorem maximal_score_iff {acts : List Act} {s : Hybrid} (hs : Maximal acts s) (q : ℕ) (x : Traversals) :
    Maximal (acts ++ [.score q x]) (s.update_bitmap_score true q x.trace_bits x.hybrid_bits) ↔
      ∀ i < MAP_SIZE, x.hits i % 256 = 0 → x.hybrid_bits i = 0 ∨ ∃ y ∈ scored acts, x.hybrid_bits i ≤ y.hybrid_bits i := by
  refine forall₂_congr fun i hi => ?_
  rw [update_bitmap_score_max_hybrid s q x.trace_bits x.hybrid_bits hi, scored_concat_score, List.map_append,
    List.map_singleton]
  by_cases htr : x.trace_bits i = 0
  · have hhits := (x.trace_bits_eq_zero_iff i).mp htr
    rw [if_pos htr]
    constructor
    · intro hmax _
      have hle := hmax.le (x.hybrid_bits i) (by simp)
      obtain h0 | hmem := (hs i hi).mem
      · rw [h0] at hle
        exact .inl (UInt32.le_antisymm hle (UInt32.zero_le))
      · obtain ⟨y, hy, heq⟩ := List.mem_map.mp hmem
        rw [← heq] at hle
        exact .inr ⟨y, hy, hle⟩
    · intro hcond
      refine ⟨fun c hc => ?_, (hs i hi).mem.imp_right (List.mem_append_left _)⟩
      obtain hc | hc := List.mem_append.mp hc
      · exact (hs i hi).le c hc
      · rw [List.mem_singleton.mp hc]
        obtain h0 | ⟨y, hy, hle⟩ := hcond hhits
        · rw [h0]
          exact UInt32.zero_le
        · exact UInt32.le_trans hle ((hs i hi).le _ (List.mem_map_of_mem hy))
  · rw [if_neg htr]
    exact iff_of_true ((hs i hi).concat _) fun h => absurd ((x.trace_bits_eq_zero_iff i).mpr h) htr

/-- What is not scored leaves the maxima. -/
theorem maximal_quiet {acts : List Act} {s s' : Hybrid} {dumb_mode : Bool} {a : Act} (hs : Maximal acts s)
    (ha : ∀ q x, a ≠ .score q x) (hstep : step true dumb_mode s a.event = some s') : Maximal (acts ++ [a]) s' := by
  cases a with
  | score q x => exact absurd rfl (ha q x)
  | cull =>
    intro i hi
    rw [cull_queue_max_hybrid hstep, scored, List.filterMap_append, List.filterMap_cons_none rfl, List.filterMap_nil,
      List.append_nil]
    exact hs i hi
  | other attrs queue TF_top_null pending_favored =>
    cases hstep
    intro i hi
    rw [scored, List.filterMap_append, List.filterMap_cons_none rfl, List.filterMap_nil, List.append_nil]
    exact hs i hi

/-- A running maximum needs the condition. -/
theorem RunningMax.unwrapped {dumb_mode : Bool} {entries : Entries} {queue : List ℕ} {acts : List Act}
    (h : RunningMax dumb_mode entries queue acts) : Unwrapped dumb_mode entries queue acts := by
  intro pre q x hpre hrun
  obtain ⟨s, hs⟩ := Option.ne_none_iff_exists'.mp hrun
  have hmax := (h pre s ((List.prefix_append pre _).trans hpre) hs).1
  have hnext := (h _ _ hpre (acted_concat.mpr ⟨s, hs, rfl⟩)).1
  exact (maximal_score_iff hmax q x).mp hnext

/-- A new maximum is not found in the map that was just scored. -/
theorem Maximal.scored {acts : List Act} {s : Hybrid} {q : ℕ} {x : Traversals} (h : Maximal (acts ++ [.score q x]) s) :
    has_max_metric x.hybrid_bits s.max_hybrid = false := by
  rw [← Bool.not_eq_true, has_max_metric_iff]
  rintro ⟨i, hi, hlt⟩
  have hmem : x ∈ Afl.scored (acts ++ [.score q x]) := by
    rw [scored_concat_score]
    exact List.mem_append_right _ (List.mem_singleton_self x)
  have hle : x.hybrid_bits i ≤ s.max_hybrid i := (h i hi).le _ (List.mem_map.mpr ⟨x, hmem, rfl⟩)
  exact UInt32.not_lt.mpr hle hlt

/-- The condition is enough. -/
theorem Unwrapped.runningMax {dumb_mode : Bool} {entries : Entries} {queue : List ℕ} {acts : List Act}
    (h : Unwrapped dumb_mode entries queue acts) : RunningMax dumb_mode entries queue acts := by
  intro pre
  induction pre using List.reverseRecOn with
  | nil =>
    intro s _ hs
    cases hs
    exact ⟨fun i _ => ⟨fun c hc => absurd hc List.not_mem_nil, .inl rfl⟩, by simp⟩
  | append_singleton pre a ih =>
    intro s' hpre hs'
    obtain ⟨s, hs, hstep⟩ := acted_concat.mp hs'
    have hmax := (ih s ((List.prefix_append pre _).trans hpre) hs).1
    have hnext : Maximal (pre ++ [a]) s' := by
      cases a with
      | score q x =>
        cases hstep
        exact (maximal_score_iff hmax q x).mpr (h pre q x hpre (hs ▸ Option.some_ne_none s))
      | cull => exact maximal_quiet hmax (by simp) hstep
      | other attrs queue TF_top_null pending_favored => exact maximal_quiet hmax (by simp) hstep
    refine ⟨hnext, fun pre' q x heq => ?_⟩
    rw [heq] at hnext
    exact hnext.scored

/-- **The maximum of the hybrid map.** After each call of `update_bitmap_score`, `max_hybrid` is the maximum of the hybrid
maps so far, and `has_max_metric` reports nothing for the map just scored, if and only if no edge is traversed a multiple
of 256 times (its trace byte is then zero, and the slot is skipped) by an execution that sets a new maximum there. -/
theorem running_max_iff (dumb_mode : Bool) (entries : Entries) (queue : List ℕ) (acts : List Act) :
    RunningMax dumb_mode entries queue acts ↔ Unwrapped dumb_mode entries queue acts :=
  ⟨RunningMax.unwrapped, Unwrapped.runningMax⟩

/-- A loop that enters a favored block 256 times. -/
def loop256 : Traversals := List.replicate 256 (0, true)

/-- 256 traversals of a favored edge leave the maximum at 0. -/
theorem not_running_max : ¬ ∀ (dumb_mode : Bool) (entries : Entries) (queue : List ℕ) (acts : List Act),
    RunningMax dumb_mode entries queue acts := by
  intro h
  have hcond := (h false (fun _ => added false) [] [.score 0 loop256]).unwrapped
  have hhits : loop256.hits 0 = 256 := List.countP_replicate ..
  have hhybrid : loop256.hybrid_bits 0 = 256 := by
    have hcount : loop256.favored_hits 0 = 256 := List.countP_replicate ..
    rw [Traversals.hybrid_bits, hcount]
    rfl
  obtain h0 | ⟨y, hy, -⟩ := hcond [] 0 loop256 (List.prefix_refl _) (Option.some_ne_none _) 0 zero_lt_MAP_SIZE
    (by rw [hhits])
  · rw [hhybrid] at h0
    exact absurd h0 (by decide)
  · exact absurd hy List.not_mem_nil

end Hybrid

end SEDiff.Afl
