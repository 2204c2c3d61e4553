import SEDiff.Foundation.Steps
import SEDiff.Afl.Runs

/-!
# Favored entries of the hybrid fuzzer

The calls of the hybrid fuzzer that bear on its favored entries, with `TF_switch` on: scoring, culling,
the end of `fuzz_one`, and what else happens to the queue.

## What is proved

* `Hybrid.update_slot_quiet`, `Hybrid.update_bitmap_score_quiet` — scoring leaves the favored entries, the
  fuzzed entries and the counters alone, and gives slots to the entry that is scored only.
* `Hybrid.call_queued` — every entry that is favored or holds a slot is in the queue, in every run.
-/

namespace SEDiff.Afl

open Foundation

/-- What is measured again of an entry. -/
structure Measure where
  /-- Input length. -/
  len : UInt32
  /-- Triggers new incorrect. -/
  has_new_incorrect : Bool
  /-- Execution time (us). -/
  exec_us : UInt64

/-- What the fuzzer calls. -/
inductive Call
  /-- `update_bitmap_score(q)`, with these trace and hybrid maps. -/
  | update_bitmap_score (q : ℕ) (trace_bits : ℕ → UInt8) (hybrid_bits : ℕ → UInt32)
  /-- `cull_queue()`. -/
  | cull_queue
  /-- The end of `fuzz_one`. -/
  | abandon_entry (queue_cur : ℕ) (stop_soon cal_failed : Bool)
  /-- Anything else: entries are added and measured, and `TF_top_null` is set. -/
  | other (measures : ℕ → Measure) (added : List ℕ) (TF_top_null : Bool)

/-- The entries, measured again. -/
def Entries.measure (es : Entries) (measures : ℕ → Measure) : Entries := fun e =>
  { es e with
    len := (measures e).len
    has_new_incorrect := (measures e).has_new_incorrect
    exec_us := (measures e).exec_us }

namespace Hybrid

/-- `abandon_entry` of `fuzz_one`. -/
def abandon_entry (s : Hybrid) (queue_cur : ℕ) (stop_soon cal_failed : Bool) : Hybrid :=
  if !stop_soon && !cal_failed && !(s.entries queue_cur).was_fuzzed then
    { s with
      entries := Function.update s.entries queue_cur { s.entries queue_cur with was_fuzzed := true }
      pending_favored :=
        if (s.entries queue_cur).favored then s.pending_favored - 1 else s.pending_favored }
  else s

/-- One call with `TF_switch` on. Reading a null `trace_mini` is `none`. -/
def call (dumb_mode : Bool) (s : Hybrid) : Call → Option Hybrid
  | .update_bitmap_score q trace_bits hybrid_bits =>
    some (s.update_bitmap_score true q trace_bits hybrid_bits)
  | .cull_queue => s.cull_queue true dumb_mode
  | .abandon_entry queue_cur stop_soon cal_failed => some (s.abandon_entry queue_cur stop_soon cal_failed)
  | .other measures added TF_top_null =>
    some { s with
      entries := s.entries.measure measures
      queue := s.queue ++ added
      TF_top_null := TF_top_null }

/-- What the callers see to: the entry that is scored or fuzzed is in the queue, and an entry is added
once. In dumb mode the target does not get the trace map. -/
def CallValid (dumb_mode : Bool) (s : Hybrid) : Call → Prop
  | .update_bitmap_score q trace_bits _ =>
    q ∈ s.queue ∧ (dumb_mode = true → ∀ i < MAP_SIZE, trace_bits i = 0)
  | .cull_queue => True
  | .abandon_entry queue_cur _ _ => queue_cur ∈ s.queue
  | .other _ added _ => (s.queue ++ added).Nodup

/-- Nothing favored, nothing held, nothing counted: the fuzzer as it starts. -/
structure Starts (s : Hybrid) : Prop where
  /-- No entry is favored. -/
  favored : ∀ e, (s.entries e).favored = false
  /-- No slot of `top_rated` is taken. -/
  top_rated : ∀ i, s.top_rated i = none
  /-- No slot of `top_rated_orig` is taken. -/
  top_rated_orig : ∀ i, s.top_rated_orig i = none
  /-- Nothing was scored. -/
  score_changed : s.score_changed = false
  /-- No favored entry is counted. -/
  queued_favored : s.queued_favored = 0
  /-- No pending one either. -/
  pending_favored : s.pending_favored = 0
  /-- The queue lists an entry once. -/
  nodup : s.queue.Nodup

/-- The fuzzer starts with entries that were just added. -/
theorem init_starts (has_new_incorrect : ℕ → Bool) {queue : List ℕ} (hnd : queue.Nodup) :
    (init (fun e => added (has_new_incorrect e)) queue).Starts :=
  ⟨fun _ => rfl, fun _ => rfl, fun _ => rfl, rfl, rfl, rfl, hnd⟩

end Hybrid

/-! ### Scoring -/

namespace Entries

/-- The same entries are favored, and the same were fuzzed. -/
def SameFlags (es es' : Entries) : Prop :=
  ∀ e, (es' e).favored = (es e).favored ∧ (es' e).was_fuzzed = (es e).was_fuzzed

theorem SameFlags.refl (es : Entries) : SameFlags es es := fun _ => ⟨rfl, rfl⟩

theorem SameFlags.trans {es₁ es₂ es₃ : Entries} (h₁₂ : SameFlags es₁ es₂) (h₂₃ : SameFlags es₂ es₃) :
    SameFlags es₁ es₃ :=
  fun e => ⟨(h₂₃ e).1.trans (h₁₂ e).1, (h₂₃ e).2.trans (h₁₂ e).2⟩

/-- An update of one entry that keeps its flags. -/
theorem sameFlags_update (es : Entries) (w : ℕ) {v : QueueEntry} (hf : v.favored = (es w).favored)
    (hz : v.was_fuzzed = (es w).was_fuzzed) : SameFlags es (Function.update es w v) := by
  intro e
  by_cases he : e = w
  · subst he
    rw [Function.update_self]
    exact ⟨hf, hz⟩
  · rw [Function.update_of_ne he]
    exact ⟨rfl, rfl⟩

/-- An entry that was fuzzed stays favored or not. -/
theorem favored_fuzz (es : Entries) (w e : ℕ) :
    (Function.update es w { es w with was_fuzzed := true } e).favored = (es e).favored := by
  by_cases he : e = w
  · subst he
    rw [Function.update_self]
  · rw [Function.update_of_ne he]

theorem sameFlags_release (es : Entries) (w : ℕ) : SameFlags es (es.release w) := sameFlags_update es w rfl rfl

theorem sameFlags_count (es : Entries) (q : ℕ) : SameFlags es (es.count q) := sameFlags_update es q rfl rfl

theorem sameFlags_keep (es : Entries) (q : ℕ) (trace_bits : ℕ → UInt8) : SameFlags es (es.keep q trace_bits) :=
  sameFlags_update es q rfl rfl

theorem sameFlags_win (es : Entries) (q : ℕ) (trace_bits : ℕ → UInt8) :
    SameFlags es ((es.count q).keep q trace_bits) :=
  (sameFlags_count es q).trans (sameFlags_keep (es.count q) q trace_bits)

end Entries

namespace Hybrid

/-- What scoring `q` leaves alone. -/
structure Quiet (s : Hybrid) (q : ℕ) (s' : Hybrid) : Prop where
  /-- The flags. -/
  flags : s.entries.SameFlags s'.entries
  /-- The queue. -/
  queue : s'.queue = s.queue
  /-- The number of favored entries. -/
  queued_favored : s'.queued_favored = s.queued_favored
  /-- The number of pending ones. -/
  pending_favored : s'.pending_favored = s.pending_favored
  /-- `TF_top_null`. -/
  TF_top_null : s'.TF_top_null = s.TF_top_null
  /-- Slots are given to `q` only. -/
  holds : ∀ e i, s'.Holds e i → e = q ∨ s.Holds e i

theorem Quiet.refl (s : Hybrid) (q : ℕ) : s.Quiet q s := ⟨.refl _, rfl, rfl, rfl, rfl, fun _ _ h => .inr h⟩

theorem Quiet.trans {s₁ s₂ s₃ : Hybrid} {q : ℕ} (h₁₂ : s₁.Quiet q s₂) (h₂₃ : s₂.Quiet q s₃) : s₁.Quiet q s₃ := by
  refine ⟨h₁₂.flags.trans h₂₃.flags, h₂₃.queue.trans h₁₂.queue, h₂₃.queued_favored.trans h₁₂.queued_favored,
    h₂₃.pending_favored.trans h₁₂.pending_favored, h₂₃.TF_top_null.trans h₁₂.TF_top_null, fun e i h => ?_⟩
  cases h₂₃.holds e i h with
  | inl he => exact .inl he
  | inr h => exact h₁₂.holds e i h

theorem release_quiet (s : Hybrid) (q w : ℕ) : s.Quiet q (s.release w) :=
  ⟨Entries.sameFlags_release _ _, rfl, rfl, rfl, rfl, fun _ _ h => .inr h⟩

/-- A slot of `top_rated` is overwritten by `q` or by nobody. -/
theorem update_top_holds (s : Hybrid) {q k : ℕ} {v : Option ℕ} (hv : ∀ e, v = some e → e = q) {e i : ℕ}
    (h : Function.update s.top_rated k v i = some e ∨ s.top_rated_orig i = some e) :
    e = q ∨ s.Holds e i := by
  rcases h with h | h
  · by_cases hi : i = k
    · rw [hi, Function.update_self] at h
      exact .inl (hv e h)
    · rw [Function.update_of_ne hi] at h
      exact .inr (.inl h)
  · exact .inr (.inr h)

theorem rate_quiet (s : Hybrid) {q k : ℕ} {v : Option ℕ} (hv : ∀ e, v = some e → e = q) : s.Quiet q (s.rate k v) :=
  ⟨.refl _, rfl, rfl, rfl, rfl, fun _ _ h => s.update_top_holds hv h⟩

theorem judge_quiet (q : ℕ) (trace_bits : ℕ → UInt8) (hybrid_bits : ℕ → UInt32) (s : Hybrid) (k : ℕ) :
    s.Quiet q (judge q trace_bits hybrid_bits s k) := by
  have hq : ∀ e, some q = some e → e = q := fun e he => (Option.some_inj.mp he).symm
  rw [judge]
  simp only
  split_ifs
  · exact ⟨Entries.sameFlags_win _ _ _, rfl, rfl, rfl, rfl, fun _ _ h => s.update_top_holds hq h⟩
  · exact ⟨Entries.sameFlags_update _ _ rfl rfl, rfl, rfl, rfl, rfl, fun _ _ h => s.update_top_holds hq h⟩
  · exact ⟨Entries.sameFlags_win _ _ _, rfl, rfl, rfl, rfl, fun _ _ h => s.update_top_holds hq h⟩

theorem takeOrig_quiet (s : Hybrid) (q k : ℕ) (trace_bits : ℕ → UInt8) : s.Quiet q (s.takeOrig q k trace_bits) := by
  refine ⟨Entries.sameFlags_win _ _ _, rfl, rfl, rfl, rfl, fun e i h => ?_⟩
  cases h with
  | inl h => exact .inr (.inl h)
  | inr h =>
    by_cases hi : i = k
    · have hself : (s.takeOrig q k trace_bits).top_rated_orig k = some q := Function.update_self ..
      rw [hi, hself] at h
      exact .inl (Option.some_inj.mp h).symm
    · have hother : (s.takeOrig q k trace_bits).top_rated_orig i = s.top_rated_orig i := Function.update_of_ne hi ..
      rw [hother] at h
      exact .inr (.inr h)

theorem record_orig_quiet (q : ℕ) (fav_factor : UInt64) (trace_bits : ℕ → UInt8) (s : Hybrid) (k : ℕ) :
    s.Quiet q (record_orig q fav_factor trace_bits s k) := by
  rw [record_orig]
  cases s.top_rated_orig k with
  | none => exact s.takeOrig_quiet q k trace_bits
  | some w =>
    simp only
    split_ifs
    · exact .refl s q
    · exact (s.release_quiet q w).trans ((s.release w).takeOrig_quiet q k trace_bits)

/-- **One slot** of `update_bitmap_score`. -/
theorem update_slot_quiet (q : ℕ) (fav_factor : UInt64) (trace_bits : ℕ → UInt8) (hybrid_bits : ℕ → UInt32)
    (s : Hybrid) (k : ℕ) : s.Quiet q (update_slot true q fav_factor trace_bits hybrid_bits s k) := by
  have hq : ∀ e, some q = some e → e = q := fun e he => (Option.some_inj.mp he).symm
  by_cases htr : trace_bits k = 0
  · rw [update_slot, if_pos htr]
    exact .refl s q
  rw [update_slot, if_neg htr]
  cases s.top_rated k with
  | none => exact (judge_quiet q trace_bits hybrid_bits s k).trans (record_orig_quiet q fav_factor trace_bits _ k)
  | some w =>
    simp only [if_true]
    split_ifs
    · exact ⟨.refl _, rfl, rfl, rfl, rfl, fun _ _ h => s.update_top_holds hq h⟩
    · exact ⟨.refl _, rfl, rfl, rfl, rfl, fun _ _ h => .inr h⟩
    · have hnone : ∀ e, none = some e → e = q := fun e he => absurd he.symm (Option.some_ne_none e)
      exact ((s.release_quiet q w).trans ((s.release w).rate_quiet hnone)).trans
        (record_orig_quiet q fav_factor trace_bits _ k)
    · exact ((s.release_quiet q w).trans (judge_quiet q trace_bits hybrid_bits _ k)).trans
        (record_orig_quiet q fav_factor trace_bits _ k)

/-- **Scoring** leaves the flags and the counters alone. -/
theorem update_bitmap_score_quiet (s : Hybrid) (q : ℕ) (trace_bits : ℕ → UInt8) (hybrid_bits : ℕ → UInt32) :
    s.Quiet q (s.update_bitmap_score true q trace_bits hybrid_bits) := by
  rw [update_bitmap_score]
  generalize (s.entries q).fav_factor = fav_factor
  induction List.range MAP_SIZE generalizing s with
  | nil => exact .refl s q
  | cons k ks ih => exact (update_slot_quiet q fav_factor trace_bits hybrid_bits s k).trans (ih _)

/-! ### Culling -/

theorem update_favored (es : Entries) (w e : ℕ) :
    (Function.update es w { es w with favored := true } e).favored = true ↔ e = w ∨ (es e).favored = true := by
  by_cases he : e = w
  · subst he
    rw [Function.update_self]
    exact iff_of_true rfl (.inl rfl)
  · rw [Function.update_of_ne he, or_iff_right he]

theorem update_was_fuzzed (es : Entries) (w e : ℕ) :
    (Function.update es w { es w with favored := true } e).was_fuzzed = (es e).was_fuzzed := by
  by_cases he : e = w
  · subst he
    rw [Function.update_self]
  · rw [Function.update_of_ne he]

/-- What a pass of `cull_queue` over slots does to the flags. -/
structure Pass (top_rated : ℕ → Option ℕ) (is : List ℕ) (c c' : Picks) : Prop where
  /-- Nothing becomes fuzzed. -/
  was_fuzzed : ∀ e, (c'.entries e).was_fuzzed = (c.entries e).was_fuzzed
  /-- Favored entries stay favored. -/
  mono : ∀ e, (c.entries e).favored = true → (c'.entries e).favored = true
  /-- Only winners become favored. -/
  winner : ∀ e, (c'.entries e).favored = true → (c.entries e).favored = true ∨ ∃ i ∈ is, top_rated i = some e

theorem Pass.refl (top_rated : ℕ → Option ℕ) (is : List ℕ) (c : Picks) : Pass top_rated is c c :=
  ⟨fun _ => rfl, fun _ => id, fun _ => .inl⟩

theorem Pass.cons {top_rated : ℕ → Option ℕ} {i : ℕ} {is : List ℕ} {c₁ c₂ c₃ : Picks}
    (h₁₂ : Pass top_rated [i] c₁ c₂) (h₂₃ : Pass top_rated is c₂ c₃) : Pass top_rated (i :: is) c₁ c₃ := by
  refine ⟨fun e => (h₂₃.was_fuzzed e).trans (h₁₂.was_fuzzed e), fun e h => h₂₃.mono e (h₁₂.mono e h), fun e h => ?_⟩
  cases h₂₃.winner e h with
  | inr hw =>
    obtain ⟨j, hj, hw⟩ := hw
    exact .inr ⟨j, List.mem_cons_of_mem _ hj, hw⟩
  | inl h =>
    refine (h₁₂.winner e h).imp_right ?_
    rintro ⟨j, hj, hw⟩
    rw [List.mem_singleton] at hj
    exact ⟨j, hj ▸ List.mem_cons_self, hw⟩

/-- The winner of slot `i` becomes favored. -/
theorem Pass.one {top_rated : ℕ → Option ℕ} {i w : ℕ} (hw : top_rated i = some w) (c : Picks) {c' : Picks}
    (hc : c'.entries = Function.update c.entries w { c.entries w with favored := true }) : Pass top_rated [i] c c' := by
  refine ⟨fun e => ?_, fun e h => ?_, fun e h => ?_⟩
  · rw [hc, update_was_fuzzed]
  · rw [hc, update_favored]
    exact .inr h
  · rw [hc, update_favored] at h
    cases h with
    | inl he => exact .inr ⟨i, List.mem_cons_self, by rw [hw, he]⟩
    | inr h => exact .inl h

theorem favor_pass (top_rated : ℕ → Option ℕ) (c : Picks) (i : ℕ) : Pass top_rated [i] c (favor top_rated c i) := by
  rw [favor]
  cases hw : top_rated i with
  | none => exact .refl _ _ c
  | some w =>
    simp only
    split_ifs
    · exact .refl _ _ c
    · exact .one hw c rfl
    · exact .one hw c rfl

theorem foldl_favor_pass (top_rated : ℕ → Option ℕ) (is : List ℕ) (c : Picks) :
    Pass top_rated is c (is.foldl (favor top_rated) c) := by
  induction is generalizing c with
  | nil => exact .refl _ _ c
  | cons i is ih => exact (favor_pass top_rated c i).cons (ih _)

theorem pick_pass {top_rated : ℕ → Option ℕ} {c c' : Picks} {i : ℕ} (hpick : pick top_rated c i = some c') :
    Pass top_rated [i] c c' := by
  rw [pick] at hpick
  cases hw : top_rated i with
  | none =>
    rw [hw] at hpick
    cases hpick
    exact .refl _ _ c
  | some w =>
    simp only [hw] at hpick
    split at hpick
    · obtain ⟨mini, -, hc⟩ := Option.bind_eq_some_iff.mp hpick
      cases hc
      exact .one hw c rfl
    · cases hpick
      exact .refl _ _ _

theorem foldlM_pick_pass {top_rated : ℕ → Option ℕ} (is : List ℕ) {c c' : Picks}
    (hrun : is.foldlM (pick top_rated) c = some c') : Pass top_rated is c c' := by
  induction is generalizing c with
  | nil =>
    cases hrun
    exact .refl _ _ _
  | cons i is ih =>
    rw [List.foldlM_cons] at hrun
    obtain ⟨c₁, hpick, hrest⟩ := Option.bind_eq_some_iff.mp hrun
    exact (pick_pass hpick).cons (ih hrest)

/-- The picks before a pass. -/
def fresh_picks (s : Hybrid) : Picks := ⟨s.entries.clear s.queue, fun _ => true, 0, 0⟩

/-- The pass of `cull_queue` over `top_rated`. -/
def favor_all (s : Hybrid) : Picks := (List.range MAP_SIZE).foldl (favor s.top_rated) s.fresh_picks

/-- What a cull that recomputes the flags makes of the fuzzer. -/
def culled (s : Hybrid) : Hybrid :=
  ({ s with TF_top_null := false, score_changed := false } : Hybrid).settle s.favor_all

theorem culled_score_changed (s : Hybrid) : s.culled.score_changed = false := rfl

theorem culled_TF_top_null (s : Hybrid) : s.culled.TF_top_null = false := rfl

theorem culled_top_rated (s : Hybrid) : s.culled.top_rated = s.top_rated := rfl

theorem culled_max_hybrid (s : Hybrid) : s.culled.max_hybrid = s.max_hybrid := rfl

theorem culled_queue (s : Hybrid) : s.culled.queue = s.queue := rfl

/-- What `altern` does. -/
theorem altern_cases {s s' : Hybrid} (hrun : s.altern true = some s') :
    (s.TF_top_null = false ∧ s' = s) ∨
      (s.TF_top_null = true ∧ ∃ c, pick_all s.entries s.queue s.top_rated_orig = some c ∧ s' = s.settle c) := by
  rw [altern] at hrun
  cases hnull : s.TF_top_null with
  | false =>
    rw [hnull] at hrun
    cases hrun
    exact .inl ⟨rfl, rfl⟩
  | true =>
    rw [hnull] at hrun
    obtain ⟨c, hc, hs⟩ := Option.bind_eq_some_iff.mp hrun
    cases hs
    exact .inr ⟨rfl, c, hc, rfl⟩

/-- What `cull_queue` does: it favors the winners of `top_rated` when there is something new, and else
leaves it to `altern`. -/
theorem cull_queue_cases {dumb_mode : Bool} {s s' : Hybrid} (hrun : s.cull_queue true dumb_mode = some s') :
    ((dumb_mode = true ∨ s.score_changed = false) ∧ s.altern true = some s') ∨
      (dumb_mode = false ∧ s.score_changed = true ∧
        s' = s.culled) := by
  rw [cull_queue] at hrun
  cases hd : dumb_mode || !s.score_changed with
  | true =>
    rw [hd] at hrun
    exact .inl ⟨by simpa using hd, hrun⟩
  | false =>
    rw [hd] at hrun
    obtain ⟨hdumb, hsc⟩ : dumb_mode = false ∧ s.score_changed = true := by simpa using hd
    cases hrun
    exact .inr ⟨hdumb, hsc, rfl⟩

/-- A cull that recomputes the flags. -/
theorem call_cull {s : Hybrid} (hset : s.score_changed = true) :
    s.call false .cull_queue =
      some s.culled := by
  rw [call, cull_queue, hset]
  rfl

/-- `queue_cur` was fuzzed. -/
def fuzzed (s : Hybrid) (queue_cur : ℕ) : Hybrid :=
  { s with
    entries := Function.update s.entries queue_cur { s.entries queue_cur with was_fuzzed := true }
    pending_favored := if (s.entries queue_cur).favored then s.pending_favored - 1 else s.pending_favored }

/-- What the end of `fuzz_one` does. -/
theorem abandon_entry_cases (s : Hybrid) (queue_cur : ℕ) (stop_soon cal_failed : Bool) :
    s.abandon_entry queue_cur stop_soon cal_failed = s ∨
      ((s.entries queue_cur).was_fuzzed = false ∧
        s.abandon_entry queue_cur stop_soon cal_failed = s.fuzzed queue_cur) := by
  rw [abandon_entry]
  by_cases hf : (!stop_soon && !cal_failed && !(s.entries queue_cur).was_fuzzed) = true
  · rw [if_pos hf]
    exact .inr ⟨by simpa using (Bool.and_eq_true_iff.mp hf).2, rfl⟩
  · rw [if_neg hf]
    exact .inl rfl

/-! ### The queue -/

/-- What is favored or held is in the queue. -/
structure Queued (s : Hybrid) : Prop where
  /-- The queue lists an entry once. -/
  nodup : s.queue.Nodup
  /-- Favored entries are listed. -/
  favored : ∀ e, (s.entries e).favored = true → e ∈ s.queue
  /-- So are the winners of slots. -/
  holds : ∀ e i, s.Holds e i → e ∈ s.queue

theorem Starts.queued {s : Hybrid} (hs : s.Starts) : s.Queued := by
  refine ⟨hs.nodup, fun e he => ?_, fun e i he => ?_⟩
  · rw [hs.favored] at he
    cases he
  · rw [Holds, hs.top_rated, hs.top_rated_orig] at he
    cases he <;> contradiction

/-- Nothing is favored when a pass starts. -/
theorem Queued.fresh {s : Hybrid} (hs : s.Queued) (e : ℕ) : (s.fresh_picks.entries e).favored = false := by
  show (s.entries.clear s.queue e).favored = false
  rw [Entries.clear]
  split_ifs with he
  · rfl
  · exact Bool.eq_false_iff.mpr fun h => he (hs.favored e h)

theorem fresh_was_fuzzed (s : Hybrid) (e : ℕ) :
    (s.fresh_picks.entries e).was_fuzzed = (s.entries e).was_fuzzed := by
  show (s.entries.clear s.queue e).was_fuzzed = _
  rw [Entries.clear]
  split_ifs <;> rfl

theorem settle_favored (s : Hybrid) (c : Picks) (e : ℕ) :
    ((s.settle c).entries e).favored = (c.entries e).favored := by
  show (c.entries.mark s.queue e).favored = _
  rw [Entries.mark]
  split_ifs <;> rfl

theorem settle_was_fuzzed (s : Hybrid) (c : Picks) (e : ℕ) :
    ((s.settle c).entries e).was_fuzzed = (c.entries e).was_fuzzed := by
  show (c.entries.mark s.queue e).was_fuzzed = _
  rw [Entries.mark]
  split_ifs <;> rfl

theorem settle_queued {s : Hybrid} (hs : s.Queued) {top_rated : ℕ → Option ℕ}
    (htop : ∀ e i, top_rated i = some e → e ∈ s.queue) {is : List ℕ} {c : Picks} (hp : Pass top_rated is s.fresh_picks c) :
    (s.settle c).Queued := by
  refine ⟨hs.nodup, fun e he => ?_, fun e i he => hs.holds e i he⟩
  rw [settle_favored] at he
  cases hp.winner e he with
  | inl h =>
    rw [hs.fresh e] at h
    cases h
  | inr h =>
    obtain ⟨i, -, hi⟩ := h
    exact htop e i hi

theorem altern_queued {s s' : Hybrid} (hs : s.Queued) (hrun : s.altern true = some s') : s'.Queued := by
  cases altern_cases hrun with
  | inl h => exact h.2 ▸ hs
  | inr h =>
    obtain ⟨-, c, hc, rfl⟩ := h
    exact settle_queued hs (fun e i he => hs.holds e i (.inr he)) (foldlM_pick_pass _ hc)

/-- **Every call** keeps what is favored or held in the queue. -/
theorem call_queued {dumb_mode : Bool} {s s' : Hybrid} (hs : s.Queued) {ev : Call} (hv : s.CallValid dumb_mode ev)
    (hstep : s.call dumb_mode ev = some s') : s'.Queued := by
  cases ev with
  | update_bitmap_score q trace_bits hybrid_bits =>
    cases hstep
    have hq := s.update_bitmap_score_quiet q trace_bits hybrid_bits
    refine ⟨?_, fun e he => ?_, fun e i he => ?_⟩
    · rw [hq.queue]
      exact hs.nodup
    · rw [(hq.flags e).1] at he
      rw [hq.queue]
      exact hs.favored e he
    · rw [hq.queue]
      cases hq.holds e i he with
      | inl h => exact h ▸ hv.1
      | inr h => exact hs.holds e i h
  | cull_queue =>
    cases cull_queue_cases hstep with
    | inl h => exact altern_queued hs h.2
    | inr h =>
      obtain ⟨-, -, rfl⟩ := h
      have hs₁ : ({ s with TF_top_null := false, score_changed := false } : Hybrid).Queued :=
        ⟨hs.nodup, hs.favored, hs.holds⟩
      rw [culled]
      exact settle_queued hs₁ (fun e i he => hs.holds e i (.inl he)) (foldl_favor_pass s.top_rated _ s.fresh_picks)
  | abandon_entry queue_cur stop_soon cal_failed =>
    cases hstep
    cases s.abandon_entry_cases queue_cur stop_soon cal_failed with
    | inl h =>
      rw [h]
      exact hs
    | inr h =>
      rw [h.2]
      refine ⟨hs.nodup, fun e he => hs.favored e ?_, fun e i he => hs.holds e i he⟩
      exact (Entries.favored_fuzz s.entries queue_cur e).symm.trans he
  | other measures added TF_top_null =>
    cases hstep
    exact ⟨hv, fun e he => List.mem_append_left _ (hs.favored e he),
      fun e i he => List.mem_append_left _ (hs.holds e i he)⟩

end Hybrid

end SEDiff.Afl
