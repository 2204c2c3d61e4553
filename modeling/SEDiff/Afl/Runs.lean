import SEDiff.Afl.Cull

/-!
# Runs of the fuzzers

A run calls `update_bitmap_score` and `cull_queue` in any order. Between the calls the rest of the
fuzzer may change what it likes of the queue and of the entries, but not their `tc_ref`,
`trace_mini` and `favored`.

## What is proved

* `Hybrid.tf_reference_counts` — with `TF_switch` on, runs of balanced calls keep every
  reference count right and never read a null `trace_mini`.
-/

namespace SEDiff.Afl

open Foundation

/-- What the rest of the fuzzer writes of an entry. -/
structure Attrs where
  /-- Input length. -/
  len : UInt32
  /-- Had any fuzzing done yet? -/
  was_fuzzed : Bool
  /-- Triggers new incorrect. -/
  has_new_incorrect : Bool
  /-- Execution time (us). -/
  exec_us : UInt64

/-- What happens in a run. -/
inductive Event
  /-- `update_bitmap_score(q)`, with these trace and hybrid maps. -/
  | update (q : ℕ) (trace_bits : ℕ → UInt8) (hybrid_bits : ℕ → UInt32)
  /-- `cull_queue()`. -/
  | cull
  /-- Anything else. -/
  | other (attrs : ℕ → Attrs) (queue : List ℕ) (TF_top_null : Bool) (pending_favored : UInt32)

/-- A trace map with byte 0 only. -/
def byteZero : ℕ → UInt8 := fun i => if i = 0 then 1 else 0

/-- A trace map with the bytes 1 and 2 only. -/
def bytesOneTwo : ℕ → UInt8 := fun i => if i = 1 ∨ i = 2 then 1 else 0

/-- An entry that was just added. -/
def added (has_new_incorrect : Bool) : QueueEntry := ⟨1, false, has_new_incorrect, false, false, 1, none, 0⟩

/-- The entries with new attributes. -/
def Entries.assign (es : Entries) (attrs : ℕ → Attrs) : Entries := fun e =>
  { es e with
    len := (attrs e).len
    was_fuzzed := (attrs e).was_fuzzed
    has_new_incorrect := (attrs e).has_new_incorrect
    exec_us := (attrs e).exec_us }

namespace Fuzzer

/-- No slot is taken. -/
def init (entries : Entries) (queue : List ℕ) : Fuzzer := ⟨entries, queue, fun _ => none, false, 0, 0⟩

/-- One event of the base fuzzer. -/
def step (dumb_mode : Bool) (s : Fuzzer) : Event → Option Fuzzer
  | .update q trace_bits _ => some (s.update_bitmap_score q trace_bits)
  | .cull => s.cull_queue dumb_mode
  | .other attrs queue _ pending_favored =>
    some { s with entries := s.entries.assign attrs, queue := queue, pending_favored := pending_favored }

/-- A run of the base fuzzer. -/
def run (dumb_mode : Bool) (s : Fuzzer) (evs : List Event) : Option Fuzzer := evs.foldlM (step dumb_mode) s

end Fuzzer

namespace Hybrid

/-- No slot is taken. -/
def init (entries : Entries) (queue : List ℕ) : Hybrid :=
  { Fuzzer.init entries queue with
    top_rated_orig := fun _ => none
    max_hybrid := fun _ => 0
    TF_top_null := false }

/-- One event of the hybrid fuzzer. -/
def step (TF_switch dumb_mode : Bool) (s : Hybrid) : Event → Option Hybrid
  | .update q trace_bits hybrid_bits => some (s.update_bitmap_score TF_switch q trace_bits hybrid_bits)
  | .cull => s.cull_queue TF_switch dumb_mode
  | .other attrs queue TF_top_null pending_favored =>
    some { s with
      entries := s.entries.assign attrs
      queue := queue
      TF_top_null := TF_top_null
      pending_favored := pending_favored }

/-- A run of the hybrid fuzzer. -/
def run (TF_switch dumb_mode : Bool) (s : Hybrid) (evs : List Event) : Option Hybrid :=
  evs.foldlM (step TF_switch dumb_mode) s

end Hybrid

/-- Entries that no slot holds yet. -/
def Entries.Fresh (es : Entries) : Prop := ∀ e, (es e).tc_ref = 0 ∧ (es e).trace_mini = none

theorem Entries.sameRefs_assign (es : Entries) (attrs : ℕ → Attrs) : es.SameRefs (es.assign attrs) :=
  fun _ => ⟨rfl, rfl⟩

/-! ### Reference counts with `TF_switch` on -/

namespace Hybrid

theorem refInv_init {entries : Entries} (hf : entries.Fresh) (queue : List ℕ) :
    (init entries queue).RefInv := by
  have h0 : ∀ e, (init entries queue).refs e = 0 := fun e =>
    Nat.add_eq_zero_iff.mpr ⟨slots_none MAP_SIZE e, slots_none MAP_SIZE e⟩
  refine ⟨fun e => ?_, fun e hpos => ?_, fun e _ => (hf e).2⟩
  · rw [h0 e]
    show (entries e).tc_ref.toNat = 0
    rw [(hf e).1]
    rfl
  · rw [h0 e] at hpos
    exact absurd hpos (Nat.lt_irrefl 0)

/-- Every call of the run is balanced. -/
def RunBalanced (dumb_mode : Bool) : Hybrid → List Event → Prop
  | _, [] => True
  | s, ev :: evs =>
    (match ev with
      | .update q trace_bits hybrid_bits => s.Balanced q trace_bits hybrid_bits
      | _ => True) ∧
    match s.step true dumb_mode ev with
    | some s' => RunBalanced dumb_mode s' evs
    | none => True

/-- One event keeps the counts right. -/
theorem step_refInv {s : Hybrid} (hs : s.RefInv) (dumb_mode : Bool) {ev : Event} {evs : List Event}
    (hb : s.RunBalanced dumb_mode (ev :: evs)) :
    ∃ s', s.step true dumb_mode ev = some s' ∧ s'.RefInv := by
  cases ev with
  | update q trace_bits hybrid_bits => exact ⟨_, rfl, update_bitmap_score_refInv hs hb.1⟩
  | cull => exact cull_queue_refInv hs true dumb_mode
  | other attrs queue TF_top_null pending =>
    exact ⟨_, rfl, hs.congr rfl rfl (Entries.sameRefs_assign _ _)⟩

theorem run_refInv {s : Hybrid} (hs : s.RefInv) (dumb_mode : Bool) {evs : List Event}
    (hb : s.RunBalanced dumb_mode evs) : ∃ s', s.run true dumb_mode evs = some s' ∧ s'.RefInv := by
  induction evs generalizing s with
  | nil => exact ⟨s, rfl, hs⟩
  | cons ev evs ih =>
    obtain ⟨s₁, hstep, hs₁⟩ := step_refInv hs dumb_mode hb
    have hrest : s₁.RunBalanced dumb_mode evs := by
      have := hb.2
      rwa [hstep] at this
    obtain ⟨s', hrun, hs'⟩ := ih hs₁ hrest
    refine ⟨s', ?_, hs'⟩
    rw [run, List.foldlM_cons, hstep]
    exact hrun

/-- Scoring the first bytes is deciding the first slots. -/
theorem update_bitmap_score_first (s : Hybrid) (TF_switch : Bool) (q : ℕ) {trace_bits : ℕ → UInt8}
    (hybrid_bits : ℕ → UInt32) {k : ℕ} (hk : k ≤ MAP_SIZE) (hz : ∀ i, k ≤ i → trace_bits i = 0) :
    s.update_bitmap_score TF_switch q trace_bits hybrid_bits =
      (List.range k).foldl (update_slot TF_switch q (s.entries q).fav_factor trace_bits hybrid_bits) s := by
  have hrest : ∀ (is : List ℕ) (t : Hybrid), (is.map fun i => k + i).foldl
      (update_slot TF_switch q (s.entries q).fav_factor trace_bits hybrid_bits) t = t := by
    intro is t
    induction is with
    | nil => rfl
    | cons i is ih =>
      rw [List.map_cons, List.foldl_cons, update_slot, if_pos (hz (k + i) (Nat.le_add_right k i))]
      exact ih
  obtain ⟨m, hm⟩ := Nat.exists_eq_add_of_le hk
  rw [update_bitmap_score, hm, List.range_add, List.foldl_append, hrest]

theorem zero_lt_MAP_SIZE : 0 < MAP_SIZE := by
  rw [MAP_SIZE_eq]
  decide

/-- Scoring one byte is deciding one slot. -/
theorem update_bitmap_score_byteZero (s : Hybrid) (TF_switch : Bool) (q : ℕ) (hybrid_bits : ℕ → UInt32) :
    s.update_bitmap_score TF_switch q byteZero hybrid_bits =
      update_slot TF_switch q (s.entries q).fav_factor byteZero hybrid_bits s 0 :=
  update_bitmap_score_first s TF_switch q hybrid_bits zero_lt_MAP_SIZE fun _ hi => if_neg (Nat.ne_of_gt hi)

/-- **Reference counts**: after a run of balanced calls with `TF_switch` on, `tc_ref` is the number
of slots that hold the entry, and every entry that is held has its `trace_mini`. -/
theorem tf_reference_counts (dumb_mode : Bool) {entries : Entries} (hf : entries.Fresh)
    (queue : List ℕ) (evs : List Event) (hb : (init entries queue).RunBalanced dumb_mode evs) :
    ∃ s, (init entries queue).run true dumb_mode evs = some s ∧
      (∀ e, (s.entries e).tc_ref.toNat =
        slots MAP_SIZE s.top_rated e + slots MAP_SIZE s.top_rated_orig e) ∧
      ∀ i < MAP_SIZE, ∀ e, s.top_rated i = some e ∨ s.top_rated_orig i = some e →
        (s.entries e).trace_mini ≠ none := by
  obtain ⟨s, hrun, hs⟩ := run_refInv (refInv_init hf queue) dumb_mode hb
  exact ⟨s, hrun, hs.counted, fun i hi e he => hs.trace_mini hi he⟩

/-- An incorrect entry that beats the maximum of every slot it scores gives a balanced call. -/
theorem balanced_of_exceeds {s : Hybrid} {q : ℕ} {trace_bits : ℕ → UInt8} {hybrid_bits : ℕ → UInt32}
    (hlt : ∀ i, trace_bits i ≠ 0 → s.max_hybrid i < hybrid_bits i) :
    s.Balanced q trace_bits hybrid_bits := by
  refine ⟨fun i _ hst => ?_, fun i _ hun _ => ?_⟩
  · obtain ⟨-, htr, ⟨-, hfrozen⟩, -⟩ := hst
    exact UInt32.lt_irrefl _ (UInt32.lt_trans hfrozen (hlt i htr))
  · obtain ⟨-, htr, -, hle⟩ := hun
    exact absurd (hlt i htr) (UInt32.not_lt.mpr hle)

/-- A cull is balanced. -/
theorem runBalanced_cull (s : Hybrid) (dumb_mode : Bool) : s.RunBalanced dumb_mode [.cull] := by
  refine ⟨trivial, ?_⟩
  split <;> trivial

/-- Three entries, the second of which is incorrect and takes a slot of the first one. -/
theorem tf_reference_counts_three : ∃ s,
    (init (fun e => added (e == 1)) [0, 1, 2]).run true false
        [.update 0 byteZero fun _ => 5, .update 1 byteZero fun _ => 7, .update 2 bytesOneTwo fun _ => 3, .cull] = some s ∧
      (∀ e, (s.entries e).tc_ref.toNat =
        slots MAP_SIZE s.top_rated e + slots MAP_SIZE s.top_rated_orig e) ∧
      ∀ i < MAP_SIZE, ∀ e, s.top_rated i = some e ∨ s.top_rated_orig i = some e →
        (s.entries e).trace_mini ≠ none := by
  refine tf_reference_counts false (fun _ => ⟨rfl, rfl⟩) [0, 1, 2] _ ⟨balanced_of_exceeds fun i _ => ?_,
    balanced_of_exceeds fun i hi => ?_, balanced_of_exceeds fun i hi => ?_, runBalanced_cull _ _⟩
  · show (0 : UInt32) < 5
    decide
  · obtain rfl : i = 0 := by
      by_contra h
      exact hi (if_neg h)
    rw [update_bitmap_score_byteZero]
    show (5 : UInt32) < 7
    decide
  · rw [update_bitmap_score_byteZero, update_bitmap_score_byteZero]
    obtain rfl | rfl : i = 1 ∨ i = 2 := by
      by_contra h
      exact hi (if_neg h)
    · show (0 : UInt32) < 3
      decide
    · show (0 : UInt32) < 3
      decide

/-- An incorrect entry takes a slot with a larger maximum: it holds the slot with `tc_ref` zero. -/
theorem not_tf_reference_counts : ¬ ∀ (dumb_mode : Bool) (entries : Entries), entries.Fresh →
    ∀ (queue : List ℕ) (evs : List Event),
      (∀ ev ∈ evs, ∃ q trace_bits hybrid_bits, ev = .update q trace_bits hybrid_bits) →
      ∃ s, (init entries queue).run true dumb_mode evs = some s ∧
        (∀ e, (s.entries e).tc_ref.toNat =
          slots MAP_SIZE s.top_rated e + slots MAP_SIZE s.top_rated_orig e) ∧
        ∀ i < MAP_SIZE, ∀ e, s.top_rated i = some e ∨ s.top_rated_orig i = some e →
          (s.entries e).trace_mini ≠ none := by
  intro hall
  obtain ⟨s, hrun, hcount, -⟩ := hall false (fun e => added (e == 1)) (fun _ => ⟨rfl, rfl⟩) [0, 1]
    [.update 0 byteZero fun _ => 5, .update 1 byteZero fun _ => 3] (by simp)
  have hs : ((init (fun e => added (e == 1)) [0, 1]).update_bitmap_score true 0 byteZero
      fun _ => 5).update_bitmap_score true 1 byteZero (fun _ => 3) = s := Option.some_inj.mp hrun
  rw [update_bitmap_score_byteZero, update_bitmap_score_byteZero] at hs
  have htop : s.top_rated 0 = some 1 := by
    rw [← hs]
    rfl
  have hzero : (s.entries 1).tc_ref = 0 := by
    rw [← hs]
    rfl
  have hheld : 0 < slots MAP_SIZE s.top_rated 1 := slots_pos_iff.mpr ⟨0, by
    rw [MAP_SIZE_eq]
    decide, htop⟩
  have h1 := hcount 1
  rw [hzero, UInt32.toNat_zero] at h1
  omega

end Hybrid

end SEDiff.Afl
