import SEDiff.Afl.Saving

/-!
# The books of the queue

`queued_paths`, `pending_not_fuzzed`, `queued_with_cov`, `queued_with_hybrid`, `queued_with_incorrect` and
`queued_variable` over a whole run of `src/afl/hybrid_metric/afl-fuzz.c`: `add_to_queue`, `save_if_interesting`,
`calibrate_case`, the end of `fuzz_one`, and anything else that leaves these books alone.

## What is proved

* `Saver.Books.raise` — a flag that was not set is set, and counted.
* `Saver.calibrate_case_books`, `Saver.save_if_interesting_books`, `Saver.abandon_entry_books` — each operation keeps
  the books.
* `Saver.queue_books` — the counters agree with the queue in all of a run, and nothing is counted down below zero.
-/

namespace SEDiff.Afl

open Foundation

/-! ### Counters -/

/-- A counter of the entries with a flag, modulo `2 ^ 32`. -/
def Tracks (c : UInt32) (queue : List ℕ) (p : ℕ → Bool) : Prop := c = UInt32.ofNat (queue.countP p)

namespace Tracks

variable {c : UInt32} {queue : List ℕ} {p p' : ℕ → Bool}

/-- The flag of one entry is set. -/
theorem flip (h : Tracks c queue p) (hnd : queue.Nodup) {q : ℕ} (hq : q ∈ queue) (hp : p q = false) (hp' : p' q = true)
    (hother : ∀ e, e ≠ q → p' e = p e) : Tracks (c + 1) queue p' := by
  rw [Tracks, countP_flip hnd hq hp hp' hother, UInt32.ofNat_add, ← h]
  rfl

/-- The flag of one entry is cleared. -/
theorem flip_back (h : Tracks c queue p) (hnd : queue.Nodup) {q : ℕ} (hq : q ∈ queue) (hp : p q = true)
    (hp' : p' q = false) (hother : ∀ e, e ≠ q → p' e = p e) : Tracks (c - 1) queue p' := by
  rw [Tracks, h, countP_flip hnd hq hp' hp fun e he => (hother e he).symm, UInt32.ofNat_add]
  exact UInt32.add_sub_cancel _ _

/-- The flags of the entries are the same. -/
theorem congr (h : Tracks c queue p) (hp : ∀ e ∈ queue, p' e = p e) : Tracks c queue p' := by
  have hcount : queue.countP p' = queue.countP p := List.countP_congr fun e he => by rw [hp e he]
  rw [Tracks, hcount]
  exact h

/-- An entry is added. -/
theorem push (h : Tracks c queue p) {q : ℕ} (hq : q ∉ queue) (hother : ∀ e, e ≠ q → p' e = p e) :
    Tracks (if p' q then c + 1 else c) (queue ++ [q]) p' := by
  have hold : queue.countP p' = queue.countP p :=
    List.countP_congr fun e he => by rw [hother e fun heq => hq (heq ▸ he)]
  rw [Tracks, List.countP_append, hold, List.countP_singleton]
  cases p' q with
  | false => exact h
  | true =>
    rw [if_pos rfl, if_pos rfl, UInt32.ofNat_add, ← h]
    rfl

/-- Below `2 ^ 32` entries the count is exact. -/
theorem toNat (h : Tracks c queue p) (hlen : queue.length < 2 ^ 32) : c.toNat = queue.countP p := by
  rw [h, UInt32.toNat_ofNat', Nat.mod_eq_of_lt (List.countP_le_length.trans_lt hlen)]

end Tracks

/-- The flags of an entry that are counted. -/
inductive Flag
  /-- Triggers new coverage? -/
  | has_new_cov
  /-- Triggers new hybrid operations. -/
  | has_new_hybrid
  /-- Triggers new incorrect. -/
  | has_new_incorrect
  /-- Variable behavior? -/
  | var_behavior
  deriving DecidableEq

namespace Saver

/-- The flag of an entry. -/
def flag (s : Saver) (f : Flag) (e : ℕ) : Bool :=
  match f with
  | .has_new_cov => (s.infos e).has_new_cov
  | .has_new_hybrid => (s.infos e).has_new_hybrid
  | .has_new_incorrect => (s.entries e).has_new_incorrect
  | .var_behavior => (s.infos e).var_behavior

/-- The counter of the entries with the flag. -/
def counter (s : Saver) (f : Flag) : UInt32 :=
  match f with
  | .has_new_cov => s.queued_with_cov
  | .has_new_hybrid => s.queued_with_hybrid
  | .has_new_incorrect => s.queued_with_incorrect
  | .var_behavior => s.queued_variable

/-- The entry was not fuzzed yet. -/
def pending (s : Saver) (e : ℕ) : Bool := !(s.entries e).was_fuzzed

/-- **The books** agree with the queue, modulo `2 ^ 32`. -/
structure Books (s : Saver) : Prop where
  /-- The queue lists an entry once. -/
  nodup : s.queue.Nodup
  /-- The entries were allocated. -/
  allocated : ∀ e ∈ s.queue, e < s.next
  /-- `queued_paths` is the length of the queue. -/
  paths : s.queued_paths = UInt32.ofNat s.queue.length
  /-- `pending_not_fuzzed` counts the entries with `was_fuzzed = 0`. -/
  not_fuzzed : Tracks s.pending_not_fuzzed s.queue s.pending
  /-- The other counters count the flags. -/
  flags : ∀ f, Tracks (s.counter f) s.queue (s.flag f)

/-- The books as numbers. -/
structure ExactBooks (s : Saver) : Prop where
  /-- `queued_paths` is the length of the queue. -/
  paths : s.queued_paths.toNat = s.queue.length
  /-- `pending_not_fuzzed` is the number of entries with `was_fuzzed = 0`. -/
  not_fuzzed : s.pending_not_fuzzed.toNat = s.queue.countP fun e => !(s.entries e).was_fuzzed
  /-- `queued_with_cov` is the number of entries with `has_new_cov`. -/
  cov : s.queued_with_cov.toNat = s.queue.countP fun e => (s.infos e).has_new_cov
  /-- `queued_with_hybrid` is the number of entries with `has_new_hybrid`. -/
  hybrid : s.queued_with_hybrid.toNat = s.queue.countP fun e => (s.infos e).has_new_hybrid
  /-- `queued_with_incorrect` is the number of entries with `has_new_incorrect`. -/
  incorrect : s.queued_with_incorrect.toNat = s.queue.countP fun e => (s.entries e).has_new_incorrect
  /-- `queued_variable` is the number of entries with `var_behavior`. -/
  var_behavior : s.queued_variable.toNat = s.queue.countP fun e => (s.infos e).var_behavior

/-- The counters are of 32 bits. -/
theorem Books.exact {s : Saver} (hs : s.Books) (hlen : s.queue.length < 2 ^ 32) : s.ExactBooks where
  paths := by rw [hs.paths, UInt32.toNat_ofNat', Nat.mod_eq_of_lt hlen]
  not_fuzzed := hs.not_fuzzed.toNat hlen
  cov := (hs.flags .has_new_cov).toNat hlen
  hybrid := (hs.flags .has_new_hybrid).toNat hlen
  incorrect := (hs.flags .has_new_incorrect).toNat hlen
  var_behavior := (hs.flags .var_behavior).toNat hlen

/-! ### What leaves the books alone -/

/-- The books, and what they are about, are the same. -/
structure Kept (s s' : Saver) : Prop where
  /-- The queue. -/
  queue : s'.queue = s.queue
  /-- The allocator. -/
  next : s'.next = s.next
  /-- `queued_paths`. -/
  paths : s'.queued_paths = s.queued_paths
  /-- `pending_not_fuzzed`. -/
  not_fuzzed : s'.pending_not_fuzzed = s.pending_not_fuzzed
  /-- `was_fuzzed`. -/
  pending : ∀ e, s'.pending e = s.pending e
  /-- The flags. -/
  flag : ∀ f e, s'.flag f e = s.flag f e
  /-- Their counters. -/
  counter : ∀ f, s'.counter f = s.counter f

theorem Kept.refl (s : Saver) : s.Kept s := ⟨rfl, rfl, rfl, rfl, fun _ => rfl, fun _ _ => rfl, fun _ => rfl⟩

theorem Kept.trans {s₁ s₂ s₃ : Saver} (h₁₂ : s₁.Kept s₂) (h₂₃ : s₂.Kept s₃) : s₁.Kept s₃ where
  queue := h₂₃.queue.trans h₁₂.queue
  next := h₂₃.next.trans h₁₂.next
  paths := h₂₃.paths.trans h₁₂.paths
  not_fuzzed := h₂₃.not_fuzzed.trans h₁₂.not_fuzzed
  pending e := (h₂₃.pending e).trans (h₁₂.pending e)
  flag f e := (h₂₃.flag f e).trans (h₁₂.flag f e)
  counter f := (h₂₃.counter f).trans (h₁₂.counter f)

theorem Books.kept {s s' : Saver} (hs : s.Books) (h : s.Kept s') : s'.Books where
  nodup := by
    rw [h.queue]
    exact hs.nodup
  allocated := by
    rw [h.queue, h.next]
    exact hs.allocated
  paths := by
    rw [h.paths, h.queue]
    exact hs.paths
  not_fuzzed := by
    rw [h.not_fuzzed, h.queue]
    exact hs.not_fuzzed.congr fun e _ => h.pending e
  flags f := by
    rw [h.counter, h.queue]
    exact (hs.flags f).congr fun e _ => h.flag f e

/-- Maps are not in the books. -/
theorem kept_maps (s : Saver) (trace_bits virgin_bits virgin_tmout virgin_crash : ℕ → UInt8)
    (hybrid_bits virgin_hybrid : ℕ → UInt32) (bitmap_changed : Bool) :
    s.Kept { s with
      trace_bits := trace_bits
      virgin_bits := virgin_bits
      virgin_tmout := virgin_tmout
      virgin_crash := virgin_crash
      hybrid_bits := hybrid_bits
      virgin_hybrid := virgin_hybrid
      bitmap_changed := bitmap_changed } :=
  ⟨rfl, rfl, rfl, rfl, fun _ => rfl, fun f _ => by cases f <;> rfl, fun f => by cases f <;> rfl⟩

/-- Counters of faults are not in the books. -/
theorem kept_faults (s : Saver) (total_crashes unique_crashes total_tmouts unique_tmouts unique_hangs : UInt64) :
    s.Kept { s with
      total_crashes := total_crashes
      unique_crashes := unique_crashes
      total_tmouts := total_tmouts
      unique_tmouts := unique_tmouts
      unique_hangs := unique_hangs } :=
  ⟨rfl, rfl, rfl, rfl, fun _ => rfl, fun f _ => by cases f <;> rfl, fun f => by cases f <;> rfl⟩

/-- Fields without a flag are not in the books. -/
theorem setInfo_kept (s : Saver) (q : ℕ) {g : EntryInfo → EntryInfo} (hcov : ∀ i, (g i).has_new_cov = i.has_new_cov)
    (hhybrid : ∀ i, (g i).has_new_hybrid = i.has_new_hybrid) (hvar : ∀ i, (g i).var_behavior = i.var_behavior) :
    s.Kept (s.setInfo q g) := by
  refine ⟨rfl, rfl, rfl, rfl, fun _ => rfl, fun f e => ?_, fun f => by cases f <;> rfl⟩
  by_cases he : e = q
  · subst he
    cases f <;> simp [flag, setInfo, hcov, hhybrid, hvar]
  · cases f <;> simp [flag, setInfo, he]

theorem executed_kept (s : Saver) (x : Execution) : s.Kept (s.executed x) := s.kept_maps _ _ _ _ _ _ _

theorem new_bits_kept (s : Saver) : s.Kept s.new_bits.2 := s.kept_maps _ _ _ _ _ _ _

theorem new_hybrid_kept (s : Saver) : s.Kept s.new_hybrid.2 := s.kept_maps _ _ _ _ _ _ _

/-! ### A flag is set -/

/-- A flag of `q` is set, and counted. -/
structure Raised (s : Saver) (f : Flag) (q : ℕ) (s' : Saver) : Prop where
  /-- The queue. -/
  queue : s'.queue = s.queue
  /-- The allocator. -/
  next : s'.next = s.next
  /-- `queued_paths`. -/
  paths : s'.queued_paths = s.queued_paths
  /-- `pending_not_fuzzed`. -/
  not_fuzzed : s'.pending_not_fuzzed = s.pending_not_fuzzed
  /-- `was_fuzzed`. -/
  pending : ∀ e, s'.pending e = s.pending e
  /-- The flag. -/
  flag_self : s'.flag f q = true
  /-- The others. -/
  flag_other : ∀ g e, g ≠ f ∨ e ≠ q → s'.flag g e = s.flag g e
  /-- The counter. -/
  counter_self : s'.counter f = s.counter f + 1
  /-- The others. -/
  counter_other : ∀ g, g ≠ f → s'.counter g = s.counter g

/-- **Raising a flag** that was down keeps the books. -/
theorem Books.raise {s s' : Saver} (hs : s.Books) {f : Flag} {q : ℕ} (hq : q ∈ s.queue) (hdown : s.flag f q = false)
    (h : s.Raised f q s') : s'.Books where
  nodup := by
    rw [h.queue]
    exact hs.nodup
  allocated := by
    rw [h.queue, h.next]
    exact hs.allocated
  paths := by
    rw [h.paths, h.queue]
    exact hs.paths
  not_fuzzed := by
    rw [h.not_fuzzed, h.queue]
    exact hs.not_fuzzed.congr fun e _ => h.pending e
  flags g := by
    rw [h.queue]
    by_cases hg : g = f
    · subst hg
      rw [h.counter_self]
      exact (hs.flags g).flip hs.nodup hq hdown h.flag_self fun e he => h.flag_other g e (.inr he)
    · rw [h.counter_other g hg]
      exact (hs.flags g).congr fun e _ => h.flag_other g e (.inl hg)

/-- The flag of an entry is set, and counted. -/
def raised (s : Saver) (q : ℕ) (f : Flag) : Saver :=
  match f with
  | .has_new_cov =>
    { s.setInfo q fun e => { e with has_new_cov := true } with queued_with_cov := s.queued_with_cov + 1 }
  | .has_new_hybrid =>
    { s.setInfo q fun e => { e with has_new_hybrid := true } with queued_with_hybrid := s.queued_with_hybrid + 1 }
  | .has_new_incorrect =>
    { s with
      entries := Function.update s.entries q { s.entries q with has_new_incorrect := true }
      queued_with_incorrect := s.queued_with_incorrect + 1 }
  | .var_behavior =>
    { s.setInfo q fun e => { e with var_behavior := true } with queued_variable := s.queued_variable + 1 }

theorem raised_spec (s : Saver) (q : ℕ) (f : Flag) : s.Raised f q (s.raised q f) where
  queue := by cases f <;> rfl
  next := by cases f <;> rfl
  paths := by cases f <;> rfl
  not_fuzzed := by cases f <;> rfl
  pending e := by
    cases f with
    | has_new_incorrect =>
      by_cases he : e = q
      · subst he
        simp [raised, pending]
      · simp [raised, pending, he]
    | _ => rfl
  flag_self := by cases f <;> simp [raised, flag, setInfo]
  flag_other g e h := by
    by_cases he : e = q
    · subst he
      cases f <;> cases g <;> simp_all [raised, flag, setInfo]
    · cases f <;> cases g <;> simp [raised, flag, setInfo, he]
  counter_self := by cases f <;> rfl
  counter_other g hg := by cases f <;> cases g <;> first | rfl | exact absurd rfl hg

section RaiseIf

variable {s : Saver} {q : ℕ} {f : Flag} {p : Prop} [Decidable p]

theorem raise_if_queue : (if p then s.raised q f else s).queue = s.queue := by
  split_ifs
  · exact (s.raised_spec q f).queue
  · rfl

theorem raise_if_flag {g : Flag} (hg : g ≠ f) (e : ℕ) : (if p then s.raised q f else s).flag g e = s.flag g e := by
  split_ifs
  · exact (s.raised_spec q f).flag_other g e (.inl hg)
  · rfl

/-- A flag is raised on a condition. -/
theorem Books.raise_if (hs : s.Books) (hq : q ∈ s.queue) (hdown : p → s.flag f q = false) :
    (if p then s.raised q f else s).Books := by
  split_ifs with hp
  · exact hs.raise hq (hdown hp) (s.raised_spec q f)
  · exact hs

/-- A flag is raised unless it already is. -/
theorem Books.raise_once (hs : s.Books) (f : Flag) (hq : q ∈ s.queue) :
    (if p ∧ !(s.flag f q) then s.raised q f else s).Books ∧
      q ∈ (if p ∧ !(s.flag f q) then s.raised q f else s).queue := by
  refine ⟨hs.raise_if hq fun h => by simpa using h.2, ?_⟩
  rw [raise_if_queue]
  exact hq

end RaiseIf

end Saver

/-! ### Scoring -/

namespace Entries

/-- The entries have the same `was_fuzzed` and `has_new_incorrect`. -/
def SameMarks (es es' : Entries) : Prop :=
  ∀ e, (es' e).was_fuzzed = (es e).was_fuzzed ∧ (es' e).has_new_incorrect = (es e).has_new_incorrect

theorem SameMarks.trans {es₁ es₂ es₃ : Entries} (h₁₂ : SameMarks es₁ es₂) (h₂₃ : SameMarks es₂ es₃) :
    SameMarks es₁ es₃ :=
  fun e => ⟨(h₂₃ e).1.trans (h₁₂ e).1, (h₂₃ e).2.trans (h₁₂ e).2⟩

theorem sameMarks_update (es : Entries) (w : ℕ) {v : QueueEntry} (hf : v.was_fuzzed = (es w).was_fuzzed)
    (hi : v.has_new_incorrect = (es w).has_new_incorrect) : SameMarks es (Function.update es w v) := by
  intro e
  by_cases he : e = w
  · subst he
    rw [Function.update_self]
    exact ⟨hf, hi⟩
  · rw [Function.update_of_ne he]
    exact ⟨rfl, rfl⟩

theorem sameMarks_release (es : Entries) (w : ℕ) : SameMarks es (es.release w) := sameMarks_update es w rfl rfl

theorem sameMarks_count (es : Entries) (q : ℕ) : SameMarks es (es.count q) := sameMarks_update es q rfl rfl

theorem sameMarks_keep (es : Entries) (q : ℕ) (trace_bits : ℕ → UInt8) : SameMarks es (es.keep q trace_bits) :=
  sameMarks_update es q rfl rfl

end Entries

namespace Hybrid

/-- The queue and the marks of its entries are the same. -/
structure Marked (s s' : Hybrid) : Prop where
  /-- The queue. -/
  queue : s'.queue = s.queue
  /-- The entries. -/
  marks : s.entries.SameMarks s'.entries

theorem Marked.refl (s : Hybrid) : s.Marked s := ⟨rfl, fun _ => ⟨rfl, rfl⟩⟩

theorem Marked.trans {s₁ s₂ s₃ : Hybrid} (h₁₂ : s₁.Marked s₂) (h₂₃ : s₂.Marked s₃) : s₁.Marked s₃ :=
  ⟨h₂₃.queue.trans h₁₂.queue, h₁₂.marks.trans h₂₃.marks⟩

theorem release_marked (s : Hybrid) (w : ℕ) : s.Marked (s.release w) := ⟨rfl, s.entries.sameMarks_release w⟩

theorem rate_marked (s : Hybrid) (i : ℕ) (v : Option ℕ) : s.Marked (s.rate i v) := ⟨rfl, fun _ => ⟨rfl, rfl⟩⟩

theorem judge_marked (q : ℕ) (trace_bits : ℕ → UInt8) (hybrid_bits : ℕ → UInt32) (s : Hybrid) (i : ℕ) :
    s.Marked (judge q trace_bits hybrid_bits s i) := by
  have hcount := s.entries.sameMarks_count q
  have hkeep := hcount.trans (Entries.sameMarks_keep _ q trace_bits)
  rw [judge]
  dsimp only
  split_ifs
  · exact ⟨rfl, hkeep⟩
  · exact ⟨rfl, hcount⟩
  · exact ⟨rfl, hkeep⟩

theorem record_orig_marked (q : ℕ) (fav_factor : UInt64) (trace_bits : ℕ → UInt8) (s : Hybrid) (i : ℕ) :
    s.Marked (record_orig q fav_factor trace_bits s i) := by
  rw [record_orig]
  cases s.top_rated_orig i with
  | none => exact ⟨rfl, (s.entries.sameMarks_count q).trans (Entries.sameMarks_keep _ q trace_bits)⟩
  | some w =>
    dsimp only
    split_ifs
    · exact .refl s
    · refine (s.release_marked w).trans ⟨rfl, ?_⟩
      exact (Entries.sameMarks_count _ q).trans (Entries.sameMarks_keep _ q trace_bits)

/-- One slot. -/
theorem update_slot_marked (TF_switch : Bool) (q : ℕ) (fav_factor : UInt64) (trace_bits : ℕ → UInt8)
    (hybrid_bits : ℕ → UInt32) (s : Hybrid) (i : ℕ) :
    s.Marked (update_slot TF_switch q fav_factor trace_bits hybrid_bits s i) := by
  rw [update_slot]
  by_cases htr : trace_bits i = 0
  · rw [if_pos htr]
    exact .refl s
  · rw [if_neg htr]
    cases s.top_rated i with
    | none =>
      dsimp only
      split_ifs
      · exact (judge_marked q trace_bits hybrid_bits s i).trans (record_orig_marked q fav_factor trace_bits _ i)
      · exact .refl s
    | some w =>
      have hrelease := s.release_marked w
      dsimp only
      split_ifs
      · exact ⟨rfl, fun _ => ⟨rfl, rfl⟩⟩
      · exact ⟨rfl, fun _ => ⟨rfl, rfl⟩⟩
      · exact (hrelease.trans (rate_marked _ i none)).trans (record_orig_marked q fav_factor trace_bits _ i)
      · exact (hrelease.trans (judge_marked q trace_bits hybrid_bits _ i)).trans
          (record_orig_marked q fav_factor trace_bits _ i)
      · exact .refl s
      · exact hrelease

/-- **`update_bitmap_score`** leaves the queue, `was_fuzzed` and `has_new_incorrect`. -/
theorem update_bitmap_score_marked (TF_switch : Bool) (s : Hybrid) (q : ℕ) (trace_bits : ℕ → UInt8)
    (hybrid_bits : ℕ → UInt32) : s.Marked (s.update_bitmap_score TF_switch q trace_bits hybrid_bits) := by
  rw [update_bitmap_score]
  generalize (s.entries q).fav_factor = fav_factor
  induction List.range MAP_SIZE generalizing s with
  | nil => exact .refl s
  | cons i is ih => exact (update_slot_marked TF_switch q fav_factor trace_bits hybrid_bits s i).trans (ih _)

end Hybrid

/-! ### Calibration -/

namespace Calibration

theorem seen_kept (c : Calibration) : c.saver.Kept c.seen.saver := c.saver.new_bits_kept.trans (Saver.new_hybrid_kept _)

theorem vary_kept (q : ℕ) (cksum : UInt32) (c : Calibration) : c.saver.Kept (c.vary q cksum).saver := by
  rw [vary]
  split_ifs
  · exact ⟨rfl, rfl, rfl, rfl, fun _ => rfl, fun f _ => by cases f <;> rfl, fun f => by cases f <;> rfl⟩
  · refine (c.saver.setInfo_kept q (g := fun e => { e with exec_cksum := cksum }) ?_ ?_ ?_) <;> exact fun _ => rfl

/-- One execution. -/
theorem cycle_kept (o : Options) (x : Surroundings) (q : ℕ) (c : Calibration) (k : ℕ) :
    c.saver.Kept (c.cycle o x q k).saver := by
  have hrun := c.saver.executed_kept (x.runs k)
  rw [cycle]
  dsimp only
  split_ifs
  · exact .refl _
  · exact hrun
  · exact hrun
  · refine hrun.trans (Saver.Kept.trans ?_ (vary_kept q _ _))
    exact seen_kept { c with saver := c.saver.executed (x.runs k), fault := (x.runs k).fault }
  · exact hrun

/-- The loop of `calibrate_case`. -/
theorem foldl_cycle_kept (o : Options) (x : Surroundings) (q : ℕ) (ks : List ℕ) {s : Saver} {c : Calibration}
    (hc : s.Kept c.saver) : s.Kept (ks.foldl (cycle o x q) c).saver := by
  induction ks generalizing c with
  | nil => exact hc
  | cons k ks ih => exact ih (hc.trans (cycle_kept o x q c k))

end Calibration

namespace Saver

/-- Scoring is not in the books. -/
theorem kept_marked (s : Saver) {h : Hybrid} (hm : s.toHybrid.Marked h) : s.Kept { s with toHybrid := h } := by
  refine ⟨hm.queue, rfl, rfl, rfl, fun e => ?_, fun f e => ?_, fun f => by cases f <;> rfl⟩
  · exact congrArg not (hm.marks e).1
  · cases f with
    | has_new_incorrect => exact (hm.marks e).2
    | _ => rfl

end Saver

namespace Calibration

theorem measured_kept (o : Options) (x : Surroundings) (q : ℕ) (handicap : UInt32) (first_run : Bool)
    (c : Calibration) : c.saver.Kept (c.measured o x q handicap first_run).saver := by
  delta measured
  extract_lets s entry entries unscored scored
  show c.saver.Kept { s with toHybrid := scored }
  have hinfo : c.saver.Kept s := by
    apply Saver.setInfo_kept <;> exact fun _ => rfl
  have hentries : s.toHybrid.Marked { s.toHybrid with entries := entries } := ⟨rfl, Entries.sameMarks_update _ q rfl rfl⟩
  exact hinfo.trans (s.kept_marked (hentries.trans (Hybrid.update_bitmap_score_marked ..)))

/-- The flags that a calibration sets are counted once. -/
theorem record_books {q : ℕ} {c : Calibration} (hs : c.saver.Books) (hq : q ∈ c.saver.queue) : (c.record q).Books := by
  delta record
  extract_lets s cov s₁ hybrid s₂ varies
  have hcov : s₁.Books ∧ q ∈ s₁.queue := hs.raise_once .has_new_cov hq
  have hhybrid : s₂.Books ∧ q ∈ s₂.queue := hcov.1.raise_once .has_new_hybrid hcov.2
  exact (hhybrid.1.raise_once .var_behavior hhybrid.2).1

end Calibration

namespace Saver

/-- **Calibration** keeps the books. -/
theorem calibrate_case_books {s : Saver} (hs : s.Books) (o : Options) (x : Surroundings) {q : ℕ} (hq : q ∈ s.queue)
    (handicap : UInt32) : (s.calibrate_case o x q handicap).1.Books := by
  delta calibrate_case
  extract_lets s₁ c c'
  have hinfo : s.Kept s₁ := by
    apply Saver.setInfo_kept <;> exact fun _ => rfl
  have hloop : s.Kept c.saver := Calibration.foldl_cycle_kept o x q _ hinfo
  have hmeasured : s.Kept c'.saver := by
    show s.Kept (if c.aborted then c else c.measured o x q handicap _).saver
    split_ifs
    · exact hloop
    · exact hloop.trans (Calibration.measured_kept o x q handicap _ c)
  clear_value c'
  apply Calibration.record_books (hs.kept hmeasured)
  rw [hmeasured.queue]
  exact hq

/-! ### Adding and saving -/

/-- **Adding** keeps the books, and no flag of the new entry is set. -/
theorem add_to_queue_books {s : Saver} (hs : s.Books) (len : UInt32) :
    (s.add_to_queue len).Books ∧ ∀ f, (s.add_to_queue len).flag f s.next = false := by
  have hnew : s.next ∉ s.queue := fun h => (hs.allocated _ h).ne rfl
  have hdown (f : Flag) : (s.add_to_queue len).flag f s.next = false := by
    cases f <;> simp [flag, add_to_queue]
  have hother (f : Flag) (e : ℕ) (he : e ≠ s.next) : (s.add_to_queue len).flag f e = s.flag f e := by
    cases f <;> simp [flag, add_to_queue, he]
  have hpending : (s.add_to_queue len).pending s.next = true := by simp [pending, add_to_queue]
  have hpending_other (e : ℕ) (he : e ≠ s.next) : (s.add_to_queue len).pending e = s.pending e := by
    simp [pending, add_to_queue, he]
  have hcounter (f : Flag) : (s.add_to_queue len).counter f = s.counter f := by cases f <;> rfl
  refine ⟨⟨?_, fun e he => ?_, ?_, ?_, fun f => ?_⟩, hdown⟩
  · exact List.nodup_append.mpr ⟨hs.nodup, List.nodup_singleton _, fun a ha b hb heq =>
      hnew (List.mem_singleton.mp hb ▸ heq ▸ ha)⟩
  · obtain he | he := List.mem_append.mp he
    · exact (hs.allocated e he).trans (Nat.lt_succ_self _)
    · rw [List.mem_singleton.mp he]
      exact Nat.lt_succ_self _
  · show s.queued_paths + 1 = UInt32.ofNat (s.queue ++ [s.next]).length
    rw [hs.paths, List.length_append, UInt32.ofNat_add]
    rfl
  · have := hs.not_fuzzed.push hnew hpending_other
    rw [hpending, if_pos rfl] at this
    exact this
  · have := (hs.flags f).push hnew (hother f)
    rw [hdown f, if_neg Bool.false_ne_true] at this
    rw [hcounter]
    exact this

/-- The top of the queue has what it triggers. -/
theorem save_top_books {s : Saver} (hs : s.Books) (o : Options) (len : UInt32) (hnb hnmw : UInt8)
    (hmmw incorrect : Bool) : (s.save_top o len hnb hnmw hmmw incorrect).Books := by
  obtain ⟨hadd, hdown⟩ := add_to_queue_books hs len
  have hq : s.next ∈ (s.add_to_queue len).queue := List.mem_append_right _ (List.mem_singleton_self _)
  delta save_top
  extract_lets queue_top s₀ cov s₁ hybrid s₂ entry s₃
  have hcov : s₁.Books := hadd.raise_if (f := .has_new_cov) hq fun _ => hdown _
  have hcov_queue : s₁.queue = s₀.queue := raise_if_queue (f := .has_new_cov)
  have hcov_flag (g : Flag) (hg : g ≠ .has_new_cov) : s₁.flag g queue_top = false :=
    (raise_if_flag (f := .has_new_cov) hg queue_top).trans (hdown g)
  have hhybrid : s₂.Books :=
    hcov.raise_if (f := .has_new_hybrid) (hcov_queue ▸ hq) fun _ => hcov_flag .has_new_hybrid (by decide)
  have hhybrid_queue : s₂.queue = s₁.queue := raise_if_queue (f := .has_new_hybrid)
  have hhybrid_flag : s₂.flag .has_new_incorrect queue_top = false :=
    (raise_if_flag (f := .has_new_hybrid) (by decide) queue_top).trans (hcov_flag .has_new_incorrect (by decide))
  have hincorrect : s₃.Books :=
    hhybrid.raise_if (f := .has_new_incorrect) (hhybrid_queue ▸ hcov_queue ▸ hq) fun _ => hhybrid_flag
  apply hincorrect.kept
  apply Saver.setInfo_kept <;> exact fun _ => rfl

theorem enqueue_books {s : Saver} (hs : s.Books) (o : Options) (len : UInt32) (hnb : UInt8) :
    (s.enqueue o len hnb).Books := by
  rw [enqueue]
  split_ifs
  · exact save_top_books (hs.kept s.new_hybrid_kept) o len hnb _ _ true
  · exact save_top_books hs o len hnb 0 false false

/-- The crash map, and what is counted of crashes. -/
theorem keep_as_crash_kept (o : Options) (s : Saver) : s.Kept (s.keep_as_crash o) := by
  have hcrash := s.kept_faults (s.total_crashes + 1) s.unique_crashes s.total_tmouts s.unique_tmouts s.unique_hangs
  rw [keep_as_crash]
  dsimp only
  split_ifs
  · exact hcrash
  · exact s.kept_faults ..
  · exact hcrash.trans (kept_maps _ _ _ _ _ _ _ _)
  · exact hcrash.trans ((kept_maps _ _ _ _ _ _ _ _).trans (kept_faults _ _ _ _ _ _))

theorem keep_as_hang_kept (o : Options) (x : Surroundings) (s : Saver) : s.Kept (s.keep_as_hang o x) := by
  have htmout := s.kept_faults s.total_crashes s.unique_crashes s.total_tmouts (s.unique_tmouts + 1) s.unique_hangs
  rw [keep_as_hang]
  dsimp only
  split_ifs
  · exact htmout.trans ((executed_kept _ _).trans (keep_as_crash_kept o _))
  · exact htmout.trans (executed_kept _ _)
  · exact htmout.trans ((executed_kept _ _).trans (kept_faults _ _ _ _ _ _))
  · exact htmout.trans (kept_faults _ _ _ _ _ _)

theorem keep_as_tmout_kept (o : Options) (x : Surroundings) (s : Saver) : s.Kept (s.keep_as_tmout o x) := by
  have htmout := s.kept_faults s.total_crashes s.unique_crashes (s.total_tmouts + 1) s.unique_tmouts s.unique_hangs
  rw [keep_as_tmout]
  dsimp only
  split_ifs
  · exact htmout
  · exact htmout.trans (keep_as_hang_kept o x _)
  · exact htmout.trans (kept_maps _ _ _ _ _ _ _ _)
  · exact htmout.trans ((kept_maps _ _ _ _ _ _ _ _).trans (keep_as_hang_kept o x _))

theorem save_fault_kept {o : Options} {x : Surroundings} {s s' : Saver} {fault : Fault} {keeping keeping' : Bool}
    (hrun : s.save_fault o x fault keeping = some (s', keeping')) : s.Kept s' := by
  cases fault with
  | tmout =>
    cases hrun
    exact keep_as_tmout_kept o x s
  | crash =>
    cases hrun
    exact keep_as_crash_kept o s
  | error => cases hrun
  | none | noinst | nobits =>
    cases hrun
    exact .refl s

/-- **`save_if_interesting`** keeps the books. -/
theorem save_if_interesting_books {s s' : Saver} (hs : s.Books) {o : Options} {x : Surroundings} {len handicap : UInt32}
    {fault : Fault} {keeping : Bool} (hrun : s.save_if_interesting o x len handicap fault = some (s', keeping)) :
    s'.Books := by
  have hbits := hs.kept s.new_bits_kept
  rw [save_if_interesting] at hrun
  by_cases hfault : fault = o.crash_mode
  · rw [if_pos hfault] at hrun
    dsimp only at hrun
    by_cases h0 : s.new_bits.1 = 0
    · rw [if_pos h0] at hrun
      split_ifs at hrun
      · cases hrun
        exact hbits.kept (kept_faults _ _ _ _ _ _)
      · cases hrun
        exact hbits
    · rw [if_neg h0] at hrun
      split_ifs at hrun
      have hsaved := enqueue_books hbits o len s.new_bits.1
      have hq : s.new_bits.2.next ∈ (s.new_bits.2.enqueue o len s.new_bits.1).queue := by
        rw [enqueue_queue]
        exact List.mem_append_right _ (List.mem_singleton_self _)
      exact (calibrate_case_books hsaved o x hq handicap).kept (save_fault_kept hrun)
  · rw [if_neg hfault] at hrun
    exact hs.kept (save_fault_kept hrun)

/-! ### The end of `fuzz_one` -/

/-- `abandon_entry` of `fuzz_one`. -/
def abandon_entry (s : Saver) (queue_cur : ℕ) (stop_soon : Bool) : Saver :=
  let cal_failed : Bool := (s.infos queue_cur).cal_failed ≠ 0
  { s with
    toHybrid := s.toHybrid.abandon_entry queue_cur stop_soon cal_failed
    pending_not_fuzzed :=
      if !stop_soon && !cal_failed && !(s.entries queue_cur).was_fuzzed then s.pending_not_fuzzed - 1
      else s.pending_not_fuzzed }

/-- The entry is marked as fuzzed. -/
def finished (s : Saver) (queue_cur : ℕ) : Saver :=
  { s with
    toHybrid := s.toHybrid.fuzzed queue_cur
    pending_not_fuzzed := s.pending_not_fuzzed - 1 }

/-- What the end of `fuzz_one` does. -/
theorem abandon_entry_cases (s : Saver) (queue_cur : ℕ) (stop_soon : Bool) :
    s.abandon_entry queue_cur stop_soon = s ∨
      (s.pending queue_cur = true ∧ s.abandon_entry queue_cur stop_soon = s.finished queue_cur) := by
  rw [abandon_entry, Hybrid.abandon_entry]
  by_cases hdone : (!stop_soon && !decide ((s.infos queue_cur).cal_failed ≠ 0) && !(s.entries queue_cur).was_fuzzed) = true
  · rw [if_pos hdone, if_pos hdone]
    exact .inr ⟨(Bool.and_eq_true_iff.mp hdone).2, rfl⟩
  · rw [if_neg hdone, if_neg hdone]
    exact .inl rfl

/-- **Finishing** an entry that was pending keeps the books. -/
theorem finished_books {s : Saver} (hs : s.Books) {queue_cur : ℕ} (hq : queue_cur ∈ s.queue)
    (hpending : s.pending queue_cur = true) : (s.finished queue_cur).Books := by
  have hfuzzed : (s.finished queue_cur).pending queue_cur = false := by simp [pending, finished, Hybrid.fuzzed]
  have hother (e : ℕ) (he : e ≠ queue_cur) : (s.finished queue_cur).pending e = s.pending e := by
    simp [pending, finished, Hybrid.fuzzed, he]
  have hflag (f : Flag) (e : ℕ) : (s.finished queue_cur).flag f e = s.flag f e := by
    cases f with
    | has_new_incorrect =>
      by_cases he : e = queue_cur
      · subst he
        simp [flag, finished, Hybrid.fuzzed]
      · simp [flag, finished, Hybrid.fuzzed, he]
    | _ => rfl
  refine ⟨hs.nodup, hs.allocated, hs.paths, hs.not_fuzzed.flip_back hs.nodup hq hpending hfuzzed hother, fun f => ?_⟩
  have hcounter : (s.finished queue_cur).counter f = s.counter f := by cases f <;> rfl
  rw [hcounter]
  exact (hs.flags f).congr fun e _ => hflag f e

/-! ### Runs -/

/-- What happens in a run. -/
inductive Act
  /-- `add_to_queue(len)`. -/
  | add_to_queue (len : UInt32)
  /-- `save_if_interesting(len, fault)`, on the maps of the last execution. -/
  | save_if_interesting (o : Options) (x : Surroundings) (len handicap : UInt32) (fault : Fault)
  /-- `calibrate_case(q)`. -/
  | calibrate_case (o : Options) (x : Surroundings) (q : ℕ) (handicap : UInt32)
  /-- The end of `fuzz_one`. -/
  | abandon_entry (queue_cur : ℕ) (stop_soon : Bool)
  /-- Anything else: whatever is not in the books becomes as here. -/
  | other (rest : Saver)

/-- The books, with everything else from `rest`. -/
def rewritten (s rest : Saver) : Saver :=
  { rest with
    entries := fun e =>
      { rest.entries e with
        was_fuzzed := (s.entries e).was_fuzzed
        has_new_incorrect := (s.entries e).has_new_incorrect }
    infos := fun e =>
      { rest.infos e with
        has_new_cov := (s.infos e).has_new_cov
        has_new_hybrid := (s.infos e).has_new_hybrid
        var_behavior := (s.infos e).var_behavior }
    queue := s.queue
    next := s.next
    queued_paths := s.queued_paths
    pending_not_fuzzed := s.pending_not_fuzzed
    queued_with_cov := s.queued_with_cov
    queued_with_hybrid := s.queued_with_hybrid
    queued_with_incorrect := s.queued_with_incorrect
    queued_variable := s.queued_variable }

/-- One act. `none` is `FATAL`. -/
def act (s : Saver) : Act → Option Saver
  | .add_to_queue len => some (s.add_to_queue len)
  | .save_if_interesting o x len handicap fault => (s.save_if_interesting o x len handicap fault).map Prod.fst
  | .calibrate_case o x q handicap => some (s.calibrate_case o x q handicap).1
  | .abandon_entry queue_cur stop_soon => some (s.abandon_entry queue_cur stop_soon)
  | .other rest => some (s.rewritten rest)

/-- What is calibrated or fuzzed is an entry of the queue. -/
def ActValid (s : Saver) : Act → Prop
  | .calibrate_case _ _ q _ => q ∈ s.queue
  | .abandon_entry queue_cur _ => queue_cur ∈ s.queue
  | _ => True

/-- `pending_not_fuzzed` is counted down when there is a pending entry, and is then not 0. -/
def CountsDown (s : Saver) : Act → Prop
  | .abandon_entry queue_cur stop_soon =>
    (s.abandon_entry queue_cur stop_soon).pending_not_fuzzed ≠ s.pending_not_fuzzed →
      0 < s.queue.countP s.pending ∧ (s.queue.length < 2 ^ 32 → s.pending_not_fuzzed ≠ 0)
  | _ => True

/-- An empty queue. -/
structure Empty (s : Saver) : Prop where
  /-- No entry. -/
  queue : s.queue = []
  /-- Nothing is counted. -/
  paths : s.queued_paths = 0
  /-- Nothing is counted. -/
  not_fuzzed : s.pending_not_fuzzed = 0
  /-- Nothing is counted. -/
  counter : ∀ f, s.counter f = 0

theorem Empty.books {s : Saver} (hs : s.Empty) : s.Books where
  nodup := by
    rw [hs.queue]
    exact List.nodup_nil
  allocated := by
    rw [hs.queue]
    exact fun _ h => absurd h List.not_mem_nil
  paths := by
    rw [hs.paths, hs.queue]
    rfl
  not_fuzzed := by
    rw [hs.not_fuzzed, hs.queue]
    rfl
  flags f := by
    rw [hs.counter, hs.queue]
    rfl

theorem rewritten_kept (s rest : Saver) : s.Kept (s.rewritten rest) :=
  ⟨rfl, rfl, rfl, rfl, fun _ => rfl, fun f _ => by cases f <;> rfl, fun f => by cases f <;> rfl⟩

/-- **Each act** keeps the books. -/
theorem act_books {s s' : Saver} (hs : s.Books) {a : Act} (hv : s.ActValid a) (hstep : s.act a = some s') :
    s'.Books := by
  cases a with
  | add_to_queue len =>
    cases hstep
    exact (add_to_queue_books hs len).1
  | save_if_interesting o x len handicap fault =>
    obtain ⟨⟨t, keeping⟩, hrun, rfl⟩ := Option.map_eq_some_iff.mp hstep
    exact save_if_interesting_books hs hrun
  | calibrate_case o x q handicap =>
    rw [← Option.some.inj hstep]
    exact calibrate_case_books hs o x hv handicap
  | abandon_entry queue_cur stop_soon =>
    cases hstep
    obtain heq | ⟨hpending, heq⟩ := s.abandon_entry_cases queue_cur stop_soon
    · rw [heq]
      exact hs
    · rw [heq]
      exact finished_books hs hv hpending
  | other rest =>
    cases hstep
    exact hs.kept (s.rewritten_kept rest)

/-- Nothing is counted down below zero. -/
theorem act_countsDown {s : Saver} (hs : s.Books) {a : Act} (hv : s.ActValid a) : s.CountsDown a := by
  cases a with
  | abandon_entry queue_cur stop_soon =>
    intro hne
    obtain heq | ⟨hpending, -⟩ := s.abandon_entry_cases queue_cur stop_soon
    · rw [heq] at hne
      exact absurd rfl hne
    · have hpos : 0 < s.queue.countP s.pending := List.countP_pos_iff.mpr ⟨queue_cur, hv, hpending⟩
      refine ⟨hpos, fun hlen h0 => ?_⟩
      have hcount := hs.not_fuzzed.toNat hlen
      rw [h0] at hcount
      exact hpos.ne hcount
  | _ => trivial

/-- **The books of the queue.** In every run from an empty queue, `queued_paths` is the length of the queue,
`pending_not_fuzzed` the number of entries with `was_fuzzed = 0`, and each other counter the number of entries with its
flag (modulo `2 ^ 32`, the counters being of 32 bits, and so exactly for a queue of less than `2 ^ 32` entries);
`pending_not_fuzzed` is counted down only when an entry is pending. -/
theorem queue_books {s : Saver} (hs : s.Empty) {acts : List Act} (hv : Each act ActValid s acts) :
    Each act CountsDown s acts ∧
      ∀ s', acts.foldlM act s = some s' → s'.Books ∧ (s'.queue.length < 2 ^ 32 → s'.ExactBooks) := by
  constructor
  · have hiff := each_iff (P := CountsDown) (I := Books) (fun s a hb ha => iff_of_true (act_countsDown hb ha) ha)
      (fun s a s' hb ha _ hstep => act_books hb ha hstep) hs.books hv
    exact hiff.mpr hv
  · intro s' hrun
    have hbooks := hv.inv (I := Books) (fun s a s' hb ha hstep => act_books hb ha hstep) hs.books hrun
    exact ⟨hbooks, hbooks.exact⟩

/-- Three entries are added, and two of them fuzzed. -/
theorem queue_books_three : ∃ s' : Saver,
    [Act.add_to_queue 4, .add_to_queue 9, .abandon_entry 1 false, .add_to_queue 2, .abandon_entry 0 false].foldlM act
        (after byteZero 1) = some s' ∧
      s'.Books ∧ s'.ExactBooks ∧ s'.queued_paths = 3 ∧ s'.pending_not_fuzzed = 1 := by
  have hs : (after byteZero 1).Empty := ⟨rfl, rfl, rfl, fun f => by cases f <;> rfl⟩
  have hv : Each act ActValid (after byteZero 1)
      [.add_to_queue 4, .add_to_queue 9, .abandon_entry 1 false, .add_to_queue 2, .abandon_entry 0 false] := by
    have h1 : (after byteZero 1).act (.add_to_queue 4) = some _ := rfl
    have h2 : ((after byteZero 1).add_to_queue 4).act (.add_to_queue 9) = some _ := rfl
    have h3 : (((after byteZero 1).add_to_queue 4).add_to_queue 9).act (.abandon_entry 1 false) = some _ := rfl
    have h4 : ((((after byteZero 1).add_to_queue 4).add_to_queue 9).abandon_entry 1 false).act (.add_to_queue 2) =
      some _ := rfl
    rw [each_cons_some h1, each_cons_some h2, each_cons_some h3, each_cons_some h4, each_singleton]
    exact ⟨trivial, trivial, show 1 ∈ [0, 1] by decide, trivial, show 0 ∈ [0, 1, 2] by decide⟩
  obtain ⟨hbooks, hexact⟩ := (queue_books hs hv).2 _ rfl
  exact ⟨_, rfl, hbooks, hexact (by decide), rfl, rfl⟩

end Saver

end SEDiff.Afl
