import Mathlib.Algebra.Group.Nat.Defs
import Mathlib.Data.Nat.Notation
import Mathlib.Logic.Function.Basic

/-!
# Seed selection of the base fuzzer

`update_bitmap_score` and `cull_queue` of `src/afl/afl-fuzz.c`. Queue entries are numbered. A
`trace_mini` is a bitmap of `MAP_SIZE` bits, bit `i & 7` of byte `i >> 3`, read here bit by
bit; a null pointer is `none`.
-/

namespace SEDiff.Afl

/-- The number of slots. -/
@[irreducible] def MAP_SIZE : ℕ := 2 ^ 16

theorem MAP_SIZE_eq : MAP_SIZE = 65536 := by
  unfold MAP_SIZE
  rfl

/-- A bitmap. -/
abbrev Bits := ℕ → Bool

/-- What seed selection reads and writes of a queue entry. -/
structure QueueEntry where
  /-- Input length. -/
  len : UInt32
  /-- Had any fuzzing done yet? -/
  was_fuzzed : Bool
  /-- Triggers new incorrect (hybrid fuzzer only). -/
  has_new_incorrect : Bool
  /-- Currently favored? -/
  favored : Bool
  /-- Marked as redundant in the fs? -/
  fs_redundant : Bool
  /-- Execution time (us). -/
  exec_us : UInt64
  /-- Trace bytes, if kept. -/
  trace_mini : Option Bits
  /-- Trace bytes ref count. -/
  tc_ref : UInt32

/-- The entries, by number. -/
abbrev Entries := ℕ → QueueEntry

/-- `exec_us * len`. -/
def QueueEntry.fav_factor (q : QueueEntry) : UInt64 := q.exec_us * q.len.toUInt64

/-- `minimize_bits` into a bitmap that is all zero. -/
def minimize_bits (src : ℕ → UInt8) : Bits := fun i => src i ≠ 0

namespace Entries

/-- `if (!--w->tc_ref) { ck_free(w->trace_mini); w->trace_mini = 0; }`. -/
def release (es : Entries) (w : ℕ) : Entries :=
  let tc_ref := (es w).tc_ref - 1
  Function.update es w
    { es w with tc_ref := tc_ref, trace_mini := if tc_ref = 0 then none else (es w).trace_mini }

/-- `q->tc_ref++`. -/
def count (es : Entries) (q : ℕ) : Entries :=
  Function.update es q { es q with tc_ref := (es q).tc_ref + 1 }

/-- `if (!q->trace_mini) { q->trace_mini = ck_alloc(MAP_SIZE >> 3); minimize_bits(..); }`. -/
def keep (es : Entries) (q : ℕ) (trace_bits : ℕ → UInt8) : Entries :=
  Function.update es q
    { es q with trace_mini := some ((es q).trace_mini.getD (minimize_bits trace_bits)) }

/-- `q->favored = 0` for every entry of the queue. -/
def clear (es : Entries) (queue : List ℕ) : Entries := fun e =>
  if e ∈ queue then { es e with favored := false } else es e

/-- `mark_as_redundant(q, !q->favored)` for every entry of the queue. -/
def mark (es : Entries) (queue : List ℕ) : Entries := fun e =>
  if e ∈ queue then { es e with fs_redundant := !(es e).favored } else es e

end Entries

/-- The favored entries while they are picked. -/
structure Picks where
  /-- The entries. -/
  entries : Entries
  /-- The bits not captured yet. -/
  temp_v : Bits
  /-- Favored entries. -/
  queued_favored : UInt32
  /-- Favored entries not fuzzed yet. -/
  pending_favored : UInt32

/-- `if (top_rated[i] && (temp_v[i >> 3] & (1 << (i & 7))))`: pick the winner of slot `i` and take
the bits of its `trace_mini`. Reading a null `trace_mini` is `none`. -/
def pick (top_rated : ℕ → Option ℕ) (c : Picks) (i : ℕ) : Option Picks :=
  match top_rated i with
  | none => some c
  | some w =>
    if c.temp_v i then do
      let mini ← (c.entries w).trace_mini
      return {
        entries := Function.update c.entries w { c.entries w with favored := true }
        temp_v := fun j => c.temp_v j && !mini j
        queued_favored := c.queued_favored + 1
        pending_favored :=
          if (c.entries w).was_fuzzed then c.pending_favored else c.pending_favored + 1 }
    else some c

/-- The loop of `cull_queue` over the slots, from fresh counters. -/
def pick_all (entries : Entries) (queue : List ℕ) (top_rated : ℕ → Option ℕ) : Option Picks :=
  (List.range MAP_SIZE).foldlM (pick top_rated) ⟨entries.clear queue, fun _ => true, 0, 0⟩

/-- The state of the base fuzzer. -/
structure Fuzzer where
  /-- The entries. -/
  entries : Entries
  /-- Fuzzing queue. -/
  queue : List ℕ
  /-- Top entries for bitmap bytes. -/
  top_rated : ℕ → Option ℕ
  /-- Scoring for favorites changed? -/
  score_changed : Bool
  /-- Paths deemed favorable. -/
  queued_favored : UInt32
  /-- Pending favored paths. -/
  pending_favored : UInt32

namespace Fuzzer

/-- One slot of `update_bitmap_score`. -/
def update_slot (q : ℕ) (fav_factor : UInt64) (trace_bits : ℕ → UInt8) (s : Fuzzer) (i : ℕ) : Fuzzer :=
  let win (s : Fuzzer) : Fuzzer :=
    { s with
      top_rated := Function.update s.top_rated i (some q)
      entries := (s.entries.count q).keep q trace_bits
      score_changed := true }
  if trace_bits i = 0 then s
  else match s.top_rated i with
    | some w =>
      if fav_factor > (s.entries w).fav_factor then s
      else win { s with entries := s.entries.release w }
    | none => win s

/-- `update_bitmap_score`. -/
def update_bitmap_score (s : Fuzzer) (q : ℕ) (trace_bits : ℕ → UInt8) : Fuzzer :=
  (List.range MAP_SIZE).foldl (update_slot q (s.entries q).fav_factor trace_bits) s

/-- `cull_queue`. -/
def cull_queue (dumb_mode : Bool) (s : Fuzzer) : Option Fuzzer :=
  if dumb_mode || !s.score_changed then some s
  else do
    let c ← pick_all s.entries s.queue s.top_rated
    return { s with
      score_changed := false
      queued_favored := c.queued_favored
      pending_favored := c.pending_favored
      entries := c.entries.mark s.queue }

end Fuzzer

end SEDiff.Afl
