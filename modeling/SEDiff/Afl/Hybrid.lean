import SEDiff.Afl.Queue

/-!
# Seed selection of the hybrid fuzzer

`update_bitmap_score` and `cull_queue` of `src/afl/hybrid_metric/afl-fuzz.c`. With `TF_switch` on,
slots are won by the hybrid metric, and `top_rated_orig` records the winners of the base fuzzer.
-/

namespace SEDiff.Afl

/-- The state of the hybrid fuzzer. -/
structure Hybrid extends Fuzzer where
  /-- Top entries for speed * size. -/
  top_rated_orig : ℕ → Option ℕ
  /-- Max count for hybrid operations. -/
  max_hybrid : ℕ → UInt32
  /-- Whether the tf_top is NULL? -/
  TF_top_null : Bool

namespace Hybrid

/-- `top_rated[i] = v`. -/
def rate (s : Hybrid) (i : ℕ) (v : Option ℕ) : Hybrid :=
  { s with top_rated := Function.update s.top_rated i v }

/-- `w` loses a slot. -/
def release (s : Hybrid) (w : ℕ) : Hybrid := { s with entries := s.entries.release w }

/-- "TortoiseFuzz, judge the new winner": what slot `i` of `top_rated` becomes. -/
def judge (q : ℕ) (trace_bits : ℕ → UInt8) (hybrid_bits : ℕ → UInt32) (s : Hybrid) (i : ℕ) : Hybrid :=
  let s' := { s.rate i (some q) with entries := s.entries.count q }
  if hybrid_bits i ≠ 0 ∧ s.max_hybrid i < hybrid_bits i then
    { s' with
      max_hybrid := Function.update s.max_hybrid i (hybrid_bits i)
      entries := s'.entries.keep q trace_bits
      score_changed := true }
  else if (s.entries q).has_new_incorrect then s'
  else { s' with entries := s'.entries.keep q trace_bits, score_changed := true }

/-- `quit_tf`: "We will record the original top rate of AFL". -/
def record_orig (q : ℕ) (fav_factor : UInt64) (trace_bits : ℕ → UInt8) (s : Hybrid) (i : ℕ) : Hybrid :=
  let win (s : Hybrid) : Hybrid :=
    { s with
      top_rated_orig := Function.update s.top_rated_orig i (some q)
      entries := (s.entries.count q).keep q trace_bits }
  match s.top_rated_orig i with
  | some w =>
    if fav_factor > (s.entries w).fav_factor then s
    else win (s.release w)
  | none => win s

/-- One slot of `update_bitmap_score`. -/
def update_slot (TF_switch : Bool) (q : ℕ) (fav_factor : UInt64) (trace_bits : ℕ → UInt8)
    (hybrid_bits : ℕ → UInt32) (s : Hybrid) (i : ℕ) : Hybrid :=
  if trace_bits i = 0 then s
  else match s.top_rated i with
    | some w =>
      if TF_switch then
        -- the entry does not exceed the historical maximum
        if s.max_hybrid i > hybrid_bits i then
          if (s.entries q).has_new_incorrect then { s.rate i (some q) with score_changed := true }
          else { s with score_changed := true }
        -- "if its accounting is equal to others', it's not favored now"
        else if s.max_hybrid i ≥ hybrid_bits i then
          record_orig q fav_factor trace_bits ((s.release w).rate i none) i
        else record_orig q fav_factor trace_bits (judge q trace_bits hybrid_bits (s.release w) i) i
      -- original mode
      else if fav_factor > (s.entries w).fav_factor then s
      else s.release w
    | none =>
      if TF_switch then record_orig q fav_factor trace_bits (judge q trace_bits hybrid_bits s i) i
      else s

/-- `update_bitmap_score`. -/
def update_bitmap_score (TF_switch : Bool) (s : Hybrid) (q : ℕ) (trace_bits : ℕ → UInt8)
    (hybrid_bits : ℕ → UInt32) : Hybrid :=
  (List.range MAP_SIZE).foldl
    (update_slot TF_switch q (s.entries q).fav_factor trace_bits hybrid_bits) s

/-- The winner of slot `i` is favored, once. -/
def favor (top_rated : ℕ → Option ℕ) (c : Picks) (i : ℕ) : Picks :=
  match top_rated i with
  | none => c
  | some w =>
    if (c.entries w).was_fuzzed then c
    else
      let c' := { c with entries := Function.update c.entries w { c.entries w with favored := true } }
      if (c.entries w).favored then c'
      else { c' with queued_favored := c.queued_favored + 1, pending_favored := c.pending_favored + 1 }

/-- The favored entries as the pass over the slots leaves them. -/
def settle (s : Hybrid) (c : Picks) : Hybrid :=
  { s with
    queued_favored := c.queued_favored
    pending_favored := c.pending_favored
    entries := c.entries.mark s.queue }

/-- `altern`: the winners of the base fuzzer, when the hybrid ones have all been fuzzed. -/
def altern (TF_switch : Bool) (s : Hybrid) : Option Hybrid :=
  if !TF_switch || !s.TF_top_null then some s
  else do
    let c ← pick_all s.entries s.queue s.top_rated_orig
    return s.settle c

/-- `cull_queue`. -/
def cull_queue (TF_switch dumb_mode : Bool) (s : Hybrid) : Option Hybrid :=
  if dumb_mode || !s.score_changed then s.altern TF_switch
  else
    let s := { s with TF_top_null := false, score_changed := false }
    if TF_switch then
      (s.settle ((List.range MAP_SIZE).foldl (favor s.top_rated)
        ⟨s.entries.clear s.queue, fun _ => true, 0, 0⟩)).altern TF_switch
    else do
      let c ← pick_all s.entries s.queue s.top_rated
      (s.settle c).altern TF_switch

end Hybrid

end SEDiff.Afl
