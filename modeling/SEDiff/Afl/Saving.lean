import SEDiff.Afl.Favored
import SEDiff.Afl.Novelty

/-!
# Keeping inputs

`save_if_interesting` and `calibrate_case` of `src/afl/hybrid_metric/afl-fuzz.c`. The target is run by
`run_target`; what each run leaves in the maps is given by the surroundings.

## What is proved

* `Saver.calibrate_case_queue`, `Saver.save_fault_queue` — calibration and the bookkeeping of faults do not
  touch the queue.
* `Saver.save_if_interesting_keeps_iff` — an input is kept for each new record on either metric, except for the
  inputs with a new maximum and no new bits.
-/

namespace SEDiff.Afl

/-- `CAL_CYCLES`. -/
def CAL_CYCLES : ℕ := 8

/-- `CAL_CYCLES_LONG`. -/
def CAL_CYCLES_LONG : ℕ := 40

/-- `KEEP_UNIQUE_HANG`. -/
def KEEP_UNIQUE_HANG : UInt64 := 500

/-- `KEEP_UNIQUE_CRASH`. -/
def KEEP_UNIQUE_CRASH : UInt64 := 5000

/-- The outcome of an execution. -/
inductive Fault
  /-- `FAULT_NONE`. -/
  | none
  /-- `FAULT_TMOUT`. -/
  | tmout
  /-- `FAULT_CRASH`. -/
  | crash
  /-- `FAULT_ERROR`. -/
  | error
  /-- `FAULT_NOINST`. -/
  | noinst
  /-- `FAULT_NOBITS`. -/
  | nobits
  deriving DecidableEq, Repr

/-- What `run_target` leaves behind. -/
structure Execution where
  /-- What it returns. -/
  fault : Fault
  /-- Ctrl-C was pressed. -/
  stop_soon : Bool
  /-- The trace map, classified. -/
  trace_bits : ℕ → UInt8
  /-- The hybrid map. -/
  hybrid_bits : ℕ → UInt32

/-- The executions a call asks for. -/
structure Surroundings where
  /-- The runs of `calibrate_case`. -/
  runs : ℕ → Execution
  /-- The time they take (us). -/
  cal_us : UInt64
  /-- The run with a more generous timeout. -/
  rerun : Execution

/-- How the fuzzer is set up. -/
structure Options where
  /-- Crash mode: the outcome that is fuzzed for. -/
  crash_mode : Fault
  /-- Switch of TortoiseFuzz. -/
  TF_switch : Bool
  /-- Run in non-instrumented mode? -/
  dumb_mode : Bool
  /-- Try to calibrate faster? -/
  fast_cal : Bool
  /-- Configurable exec timeout (ms). -/
  exec_tmout : UInt32
  /-- Timeout used for hang det (ms). -/
  hang_tmout : UInt32
  /-- The checksum of a trace map. -/
  hash32 : (ℕ → UInt8) → UInt32

/-- What saving and calibration read and write of an entry besides. -/
structure EntryInfo where
  /-- Calibration failed? -/
  cal_failed : UInt8
  /-- Triggers new coverage? -/
  has_new_cov : Bool
  /-- Triggers new hybrid operations. -/
  has_new_hybrid : Bool
  /-- Variable behavior? -/
  var_behavior : Bool
  /-- Number of bits set in bitmap. -/
  bitmap_size : ℕ
  /-- Checksum of the execution trace. -/
  exec_cksum : UInt32
  /-- Number of queue cycles behind. -/
  handicap : UInt32

/-- The fuzzer with its maps. -/
structure Saver extends Hybrid where
  /-- The entries, what they have besides. -/
  infos : ℕ → EntryInfo
  /-- The next entry to be allocated. -/
  next : ℕ
  /-- The trace map of the last execution. -/
  trace_bits : ℕ → UInt8
  /-- Its hybrid map. -/
  hybrid_bits : ℕ → UInt32
  /-- Regions yet untouched by fuzzing. -/
  virgin_bits : ℕ → UInt8
  /-- Bits we haven't seen in tmouts. -/
  virgin_tmout : ℕ → UInt8
  /-- Bits we haven't seen in crashes. -/
  virgin_crash : ℕ → UInt8
  /-- Hybrid operations yet untouched. -/
  virgin_hybrid : ℕ → UInt32
  /-- Bytes that appear to be variable. -/
  var_bytes : ℕ → Bool
  /-- Time to update bitmap? -/
  bitmap_changed : Bool
  /-- Total number of queued testcases. -/
  queued_paths : UInt32
  /-- Queued but not done yet. -/
  pending_not_fuzzed : UInt32
  /-- Paths with new coverage bytes. -/
  queued_with_cov : UInt32
  /-- Paths with new hybrid operations. -/
  queued_with_hybrid : UInt32
  /-- Paths with new incorrect. -/
  queued_with_incorrect : UInt32
  /-- Testcases with variable results. -/
  queued_variable : UInt32
  /-- Total number of crashes. -/
  total_crashes : UInt64
  /-- Crashes with unique signatures. -/
  unique_crashes : UInt64
  /-- Total number of timeouts. -/
  total_tmouts : UInt64
  /-- Timeouts with unique signatures. -/
  unique_tmouts : UInt64
  /-- Hangs with unique signatures. -/
  unique_hangs : UInt64

/-- `count_bytes`. -/
def count_bytes (mem : ℕ → UInt8) : ℕ := (List.range MAP_SIZE).countP fun i => mem i ≠ 0

/-- `simplify_trace`: a byte says whether it was hit. -/
def simplify_trace (mem : ℕ → UInt8) : ℕ → UInt8 := fun i => if mem i = 0 then 1 else 128

namespace Saver

/-- `has_new_bits(virgin_bits)`. -/
def new_bits (s : Saver) : UInt8 × Saver :=
  let r := has_new_bits s.trace_bits s.virgin_bits
  (r.1, { s with virgin_bits := r.2, bitmap_changed := s.bitmap_changed || r.1 ≠ 0 })

/-- `has_new_metric(virgin_hybrid, hybrid_bits)`. -/
def new_hybrid (s : Saver) : UInt8 × Saver :=
  let r := has_new_metric s.virgin_hybrid s.hybrid_bits
  (r.1, { s with virgin_hybrid := r.2 })

/-- The maps after an execution. -/
def executed (s : Saver) (x : Execution) : Saver :=
  { s with trace_bits := x.trace_bits, hybrid_bits := x.hybrid_bits }

/-- A field of an entry is written. -/
def setInfo (s : Saver) (q : ℕ) (f : EntryInfo → EntryInfo) : Saver :=
  { s with infos := Function.update s.infos q (f (s.infos q)) }

end Saver

/-- The variables of `calibrate_case`. -/
structure Calibration where
  /-- The fuzzer. -/
  saver : Saver
  /-- The number of executions. -/
  stage_max : ℕ
  /-- What is returned. -/
  fault : Fault
  /-- New bits seen. -/
  new_bits : UInt8
  /-- New hybrid bits seen. -/
  new_hybrid : UInt8
  /-- Did the trace vary? -/
  var_detected : Bool
  /-- The trace to compare with. -/
  first_trace : ℕ → UInt8
  /-- `goto abort_calibration`. -/
  aborted : Bool

namespace Calibration

/-- New bits are looked for in both maps. -/
def seen (c : Calibration) : Calibration :=
  let hnb := c.saver.new_bits
  let hnmw := hnb.2.new_hybrid
  { c with
    saver := hnmw.2
    new_bits := if hnb.1 > c.new_bits then hnb.1 else c.new_bits
    new_hybrid := if hnmw.1 > c.new_hybrid then hnmw.1 else c.new_hybrid }

/-- The trace is not the one with the checksum of the entry: bytes vary, or it is the first one. -/
def vary (q : ℕ) (cksum : UInt32) (c : Calibration) : Calibration :=
  if (c.saver.infos q).exec_cksum ≠ 0 then
    let varies := fun i => !c.saver.var_bytes i && decide (c.first_trace i ≠ c.saver.trace_bits i)
    { c with
      saver := { c.saver with var_bytes := fun i => c.saver.var_bytes i || (decide (i < MAP_SIZE) && varies i) }
      stage_max := if (List.range MAP_SIZE).any varies then CAL_CYCLES_LONG else c.stage_max
      var_detected := true }
  else
    { c with
      saver := c.saver.setInfo q fun e => { e with exec_cksum := cksum }
      first_trace := c.saver.trace_bits }

/-- One execution of the loop of `calibrate_case`. -/
def cycle (o : Options) (x : Surroundings) (q : ℕ) (c : Calibration) (stage_cur : ℕ) : Calibration :=
  if c.aborted || c.stage_max ≤ stage_cur then c
  else
    let c := { c with saver := c.saver.executed (x.runs stage_cur), fault := (x.runs stage_cur).fault }
    if (x.runs stage_cur).stop_soon || (x.runs stage_cur).fault ≠ o.crash_mode then { c with aborted := true }
    else if !o.dumb_mode && stage_cur = 0 && count_bytes c.saver.trace_bits = 0 then
      { c with fault := .noinst, aborted := true }
    else
      let cksum := o.hash32 c.saver.trace_bits
      if (c.saver.infos q).exec_cksum ≠ cksum then c.seen.vary q cksum else c

/-- The statistics of a calibration that was not aborted. -/
def measured (o : Options) (x : Surroundings) (q : ℕ) (handicap : UInt32) (first_run : Bool) (c : Calibration) :
    Calibration :=
  let s := c.saver.setInfo q fun e =>
    { e with bitmap_size := count_bytes c.saver.trace_bits, handicap := handicap, cal_failed := 0 }
  let entries := Function.update s.entries q { s.entries q with exec_us := x.cal_us / c.stage_max.toUInt64 }
  { c with
    saver := { s with
      toHybrid := ({ s.toHybrid with entries := entries }).update_bitmap_score o.TF_switch q s.trace_bits s.hybrid_bits }
    fault := if !o.dumb_mode && first_run && c.fault = .none && c.new_bits = 0 then .nobits else c.fault }

/-- What follows `abort_calibration`. -/
def record (q : ℕ) (c : Calibration) : Saver :=
  let s := c.saver
  let s := if c.new_bits = 2 ∧ !(s.infos q).has_new_cov then
      { s.setInfo q fun e => { e with has_new_cov := true } with queued_with_cov := s.queued_with_cov + 1 }
    else s
  let s := if c.new_hybrid = 2 ∧ !(s.infos q).has_new_hybrid then
      { s.setInfo q fun e => { e with has_new_hybrid := true } with queued_with_hybrid := s.queued_with_hybrid + 1 }
    else s
  if c.var_detected ∧ !(s.infos q).var_behavior then
    { s.setInfo q fun e => { e with var_behavior := true } with queued_variable := s.queued_variable + 1 }
  else s

end Calibration

namespace Saver

/-- `calibrate_case`. `stage_max` never exceeds `CAL_CYCLES_LONG`. -/
def calibrate_case (o : Options) (x : Surroundings) (s : Saver) (q : ℕ) (handicap : UInt32) : Saver × Fault :=
  let s := s.setInfo q fun e => { e with cal_failed := e.cal_failed + 1 }
  let c := (List.range CAL_CYCLES_LONG).foldl (Calibration.cycle o x q)
    { saver := s
      stage_max := if o.fast_cal then 3 else CAL_CYCLES
      fault := .none
      new_bits := 0
      new_hybrid := 0
      var_detected := false
      first_trace := s.trace_bits
      aborted := false }
  let c := if c.aborted then c else c.measured o x q handicap ((s.infos q).exec_cksum = 0)
  (c.record q, c.fault)

/-- `add_to_queue`. -/
def add_to_queue (s : Saver) (len : UInt32) : Saver :=
  { s with
    entries := Function.update s.entries s.next ⟨len, false, false, false, false, 0, none, 0⟩
    infos := Function.update s.infos s.next ⟨0, false, false, false, 0, 0, 0⟩
    queue := s.queue ++ [s.next]
    next := s.next + 1
    queued_paths := s.queued_paths + 1
    pending_not_fuzzed := s.pending_not_fuzzed + 1 }

/-- `keep_as_crash`. -/
def keep_as_crash (o : Options) (s : Saver) : Saver :=
  let s := { s with total_crashes := s.total_crashes + 1 }
  if s.unique_crashes ≥ KEEP_UNIQUE_CRASH then s
  else if o.dumb_mode then { s with unique_crashes := s.unique_crashes + 1 }
  else
    let s := { s with trace_bits := simplify_trace s.trace_bits }
    let r := has_new_bits s.trace_bits s.virgin_crash
    let s := { s with virgin_crash := r.2 }
    if r.1 = 0 then s else { s with unique_crashes := s.unique_crashes + 1 }

/-- `FAULT_TMOUT`, after the timeout was found to be unique. -/
def keep_as_hang (o : Options) (x : Surroundings) (s : Saver) : Saver :=
  let s := { s with unique_tmouts := s.unique_tmouts + 1 }
  if o.exec_tmout < o.hang_tmout then
    let s := s.executed x.rerun
    if !x.rerun.stop_soon && x.rerun.fault = .crash then s.keep_as_crash o
    else if x.rerun.stop_soon || x.rerun.fault ≠ .tmout then s
    else { s with unique_hangs := s.unique_hangs + 1 }
  else { s with unique_hangs := s.unique_hangs + 1 }

/-- `FAULT_TMOUT`. -/
def keep_as_tmout (o : Options) (x : Surroundings) (s : Saver) : Saver :=
  let s := { s with total_tmouts := s.total_tmouts + 1 }
  if s.unique_hangs ≥ KEEP_UNIQUE_HANG then s
  else if o.dumb_mode then s.keep_as_hang o x
  else
    let s := { s with trace_bits := simplify_trace s.trace_bits }
    let r := has_new_bits s.trace_bits s.virgin_tmout
    let s := { s with virgin_tmout := r.2 }
    if r.1 = 0 then s else s.keep_as_hang o x

/-- The switch of `save_if_interesting`. It returns `keeping` from everywhere; `none` is `FATAL`. -/
def save_fault (o : Options) (x : Surroundings) (s : Saver) (fault : Fault) (keeping : Bool) : Option (Saver × Bool) :=
  match fault with
  | .tmout => some (s.keep_as_tmout o x, keeping)
  | .crash => some (s.keep_as_crash o, keeping)
  | .error => none
  | _ => some (s, keeping)

/-- The input becomes the top of the queue, with what it triggers. -/
def save_top (o : Options) (s : Saver) (len : UInt32) (hnb hnmw : UInt8) (hmmw incorrect : Bool) : Saver :=
  let queue_top := s.next
  let s := s.add_to_queue len
  let s := if hnb = 2 then
      { s.setInfo queue_top fun e => { e with has_new_cov := true } with queued_with_cov := s.queued_with_cov + 1 }
    else s
  let s := if hnmw = 2 ∨ hmmw then
      { s.setInfo queue_top fun e => { e with has_new_hybrid := true } with
        queued_with_hybrid := s.queued_with_hybrid + 1 }
    else s
  let s := if incorrect then
      { s with
        entries := Function.update s.entries queue_top { s.entries queue_top with has_new_incorrect := true }
        queued_with_incorrect := s.queued_with_incorrect + 1 }
    else s
  s.setInfo queue_top fun e => { e with exec_cksum := o.hash32 s.trace_bits }

/-- An input with new bits is kept. -/
def enqueue (o : Options) (s : Saver) (len : UInt32) (hnb : UInt8) : Saver :=
  if o.TF_switch then
    let hmmw := has_max_metric s.hybrid_bits s.max_hybrid
    let hnmw := s.new_hybrid
    hnmw.2.save_top o len hnb hnmw.1 hmmw true
  else s.save_top o len hnb 0 false false

/-- `save_if_interesting`. `none` is `FATAL`. -/
def save_if_interesting (o : Options) (x : Surroundings) (s : Saver) (len : UInt32) (handicap : UInt32)
    (fault : Fault) : Option (Saver × Bool) :=
  if fault = o.crash_mode then
    let hnb := s.new_bits
    let s := hnb.2
    if hnb.1 = 0 then
      some (if o.crash_mode ≠ .none then { s with total_crashes := s.total_crashes + 1 } else s, false)
    else
      let res := (s.enqueue o len hnb.1).calibrate_case o x s.next handicap
      if res.2 = .error then none else res.1.save_fault o x fault true
  else s.save_fault o x fault false

end Saver

/-! ### Calibration -/

namespace Saver

theorem queue_virgin_bits (s : Saver) (virgin_bits : ℕ → UInt8) (bitmap_changed : Bool) :
    ({ s with virgin_bits := virgin_bits, bitmap_changed := bitmap_changed } : Saver).queue = s.queue :=
  rfl

theorem queue_virgin_hybrid (s : Saver) (virgin_hybrid : ℕ → UInt32) :
    ({ s with virgin_hybrid := virgin_hybrid } : Saver).queue = s.queue :=
  rfl

theorem next_virgin_hybrid (s : Saver) (virgin_hybrid : ℕ → UInt32) :
    ({ s with virgin_hybrid := virgin_hybrid } : Saver).next = s.next :=
  rfl

theorem new_bits_queue (s : Saver) : s.new_bits.2.queue = s.queue := s.queue_virgin_bits _ _

theorem new_hybrid_queue (s : Saver) : s.new_hybrid.2.queue = s.queue := s.queue_virgin_hybrid _

theorem new_hybrid_next (s : Saver) : s.new_hybrid.2.next = s.next := s.next_virgin_hybrid _

end Saver

namespace Calibration

theorem seen_queue (c : Calibration) : c.seen.saver.queue = c.saver.queue :=
  (Saver.new_hybrid_queue _).trans (Saver.new_bits_queue _)

theorem vary_queue (q : ℕ) (cksum : UInt32) (c : Calibration) :
    (c.vary q cksum).saver.queue = c.saver.queue ∧ (c.vary q cksum).fault = c.fault := by
  rw [vary]
  split_ifs <;> exact ⟨rfl, rfl⟩

/-- One execution keeps the queue. -/
theorem cycle_queue (o : Options) (x : Surroundings) (q : ℕ) (c : Calibration) (k : ℕ) :
    (c.cycle o x q k).saver.queue = c.saver.queue := by
  rw [cycle]
  dsimp only
  split_ifs
  · rfl
  · rfl
  · rfl
  · exact (vary_queue q _ _).1.trans (seen_queue _)
  · rfl

/-- `FAULT_ERROR` comes from an execution. -/
theorem cycle_error {o : Options} {x : Surroundings} {q : ℕ} {c : Calibration} {k : ℕ}
    (he : (c.cycle o x q k).fault = .error) : c.fault = .error ∨ (x.runs k).fault = .error := by
  rw [cycle] at he
  dsimp only at he
  split_ifs at he
  · exact .inl he
  · exact .inr he
  · exact .inr ((vary_queue q _ _).2.symm.trans he)
  · exact .inr he

theorem measured_queue {o : Options} (hTF : o.TF_switch = true) (x : Surroundings) (q : ℕ) (handicap : UInt32)
    (first_run : Bool) (c : Calibration) : (c.measured o x q handicap first_run).saver.queue = c.saver.queue := by
  rw [measured, hTF]
  exact (Hybrid.update_bitmap_score_quiet _ q _ _).queue

theorem measured_error {o : Options} {x : Surroundings} {q : ℕ} {handicap : UInt32} {first_run : Bool}
    {c : Calibration} (he : (c.measured o x q handicap first_run).fault = .error) : c.fault = .error := by
  rw [measured] at he
  dsimp only at he
  split_ifs at he
  exact he

theorem record_queue (q : ℕ) (c : Calibration) : (c.record q).queue = c.saver.queue := by
  rw [record]
  dsimp only
  split_ifs <;> rfl

/-- The loop of `calibrate_case`. -/
theorem foldl_cycle (o : Options) (x : Surroundings) (q : ℕ) (ks : List ℕ) (c : Calibration) :
    (ks.foldl (cycle o x q) c).saver.queue = c.saver.queue ∧
      ((ks.foldl (cycle o x q) c).fault = .error → c.fault = .error ∨ ∃ k, (x.runs k).fault = .error) := by
  induction ks generalizing c with
  | nil => exact ⟨rfl, .inl⟩
  | cons k ks ih =>
    obtain ⟨hq, he⟩ := ih (c.cycle o x q k)
    refine ⟨hq.trans (cycle_queue o x q c k), fun herr => ?_⟩
    cases he herr with
    | inr h => exact .inr h
    | inl h => exact (cycle_error h).imp_right fun h => ⟨k, h⟩

end Calibration

namespace Saver

/-- **Calibration** keeps the queue, and fails with `FAULT_ERROR` only when the target cannot be executed. -/
theorem calibrate_case_queue {o : Options} (hTF : o.TF_switch = true) (x : Surroundings) (s : Saver) (q : ℕ)
    (handicap : UInt32) :
    (s.calibrate_case o x q handicap).1.queue = s.queue ∧
      ((s.calibrate_case o x q handicap).2 = .error → ∃ k, (x.runs k).fault = .error) := by
  rw [calibrate_case]
  dsimp only
  set c₀ : Calibration := {
    saver := s.setInfo q fun e => { e with cal_failed := e.cal_failed + 1 }
    stage_max := if o.fast_cal then 3 else CAL_CYCLES
    fault := .none
    new_bits := 0
    new_hybrid := 0
    var_detected := false
    first_trace := (s.setInfo q fun e => { e with cal_failed := e.cal_failed + 1 }).trace_bits
    aborted := false } with hc₀
  obtain ⟨hq, he⟩ := Calibration.foldl_cycle o x q (List.range CAL_CYCLES_LONG) c₀
  have herr : ((List.range CAL_CYCLES_LONG).foldl (Calibration.cycle o x q) c₀).fault = .error →
      ∃ k, (x.runs k).fault = .error := fun h => (he h).resolve_left nofun
  split_ifs
  · exact ⟨(Calibration.record_queue q _).trans hq, herr⟩
  · refine ⟨?_, fun h => herr (Calibration.measured_error h)⟩
    rw [Calibration.record_queue, Calibration.measured_queue hTF]
    exact hq

/-! ### Saving -/

theorem keep_as_crash_queue (o : Options) (s : Saver) : (s.keep_as_crash o).queue = s.queue := by
  rw [keep_as_crash]
  dsimp only
  split_ifs <;> rfl

theorem keep_as_hang_queue (o : Options) (x : Surroundings) (s : Saver) : (s.keep_as_hang o x).queue = s.queue := by
  rw [keep_as_hang]
  dsimp only
  split_ifs
  · exact keep_as_crash_queue o _
  · rfl
  · rfl
  · rfl

theorem keep_as_tmout_queue (o : Options) (x : Surroundings) (s : Saver) :
    (s.keep_as_tmout o x).queue = s.queue := by
  rw [keep_as_tmout]
  dsimp only
  split_ifs
  · rfl
  · exact keep_as_hang_queue o x _
  · rfl
  · exact keep_as_hang_queue o x _

/-- **What is kept of a fault** is not in the queue, and `keeping` is returned. -/
theorem save_fault_queue {o : Options} {x : Surroundings} {s s' : Saver} {fault : Fault} {keeping keeping' : Bool}
    (hrun : s.save_fault o x fault keeping = some (s', keeping')) : s'.queue = s.queue ∧ keeping' = keeping := by
  cases fault with
  | tmout =>
    cases hrun
    exact ⟨keep_as_tmout_queue o x s, rfl⟩
  | crash =>
    cases hrun
    exact ⟨keep_as_crash_queue o s, rfl⟩
  | error => cases hrun
  | none =>
    cases hrun
    exact ⟨rfl, rfl⟩
  | noinst =>
    cases hrun
    exact ⟨rfl, rfl⟩
  | nobits =>
    cases hrun
    exact ⟨rfl, rfl⟩

/-- Only `FAULT_ERROR` is fatal. -/
theorem save_fault_eq_none {o : Options} {x : Surroundings} {s : Saver} {fault : Fault} {keeping : Bool}
    (hrun : s.save_fault o x fault keeping = none) : fault = .error := by
  cases fault with
  | error => rfl
  | tmout => cases hrun
  | crash => cases hrun
  | none => cases hrun
  | noinst => cases hrun
  | nobits => cases hrun

theorem save_top_queue (o : Options) (s : Saver) (len : UInt32) (hnb hnmw : UInt8) (hmmw incorrect : Bool) :
    (s.save_top o len hnb hnmw hmmw incorrect).queue = s.queue ++ [s.next] := by
  rw [save_top]
  dsimp only
  split_ifs <;> rfl

/-- The new entry is the last one of the queue. -/
theorem enqueue_queue (o : Options) (s : Saver) (len : UInt32) (hnb : UInt8) :
    (s.enqueue o len hnb).queue = s.queue ++ [s.next] := by
  rw [enqueue]
  cases o.TF_switch with
  | false => exact save_top_queue o s len hnb 0 false false
  | true =>
    refine (save_top_queue o s.new_hybrid.2 len hnb _ _ true).trans ?_
    rw [new_hybrid_queue, new_hybrid_next]

/-- The execution has new bits, or sets a new maximum. -/
def NewRecord (s : Saver) : Prop :=
  (has_new_bits s.trace_bits s.virgin_bits).1 ≠ 0 ∨ ∃ i < MAP_SIZE, s.max_hybrid i < s.hybrid_bits i

/-- The execution sets a new maximum, and has no new bits. -/
def MetricOnly (s : Saver) : Prop :=
  (has_new_bits s.trace_bits s.virgin_bits).1 = 0 ∧ ∃ i < MAP_SIZE, s.max_hybrid i < s.hybrid_bits i

/-- What is asked of `save_if_interesting`: the input is queued, and something else than 0 returned, if and only
if there is a new record; otherwise the queue is left alone. -/
def Keeps (s : Saver) (out : Option (Saver × Bool)) : Prop :=
  ∀ s' keeping, out = some (s', keeping) →
    ((s'.queue = s.queue ++ [s.next] ∧ keeping = true) ↔ s.NewRecord) ∧ (¬ s.NewRecord → s'.queue = s.queue)

/-- Without new bits, `save_if_interesting` returns at once. -/
theorem save_if_interesting_of_eq_zero (o : Options) (x : Surroundings) {s : Saver} (len handicap : UInt32)
    (h0 : (has_new_bits s.trace_bits s.virgin_bits).1 = 0) :
    ∃ s', s.save_if_interesting o x len handicap o.crash_mode = some (s', false) ∧ s'.queue = s.queue := by
  have hnb : s.new_bits.1 = 0 := h0
  rw [save_if_interesting, if_pos rfl]
  dsimp only
  rw [if_pos hnb]
  split_ifs
  · exact ⟨_, rfl, rfl⟩
  · exact ⟨_, rfl, rfl⟩

/-- With new bits, it queues the input, unless the target cannot be executed. -/
theorem save_if_interesting_of_ne_zero {o : Options} (hTF : o.TF_switch = true) (x : Surroundings) {s : Saver}
    (len handicap : UInt32) (hne : (has_new_bits s.trace_bits s.virgin_bits).1 ≠ 0) {out : Option (Saver × Bool)}
    (hout : s.save_if_interesting o x len handicap o.crash_mode = out) :
    (out = none → o.crash_mode = .error ∨ ∃ k, (x.runs k).fault = .error) ∧
      ∀ s' keeping, out = some (s', keeping) → s'.queue = s.queue ++ [s.next] ∧ keeping = true := by
  have hnb : s.new_bits.1 ≠ 0 := hne
  rw [save_if_interesting, if_pos rfl] at hout
  dsimp only at hout
  rw [if_neg hnb] at hout
  set s₁ := s.new_bits.2.enqueue o len s.new_bits.1 with hs₁
  have hqueue : s₁.queue = s.queue ++ [s.next] := enqueue_queue o _ len _
  obtain ⟨hcal, herr⟩ := calibrate_case_queue hTF x s₁ s.new_bits.2.next handicap
  split_ifs at hout with he
  · refine ⟨fun _ => .inr (herr he), fun s' keeping h => ?_⟩
    rw [h] at hout
    cases hout
  · refine ⟨fun h => ?_, fun s' keeping h => ?_⟩
    · exact .inl (save_fault_eq_none (hout.trans h))
    · rw [h] at hout
      obtain ⟨hq, hk⟩ := save_fault_queue hout
      exact ⟨hq.trans (hcal.trans hqueue), hk⟩

/-- **`save_if_interesting` keeps new records** exactly when the execution is not one that only sets a new maximum
of the metric. It fails to return only when the target cannot be executed. -/
theorem save_if_interesting_keeps_iff {o : Options} (hTF : o.TF_switch = true) (x : Surroundings) (s : Saver)
    (len handicap : UInt32) :
    (s.save_if_interesting o x len handicap o.crash_mode = none →
        o.crash_mode = .error ∨ ∃ k, (x.runs k).fault = .error) ∧
      (s.Keeps (s.save_if_interesting o x len handicap o.crash_mode) ↔ ¬ s.MetricOnly) := by
  by_cases h0 : (has_new_bits s.trace_bits s.virgin_bits).1 = 0
  · obtain ⟨s', hrun, hqueue⟩ := save_if_interesting_of_eq_zero o x len handicap h0
    rw [hrun]
    refine ⟨nofun, fun hkeeps hmetric => ?_, fun hnot t keeping ht => ?_⟩
    · obtain ⟨-, hk⟩ := (hkeeps s' false rfl).1.mpr (.inr hmetric.2)
      cases hk
    · cases ht
      have hno : ¬ s.NewRecord := fun h => hnot ⟨h0, h.resolve_left fun h => h h0⟩
      exact ⟨iff_of_false (fun h => Bool.false_ne_true h.2) hno, fun _ => hqueue⟩
  · obtain ⟨hnone, hsome⟩ := save_if_interesting_of_ne_zero hTF x len handicap h0 rfl
    refine ⟨hnone, iff_of_true (fun s' keeping hrun => ?_) fun h => h0 h.1⟩
    exact ⟨iff_of_true (hsome s' keeping hrun) (.inl h0), fun h => absurd (.inl h0) h⟩

/-- A fuzzer with TortoiseFuzz on. -/
def tortoise : Options := ⟨.none, true, false, false, 1000, 1000, fun _ => 1⟩

/-- A target that does nothing. -/
def idle : Surroundings :=
  let x : Execution := ⟨.none, false, fun _ => 0, fun _ => 0⟩
  ⟨fun _ => x, 0, x⟩

/-- An execution with this trace map and this count at index 0 of the hybrid map, and nothing recorded so far. -/
def after (trace_bits : ℕ → UInt8) (hybrid_bits : UInt32) : Saver :=
  { Hybrid.init (fun _ => added false) [] with
    infos := fun _ => ⟨0, false, false, false, 0, 0, 0⟩
    next := 0
    trace_bits := trace_bits
    hybrid_bits := fun _ => hybrid_bits
    virgin_bits := fun _ => 0xff
    virgin_tmout := fun _ => 0xff
    virgin_crash := fun _ => 0xff
    virgin_hybrid := fun _ => 0xffffffff
    var_bytes := fun _ => false
    bitmap_changed := false
    queued_paths := 0
    pending_not_fuzzed := 0
    queued_with_cov := 0
    queued_with_hybrid := 0
    queued_with_incorrect := 0
    queued_variable := 0
    total_crashes := 0
    unique_crashes := 0
    total_tmouts := 0
    unique_tmouts := 0
    unique_hangs := 0 }

/-- New bits in the trace. -/
theorem save_if_interesting_keeps_new_bits :
    (after byteZero 1).Keeps ((after byteZero 1).save_if_interesting tortoise idle 4 0 tortoise.crash_mode) := by
  refine (save_if_interesting_keeps_iff (o := tortoise) rfl idle (after byteZero 1) 4 0).2.mpr fun h => ?_
  have hzero := (has_new_bits_eq_zero_iff byteZero fun _ => 0xff).mp h.1 0 Hybrid.zero_lt_MAP_SIZE
  exact absurd hzero (by decide)

/-- A new maximum without new bits is thrown away. -/
theorem not_save_if_interesting_keeps : ¬ ∀ (o : Options) (x : Surroundings) (s : Saver) (len handicap : UInt32),
    o.TF_switch = true → s.Keeps (s.save_if_interesting o x len handicap o.crash_mode) := by
  intro hall
  have hbits : (has_new_bits (after (fun _ => 0) 1).trace_bits (after (fun _ => 0) 1).virgin_bits).1 = 0 :=
    (has_new_bits_eq_zero_iff _ _).mpr fun _ _ => UInt8.zero_and
  have hmax : (after (fun _ => 0) 1).NewRecord := .inr ⟨0, Hybrid.zero_lt_MAP_SIZE, by decide⟩
  obtain ⟨s', hrun, -⟩ := save_if_interesting_of_eq_zero tortoise idle 4 0 hbits
  exact absurd ((hall tortoise idle _ 4 0 rfl s' false hrun).1.mpr hmax).2 Bool.false_ne_true

end Saver

end SEDiff.Afl
