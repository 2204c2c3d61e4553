import Mathlib.Data.Nat.Log
import SEDiff.Afl.Saving
import SEDiff.Foundation.Sweep

/-!
# Trimming

`trim_case` removes chunks of an input, of shrinking size, as long as the target leaves the same trace. What it hands
to `update_bitmap_score` at the end is what it saved at the first removal.

## What is proved

* `trim_case_follows` — a run that is not aborted goes through the inputs of greedy chunk removal.
* `trim_scores_iff` — the maps that are scored are those of the input that is kept if and only if the first and the last
  of these inputs have the same hybrid map.
-/

namespace SEDiff.Afl

open Foundation

/-! ### The source -/

/-- `TRIM_MIN_BYTES`. -/
def TRIM_MIN_BYTES : ℕ := 4

/-- `TRIM_START_STEPS`. -/
def TRIM_START_STEPS : ℕ := 16

/-- `TRIM_END_STEPS`. -/
def TRIM_END_STEPS : ℕ := 1024

/-- The loop of `next_p2`. -/
def next_p2.loop (val ret : ℕ) (hret : 0 < ret) : ℕ :=
  if val > ret then next_p2.loop val (2 * ret) (by omega) else ret
termination_by val - ret

/-- `next_p2`: find the first power of two greater or equal to `val`. Lengths are at most `MAX_FILE`, where nothing
wraps (`next_p2_le`). -/
def next_p2 (val : ℕ) : ℕ := next_p2.loop val 1 Nat.one_pos

theorem next_p2.loop_eq {val ret j : ℕ} (hret : 0 < ret) (hpow : ret = 2 ^ j) (hj : j ≤ Nat.clog 2 val) :
    next_p2.loop val ret hret = 2 ^ Nat.clog 2 val := by
  induction ret, hret using next_p2.loop.induct val generalizing j with
  | case1 ret hret h ih =>
    have hlt : ¬ Nat.clog 2 val ≤ j := by
      rw [Nat.clog_le_iff_le_pow Nat.one_lt_two, ← hpow]
      omega
    rw [next_p2.loop, if_pos h]
    exact ih (j := j + 1) (by rw [hpow, Nat.pow_succ']) (by omega)
  | case2 ret hret h =>
    have hle : Nat.clog 2 val ≤ j := by
      rw [Nat.clog_le_iff_le_pow Nat.one_lt_two, ← hpow]
      omega
    rw [next_p2.loop, if_neg h, hpow, Nat.le_antisymm hj hle]

theorem next_p2_eq (val : ℕ) : next_p2 val = 2 ^ Nat.clog 2 val := next_p2.loop_eq _ rfl (Nat.zero_le _)

/-- `MAX_FILE`. -/
def MAX_FILE : ℕ := 1 * 1024 * 1024

/-- For the length of an input no power of two is larger than `MAX_FILE`. -/
theorem next_p2_le {val : ℕ} (h : val ≤ MAX_FILE) : next_p2 val ≤ MAX_FILE := by
  have hmax : MAX_FILE = 2 ^ 20 := rfl
  rw [hmax] at h ⊢
  rw [next_p2_eq]
  exact Nat.pow_le_pow_right Nat.two_pos ((Nat.clog_le_iff_le_pow Nat.one_lt_two).mpr h)

/-- What `run_target` leaves in the shared memory. -/
@[ext] structure Maps where
  /-- The trace map. -/
  trace_bits : ℕ → UInt8
  /-- The hybrid map. -/
  hybrid_bits : ℕ → UInt32

/-- A deterministic target. -/
structure Target where
  /-- What `run_target` returns on an input. -/
  fault : List UInt8 → Fault
  /-- What it leaves. -/
  maps : List UInt8 → Maps

/-- What `trim_case` works on. -/
structure Trim where
  /-- The input. -/
  in_buf : List UInt8
  /-- `q->len`. -/
  len : ℕ
  /-- The next power of two. -/
  len_p2 : ℕ
  /-- The shared memory. -/
  maps : Maps
  /-- What `run_target` returned last. -/
  fault : Fault
  /-- Is there anything to write? -/
  needs_write : Bool
  /-- `clean_trace` and `clean_hybrid`. -/
  clean : Maps
  /-- The executions so far. -/
  trim_execs : ℕ

/-- `write_with_gap`: what is in the file for the target, with a gap. -/
def write_with_gap (mem : List UInt8) (len skip_at skip_len : ℕ) : List UInt8 :=
  mem.take skip_at ++ (mem.drop (skip_at + skip_len)).take (len - skip_at - skip_len)

/-- `memmove(buf + dst, buf + src, n)`. -/
def memmove (buf : List UInt8) (dst src n : ℕ) : List UInt8 :=
  buf.take dst ++ ((buf.drop src).take n ++ buf.drop (dst + n))

namespace Trim

/-- `run_target` on this file. -/
def run_target (t : Target) (s : Trim) (file : List UInt8) : Trim :=
  { s with maps := t.maps file, fault := t.fault file, trim_execs := s.trim_execs + 1 }

/-- The deletion had no impact on the trace: it is made permanent, and a clean trace is saved if there is none. -/
def accept (s : Trim) (remove_pos trim_avail : ℕ) : Trim :=
  let move_tail := s.len - remove_pos - trim_avail
  { s with
    len := s.len - trim_avail
    len_p2 := next_p2 (s.len - trim_avail)
    in_buf := memmove s.in_buf remove_pos (remove_pos + trim_avail) move_tail
    needs_write := true
    clean := if s.needs_write then s.clean else s.maps }

variable (t : Target) (hash32 : (ℕ → UInt8) → UInt32) (exec_cksum : UInt32) (stop_soon : ℕ → Bool)

/-- The inner loop, from `remove_pos` on; an `error` is an abort. Ctrl-C may be pressed in any execution. -/
def chunks (remove_len : ℕ) (hlen : 0 < remove_len) (s : Trim) (remove_pos : ℕ) : Except Trim Trim :=
  if remove_pos < s.len then
    let trim_avail := min remove_len (s.len - remove_pos)
    let s' := s.run_target t (write_with_gap s.in_buf s.len remove_pos trim_avail)
    if stop_soon s'.trim_execs ∨ s'.fault = .error then .error s'
    else if hash32 s'.maps.trace_bits = exec_cksum then chunks remove_len hlen (s'.accept remove_pos trim_avail) remove_pos
    else chunks remove_len hlen s' (remove_pos + remove_len)
  else .ok s
termination_by s.len - remove_pos
decreasing_by
  · show s.len - min remove_len (s.len - remove_pos) - remove_pos < s.len - remove_pos
    omega
  · show s.len - (remove_pos + remove_len) < s.len - remove_pos
    omega

/-- The outer loop, from chunks of `remove_len` on. -/
def stages (s : Trim) (remove_len : ℕ) : Except Trim Trim :=
  if h : remove_len ≥ max (s.len_p2 / TRIM_END_STEPS) TRIM_MIN_BYTES then
    match s.chunks t hash32 exec_cksum stop_soon remove_len (by rw [TRIM_MIN_BYTES] at h; omega) remove_len with
    | .error s => .error s
    | .ok s => stages s (remove_len / 2)
  else .ok s
termination_by remove_len
decreasing_by
  rw [TRIM_MIN_BYTES] at h
  omega

end Trim

/-- What `trim_case` returns. -/
structure Trimmed where
  /-- Where it ends. -/
  state : Trim
  /-- Did it abort? -/
  aborted : Bool
  /-- What the file of the entry is overwritten with. -/
  file : Option (List UInt8)
  /-- The maps that `update_bitmap_score` is called with. -/
  scored : Option Maps

/-- The input that is kept. -/
def Trimmed.input (r : Trimmed) : List UInt8 := r.state.in_buf.take r.state.len

/-- `trim_case` for an entry with this input and checksum, where `maps` and `clean` are left from before. -/
def trim_case (t : Target) (hash32 : (ℕ → UInt8) → UInt32) (stop_soon : ℕ → Bool) (maps clean : Maps)
    (in_buf : List UInt8) (exec_cksum : UInt32) : Trimmed :=
  let len_p2 := next_p2 in_buf.length
  let s : Trim := ⟨in_buf, in_buf.length, len_p2, maps, .none, false, clean, 0⟩
  if s.len < 5 then ⟨s, false, none, none⟩
  else
    match s.stages t hash32 exec_cksum stop_soon (max (len_p2 / TRIM_START_STEPS) TRIM_MIN_BYTES) with
    | .error s => ⟨s, true, none, none⟩
    | .ok s =>
      if s.needs_write then ⟨{ s with maps := s.clean }, false, some (s.in_buf.take s.len), some s.clean⟩
      else ⟨s, false, none, none⟩

/-! ### Greedy removal -/

/-- The inputs that greedy removal goes through, from chunks of `remove_len` on. -/
def sweeps (p : List UInt8 → Prop) [DecidablePred p] (x : List UInt8) (remove_len : ℕ) : List (List UInt8) :=
  if h : remove_len ≥ max (next_p2 x.length / TRIM_END_STEPS) TRIM_MIN_BYTES then
    let ys := sweep p remove_len (by rw [TRIM_MIN_BYTES] at h; omega) x remove_len
    ys ++ sweeps p (ys.getLastD x) (remove_len / 2)
  else []
termination_by remove_len
decreasing_by
  rw [TRIM_MIN_BYTES] at h
  omega

/-- The inputs with the trace of `x` that greedy removal of chunks goes through, starting from `x`. It only depends on
the traces of the target. -/
def shortened (trace_bits : List UInt8 → ℕ → UInt8) (hash32 : (ℕ → UInt8) → UInt32) (x : List UInt8) :
    List (List UInt8) :=
  if x.length < 5 then []
  else sweeps (fun y => hash32 (trace_bits y) = hash32 (trace_bits x)) x
    (max (next_p2 x.length / TRIM_START_STEPS) TRIM_MIN_BYTES)

/-- The last element, of a list that goes on. -/
theorem getLastD_append {α : Type*} (ys zs : List α) (x : α) : (ys ++ zs).getLastD x = zs.getLastD (ys.getLastD x) := by
  cases zs with
  | nil => rw [List.append_nil]; rfl
  | cons z zs => rw [List.getLastD_eq_getLast?, List.getLast?_append_of_ne_nil _ (List.cons_ne_nil z zs),
      List.getLastD_eq_getLast?, List.getLast?_eq_some_getLast (List.cons_ne_nil z zs)]; rfl

/-- The last of some lists, or the first one. -/
theorem getLastD_forall {P : List UInt8 → Prop} {ys : List (List UInt8)} {x : List UInt8} (hx : P x)
    (hys : ∀ y ∈ ys, P y) : P (ys.getLastD x) := by
  rcases List.eq_nil_or_concat ys with rfl | ⟨zs, z, rfl⟩
  · exact hx
  · rw [List.concat_eq_append, getLastD_append]
    exact hys z (by simp)

variable {p : List UInt8 → Prop} [DecidablePred p]

/-- Greedy removal keeps the predicate, and the order of the bytes. -/
theorem sweeps_forall {x : List UInt8} {remove_len : ℕ} : ∀ y ∈ sweeps p x remove_len, p y ∧ y.Sublist x := by
  induction x, remove_len using sweeps.induct p with
  | case1 x remove_len h ys ih =>
    intro y hy
    rw [sweeps, dif_pos h] at hy
    obtain hy | hy := List.mem_append.mp hy
    · exact sweep_forall y hy
    · obtain ⟨hp, hsub⟩ := ih y hy
      have hlast : (ys.getLastD x).Sublist x :=
        @getLastD_forall (·.Sublist x) ys x (List.Sublist.refl x) fun z hz => (sweep_forall z hz).2
      exact ⟨hp, hsub.trans hlast⟩
  | case2 x remove_len h =>
    rw [sweeps, dif_neg h]
    exact fun y hy => absurd hy List.not_mem_nil

/-! ### The run -/

/-- The file with the gap is the input without the chunk. -/
theorem write_with_gap_eq {mem : List UInt8} {len pos : ℕ} (hpos : pos < len) (n : ℕ) :
    write_with_gap mem len pos (min n (len - pos)) = cut (mem.take len) pos n := by
  rw [write_with_gap, cut, List.take_take, Nat.min_eq_left hpos.le, List.drop_take]
  by_cases hn : n ≤ len - pos
  · rw [Nat.min_eq_left hn, Nat.sub_sub]
  · rw [Nat.min_eq_right (by omega), Nat.sub_self, List.take_zero, Nat.sub_eq_zero_of_le (by omega), List.take_zero]

/-- The tail is moved over the chunk. -/
theorem take_memmove {buf : List UInt8} {len pos n : ℕ} (hlen : len ≤ buf.length) (hpos : pos + n ≤ len) :
    (memmove buf pos (pos + n) (len - pos - n)).take (len - n) = write_with_gap buf len pos n := by
  have hfront : (buf.take pos).length = pos := by
    rw [List.length_take]
    omega
  have htail : ((buf.drop (pos + n)).take (len - pos - n)).length = len - pos - n := by
    rw [List.length_take, List.length_drop]
    omega
  have hkept : (write_with_gap buf len pos n).length = len - n := by
    rw [write_with_gap, List.length_append, hfront, htail]
    omega
  rw [memmove, ← List.append_assoc, ← hkept]
  exact List.take_left

theorem length_memmove {buf : List UInt8} {len pos n : ℕ} (hlen : len ≤ buf.length) (hpos : pos + n ≤ len) :
    len - n ≤ (memmove buf pos (pos + n) (len - pos - n)).length := by
  rw [memmove, List.length_append, List.length_append, List.length_take, List.length_take, List.length_drop]
  omega

/-- The run has gone through these inputs. -/
structure Follows (t : Target) (x : List UInt8) (ys : List (List UInt8)) (s : Trim) : Prop where
  /-- The input is in the buffer. -/
  len : s.len ≤ s.in_buf.length
  /-- It is the last one. -/
  input : s.in_buf.take s.len = ys.getLastD x
  /-- The power of two is up to date. -/
  len_p2 : s.len_p2 = next_p2 s.len
  /-- There is something to write after the first removal. -/
  needs_write : s.needs_write = !ys.isEmpty
  /-- What was saved then. -/
  clean : ∀ y ∈ ys.head?, s.clean = t.maps y

namespace Follows

variable {t : Target} {x : List UInt8} {ys : List (List UInt8)} {s : Trim}

theorem length (h : Follows t x ys s) : (ys.getLastD x).length = s.len := by
  rw [← h.input, List.length_take, Nat.min_eq_left h.len]

/-- An execution. -/
theorem run_target (h : Follows t x ys s) (file : List UInt8) : Follows t x ys (s.run_target t file) :=
  ⟨h.len, h.input, h.len_p2, h.needs_write, h.clean⟩

/-- **A removal.** -/
theorem accept (h : Follows t x ys s) {pos : ℕ} (hpos : pos < s.len) (n : ℕ) :
    Follows t x (ys ++ [cut (ys.getLastD x) pos n])
      ((s.run_target t (write_with_gap s.in_buf s.len pos (min n (s.len - pos)))).accept pos (min n (s.len - pos))) := by
  have hgap : pos + min n (s.len - pos) ≤ s.len := by omega
  have hcut := @write_with_gap_eq s.in_buf _ _ hpos n
  rw [h.input] at hcut
  refine ⟨length_memmove h.len hgap, ?_, rfl, ?_, ?_⟩
  · rw [getLastD_append]
    exact (take_memmove h.len hgap).trans hcut
  · simp [Trim.accept]
  · intro y hy
    show (if s.needs_write then s.clean else t.maps _) = t.maps y
    rw [h.needs_write]
    cases ys with
    | nil =>
      rw [hcut]
      cases hy
      rfl
    | cons z zs => exact h.clean y hy

end Follows

section Loops

variable {t : Target} {hash32 : (ℕ → UInt8) → UInt32} {exec_cksum : UInt32} {stop_soon : ℕ → Bool} {x : List UInt8}
  {ys : List (List UInt8)} {s s' : Trim}

/-- **The inner loop** sweeps over the input. -/
theorem chunks_follows {n : ℕ} {hn : 0 < n} {pos : ℕ} (h : Follows t x ys s)
    (hrun : s.chunks t hash32 exec_cksum stop_soon n hn pos = .ok s') :
    Follows t x (ys ++ sweep (fun y => hash32 (t.maps y).trace_bits = exec_cksum) n hn (ys.getLastD x) pos) s' := by
  induction s, pos using Trim.chunks.induct t hash32 exec_cksum stop_soon n hn generalizing ys with
  | case1 s pos hpos avail s₁ =>
    rename_i hstop
    rw [Trim.chunks, if_pos hpos] at hrun
    dsimp only at hrun
    rw [if_pos hstop] at hrun
    cases hrun
  | case2 s pos hpos avail s₁ =>
    rename_i hstop hhash ih
    rw [Trim.chunks, if_pos hpos] at hrun
    dsimp only at hrun
    rw [if_neg hstop, if_pos hhash] at hrun
    have hcut := @write_with_gap_eq s.in_buf _ _ hpos n
    rw [h.input] at hcut
    have hp : hash32 (t.maps (cut (ys.getLastD x) pos n)).trace_bits = exec_cksum := by
      rw [← hcut]
      exact hhash
    have hfollows := ih (h.accept hpos n) hrun
    rw [getLastD_append, List.append_assoc] at hfollows
    rw [sweep, if_pos (by rwa [h.length]), if_pos hp]
    exact hfollows
  | case3 s pos hpos avail s₁ =>
    rename_i hstop hhash ih
    rw [Trim.chunks, if_pos hpos] at hrun
    dsimp only at hrun
    rw [if_neg hstop, if_neg hhash] at hrun
    have hcut := @write_with_gap_eq s.in_buf _ _ hpos n
    rw [h.input] at hcut
    have hp : ¬ hash32 (t.maps (cut (ys.getLastD x) pos n)).trace_bits = exec_cksum := by
      rw [← hcut]
      exact hhash
    rw [sweep, if_pos (by rwa [h.length]), if_neg hp]
    exact ih (h.run_target _) hrun
  | case4 s pos hpos =>
    rw [Trim.chunks, if_neg hpos] at hrun
    cases hrun
    rw [sweep, if_neg (by rwa [h.length]), List.append_nil]
    exact h

/-- **The outer loop** sweeps with shrinking chunks. -/
theorem stages_follows {n : ℕ} (h : Follows t x ys s) (hrun : s.stages t hash32 exec_cksum stop_soon n = .ok s') :
    Follows t x (ys ++ sweeps (fun y => hash32 (t.maps y).trace_bits = exec_cksum) (ys.getLastD x) n) s' := by
  induction s, n using Trim.stages.induct t hash32 exec_cksum stop_soon generalizing ys with
  | case1 s n hn s₁ hchunks =>
    rw [Trim.stages, dif_pos hn, hchunks] at hrun
    cases hrun
  | case2 s n hn s₁ hchunks ih =>
    rw [Trim.stages, dif_pos hn, hchunks] at hrun
    have hfollows := ih (chunks_follows h hchunks) hrun
    rw [getLastD_append, List.append_assoc] at hfollows
    rw [sweeps, dif_pos (by rwa [h.length, ← h.len_p2])]
    exact hfollows
  | case3 s n hn =>
    rw [Trim.stages, dif_neg hn] at hrun
    cases hrun
    rw [sweeps, dif_neg (by rwa [h.length, ← h.len_p2]), List.append_nil]
    exact h

/-- Without Ctrl-C and failed executions the inner loop runs to its end. -/
theorem chunks_ok (hstop : ∀ k, stop_soon k = false) (hfault : ∀ y, t.fault y ≠ .error) {n : ℕ} {hn : 0 < n} {pos : ℕ} :
    ∃ s', s.chunks t hash32 exec_cksum stop_soon n hn pos = .ok s' := by
  induction s, pos using Trim.chunks.induct t hash32 exec_cksum stop_soon n hn with
  | case1 s pos hpos avail s₁ =>
    rename_i hend
    exact absurd hend (not_or.mpr ⟨by simp [hstop], hfault _⟩)
  | case2 s pos hpos avail s₁ =>
    rename_i hend hhash ih
    rw [Trim.chunks, if_pos hpos]
    dsimp only
    rw [if_neg hend, if_pos hhash]
    exact ih
  | case3 s pos hpos avail s₁ =>
    rename_i hend hhash ih
    rw [Trim.chunks, if_pos hpos]
    dsimp only
    rw [if_neg hend, if_neg hhash]
    exact ih
  | case4 s pos hpos =>
    rw [Trim.chunks, if_neg hpos]
    exact ⟨s, rfl⟩

/-- And so does the outer loop. -/
theorem stages_ok (hstop : ∀ k, stop_soon k = false) (hfault : ∀ y, t.fault y ≠ .error) {n : ℕ} :
    ∃ s', s.stages t hash32 exec_cksum stop_soon n = .ok s' := by
  induction s, n using Trim.stages.induct t hash32 exec_cksum stop_soon with
  | case1 s n hn s₁ hchunks =>
    obtain ⟨s', hok⟩ := @chunks_ok t hash32 exec_cksum stop_soon s hstop hfault n (by rw [TRIM_MIN_BYTES] at hn; omega) n
    rw [hok] at hchunks
    cases hchunks
  | case2 s n hn s₁ hchunks ih =>
    rw [Trim.stages, dif_pos hn, hchunks]
    exact ih
  | case3 s n hn =>
    rw [Trim.stages, dif_neg hn]
    exact ⟨s, rfl⟩

end Loops

/-! ### The maps that are scored -/

section Scores

variable {t : Target} {hash32 : (ℕ → UInt8) → UInt32} {stop_soon : ℕ → Bool} {maps clean : Maps} {in_buf : List UInt8}
  {exec_cksum : UInt32}

/-- A run without Ctrl-C and failed executions is not aborted. -/
theorem trim_case_ok (hstop : ∀ k, stop_soon k = false) (hfault : ∀ y, t.fault y ≠ .error) :
    (trim_case t hash32 stop_soon maps clean in_buf exec_cksum).aborted = false := by
  rw [trim_case]
  dsimp only
  split_ifs
  · rfl
  · obtain ⟨s, hs⟩ := @stages_ok t hash32 exec_cksum stop_soon
      ⟨in_buf, in_buf.length, next_p2 in_buf.length, maps, .none, false, clean, 0⟩ hstop hfault
      (max (next_p2 in_buf.length / TRIM_START_STEPS) TRIM_MIN_BYTES)
    rw [hs]
    dsimp only
    split_ifs <;> rfl

/-- **A run that is not aborted** keeps the last input of greedy removal, writes it to the file, and scores the maps of
the first one. -/
theorem trim_case_follows (hcksum : exec_cksum = hash32 (t.maps in_buf).trace_bits)
    (hrun : (trim_case t hash32 stop_soon maps clean in_buf exec_cksum).aborted = false) :
    let ys := shortened (fun y => (t.maps y).trace_bits) hash32 in_buf
    let r := trim_case t hash32 stop_soon maps clean in_buf exec_cksum
    r.input = ys.getLastD in_buf ∧ r.file = ys.getLast? ∧ r.scored = ys.head?.map t.maps := by
  intro ys r
  have hstart : Follows t in_buf [] ⟨in_buf, in_buf.length, next_p2 in_buf.length, maps, .none, false, clean, 0⟩ :=
    ⟨le_rfl, List.take_length, rfl, rfl, fun y hy => nomatch hy⟩
  by_cases hshort : in_buf.length < 5
  · have hys : ys = [] := if_pos hshort
    have hr : r = ⟨⟨in_buf, in_buf.length, next_p2 in_buf.length, maps, .none, false, clean, 0⟩, false, none, none⟩ :=
      if_pos hshort
    rw [hys, hr]
    exact ⟨hstart.input, rfl, rfl⟩
  · have hys : ys = sweeps (fun y => hash32 (t.maps y).trace_bits = exec_cksum) in_buf
        (max (next_p2 in_buf.length / TRIM_START_STEPS) TRIM_MIN_BYTES) := by
      subst hcksum
      exact if_neg hshort
    have hr : r = _ := if_neg hshort
    have hrun : r.aborted = false := hrun
    cases hstages : Trim.stages t hash32 exec_cksum stop_soon
      ⟨in_buf, in_buf.length, next_p2 in_buf.length, maps, .none, false, clean, 0⟩
      (max (next_p2 in_buf.length / TRIM_START_STEPS) TRIM_MIN_BYTES) with
    | error s =>
      rw [hstages] at hr
      rw [hr] at hrun
      cases hrun
    | ok s =>
      rw [hstages] at hr
      dsimp only at hr
      have hfollows := stages_follows hstart hstages
      rw [List.nil_append, List.getLastD_nil, ← hys] at hfollows
      clear_value ys
      cases ys with
      | nil =>
        have hwrite : s.needs_write = false := hfollows.needs_write
        rw [if_neg (by simp [hwrite])] at hr
        rw [hr]
        exact ⟨hfollows.input, rfl, rfl⟩
      | cons y ys =>
        have hwrite : s.needs_write = true := hfollows.needs_write
        rw [if_pos hwrite] at hr
        rw [hr]
        refine ⟨hfollows.input, ?_, congrArg some (hfollows.clean y rfl)⟩
        rw [hfollows.input, List.getLastD_eq_getLast?, List.getLast?_eq_some_getLast (List.cons_ne_nil y ys)]
        rfl

/-- The inputs of greedy removal have the trace of the first one, and its bytes in their order. -/
theorem shortened_forall {trace_bits : List UInt8 → ℕ → UInt8} {x : List UInt8} :
    ∀ y ∈ shortened trace_bits hash32 x, hash32 (trace_bits y) = hash32 (trace_bits x) ∧ y.Sublist x := by
  rw [shortened]
  split_ifs
  · exact fun y hy => absurd hy List.not_mem_nil
  · exact sweeps_forall

/-- The input that is kept has the checksum of the first one and its bytes in their order, and the maps that are scored
are its own. -/
structure ScoresKept (t : Target) (hash32 : (ℕ → UInt8) → UInt32) (in_buf : List UInt8) (r : Trimmed) : Prop where
  /-- The checksum. -/
  cksum : hash32 (t.maps r.input).trace_bits = hash32 (t.maps in_buf).trace_bits
  /-- The order. -/
  order : r.input.Sublist in_buf
  /-- The maps. -/
  scored : ∀ m, r.scored = some m → m = t.maps r.input

/-- The first and the last input of greedy removal have the same hybrid map, when a chunk is removed at all. -/
def SameHybrid (t : Target) (hash32 : (ℕ → UInt8) → UInt32) (x : List UInt8) : Prop :=
  ∀ y z, (shortened (fun y => (t.maps y).trace_bits) hash32 x).head? = some y →
    (shortened (fun y => (t.maps y).trace_bits) hash32 x).getLast? = some z → (t.maps y).hybrid_bits = (t.maps z).hybrid_bits

/-- **Trimming scores the input it keeps** if and only if the first and the last input that greedy removal goes through
have the same hybrid map. -/
theorem trim_scores_iff (hcksum : exec_cksum = hash32 (t.maps in_buf).trace_bits)
    (hinj : ∀ y z, hash32 (t.maps y).trace_bits = hash32 (t.maps z).trace_bits →
      (t.maps y).trace_bits = (t.maps z).trace_bits)
    (hrun : (trim_case t hash32 stop_soon maps clean in_buf exec_cksum).aborted = false) :
    ScoresKept t hash32 in_buf (trim_case t hash32 stop_soon maps clean in_buf exec_cksum) ↔
      SameHybrid t hash32 in_buf := by
  obtain ⟨hinput, -, hscored⟩ := trim_case_follows hcksum hrun
  have hall := @shortened_forall hash32 (fun y => (t.maps y).trace_bits) in_buf
  rw [SameHybrid]
  generalize shortened (fun y => (t.maps y).trace_bits) hash32 in_buf = ys at hinput hscored hall
  constructor
  · intro h y z hy hz
    rw [hy] at hscored
    have hmaps := h.scored _ hscored
    rw [hinput, List.getLastD_eq_getLast?, hz] at hmaps
    exact congrArg Maps.hybrid_bits hmaps
  · intro h
    have hlast : hash32 (t.maps (ys.getLastD in_buf)).trace_bits = hash32 (t.maps in_buf).trace_bits :=
      @getLastD_forall (fun z => hash32 (t.maps z).trace_bits = hash32 (t.maps in_buf).trace_bits) ys in_buf rfl
        fun z hz => (hall z hz).1
    refine ⟨by rwa [hinput], ?_, fun m hm => ?_⟩
    · rw [hinput]
      exact @getLastD_forall (·.Sublist in_buf) ys in_buf (List.Sublist.refl _) fun z hz => (hall z hz).2
    · cases ys with
      | nil =>
        rw [hscored] at hm
        cases hm
      | cons y ys =>
        rw [hscored] at hm
        cases hm
        have htrace := hinj y _ ((hall y List.mem_cons_self).1.trans hlast.symm)
        have hlastD : (y :: ys).getLast? = some ((y :: ys).getLastD in_buf) := by
          rw [List.getLastD_eq_getLast?, List.getLast?_eq_some_getLast (List.cons_ne_nil y ys)]
          rfl
        have hhybrid := h y _ rfl hlastD
        rw [hinput]
        exact Maps.ext htrace hhybrid

end Scores

/-- A checksum of the first byte of the trace. -/
def firstByte (trace_bits : ℕ → UInt8) : UInt32 := (trace_bits 0).toUInt32

/-- A target whose maps do not depend on the input. -/
def steady : Target := ⟨fun _ => .none, fun _ => ⟨fun _ => 1, fun _ => 1⟩⟩

/-- It never fails. -/
theorem steady_fault (y : List UInt8) : steady.fault y ≠ .error := Fault.noConfusion

/-- Its maps are scored. -/
theorem trim_scores_steady : ScoresKept steady firstByte (List.replicate 9 0)
    (trim_case steady firstByte (fun _ => false) (steady.maps []) (steady.maps []) (List.replicate 9 0) 1) :=
  (trim_scores_iff rfl (fun _ _ _ => rfl) (trim_case_ok (fun _ => rfl) steady_fault)).mpr fun _ _ _ _ => rfl

/-- A target that counts the bytes in the hybrid map. -/
def counting : Target := ⟨fun _ => .none, fun y => ⟨fun _ => 1, fun _ => UInt32.ofNat y.length⟩⟩

/-- Nine bytes are shortened to five, and to four. -/
theorem shortened_counting : shortened (fun y => (counting.maps y).trace_bits) firstByte (List.replicate 9 0) =
    [List.replicate 5 0, List.replicate 4 0] := by
  simp [shortened, sweeps, sweep, cut, next_p2, next_p2.loop, TRIM_START_STEPS, TRIM_END_STEPS, TRIM_MIN_BYTES, counting]

/-- The hybrid map of the five bytes is scored for the four that are kept. -/
theorem not_trim_scores : ¬ ∀ (t : Target) (hash32 : (ℕ → UInt8) → UInt32) (stop_soon : ℕ → Bool) (maps clean : Maps)
    (in_buf : List UInt8) (exec_cksum : UInt32), exec_cksum = hash32 (t.maps in_buf).trace_bits →
    (∀ y z, hash32 (t.maps y).trace_bits = hash32 (t.maps z).trace_bits →
      (t.maps y).trace_bits = (t.maps z).trace_bits) →
    (trim_case t hash32 stop_soon maps clean in_buf exec_cksum).aborted = false →
    ScoresKept t hash32 in_buf (trim_case t hash32 stop_soon maps clean in_buf exec_cksum) := by
  intro h
  have hrun : (trim_case counting firstByte (fun _ => false) (counting.maps []) (counting.maps [])
      (List.replicate 9 0) 1).aborted = false := trim_case_ok (fun _ => rfl) fun _ => Fault.noConfusion
  obtain ⟨hinput, -, hscored⟩ := trim_case_follows rfl hrun
  have hkept := h counting firstByte _ _ _ _ _ rfl (fun _ _ _ => rfl) hrun
  rw [shortened_counting] at hinput hscored
  have hmaps := hkept.scored _ hscored
  rw [hinput] at hmaps
  have hcount : UInt32.ofNat 5 = UInt32.ofNat 4 := congrFun (congrArg Maps.hybrid_bits hmaps) 0
  exact absurd hcount (by decide)

end SEDiff.Afl
