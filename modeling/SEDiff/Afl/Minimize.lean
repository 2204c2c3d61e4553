import SEDiff.Afl.MaxHybrid
import SEDiff.Afl.Trim
import SEDiff.Foundation.Simpler

/-!
# Minimizing test cases

`minimize` of `src/afl/afl-tmin.c`, and the `run_target` and `main` around it: blocks are normalized once, then blocks
are deleted, symbols replaced and characters replaced in passes, until a pass changes nothing.

## What is proved

* `main_written` — whatever is written, at the end or after Ctrl-C, is a simplification of the input that the target
  treats alike.
* `main_minimal` — at the end no block of a size that is tried can be deleted, and no single byte.
-/

namespace SEDiff.Afl.Minimize

open Foundation

/-! ### The target -/

/-- How the child ends. -/
inductive Status
  /-- It is killed by a signal. -/
  | signaled (termsig : ℕ)
  /-- It exits. -/
  | exited (exitstatus : UInt8)
  deriving DecidableEq

/-- What an execution leaves. -/
structure Outcome where
  /-- `child_timed_out`. -/
  timed_out : Bool
  /-- What `waitpid` reports. -/
  status : Status
  /-- The shared memory. -/
  trace_bits : ℕ → UInt8

/-- `MSAN_ERROR`. -/
def MSAN_ERROR : UInt8 := 86

/-- What the minimizer is started with. -/
structure Setting where
  /-- Treat non-zero exit as crash? -/
  exit_crash : Bool
  /-- Require path match for crashes? -/
  exact_mode : Bool
  /-- Ignore hit counts? -/
  edges_only : Bool
  /-- Mask for trace bits (-B). -/
  mask_bitmap : Option (ℕ → UInt8)
  /-- The checksum. -/
  hash32 : (ℕ → UInt8) → UInt32
  /-- A deterministic target. -/
  exec : List UInt8 → Outcome
  /-- Is Ctrl-C pressed before the end of this execution? -/
  stop_soon : ℕ → Bool

/-- `classify_counts`; the table is the one of the fuzzer. -/
def classify_counts (edges_only : Bool) (mem : ℕ → UInt8) : ℕ → UInt8 := fun i =>
  if edges_only then if mem i ≠ 0 then 1 else 0 else count_class_lookup8 (mem i)

/-- `apply_mask`. -/
def apply_mask (mem : ℕ → UInt8) : Option (ℕ → UInt8) → ℕ → UInt8
  | none => mem
  | some mask => fun i => mem i &&& ~~~ mask i

/-- `anything_set`. -/
def anything_set (trace_bits : ℕ → UInt8) : Bool := (List.range MAP_SIZE).any fun i => trace_bits i != 0

namespace Setting

variable (e : Setting)

/-- The conditions that `run_target` handles as crashes. -/
def crashes (mem : List UInt8) : Bool :=
  match (e.exec mem).status with
  | .signaled _ => true
  | .exited exitstatus => exitstatus = MSAN_ERROR || exitstatus ≠ 0 && e.exit_crash

/-- The trace after an execution. -/
def trace (mem : List UInt8) : ℕ → UInt8 :=
  apply_mask (classify_counts e.edges_only (e.exec mem).trace_bits) e.mask_bitmap

/-- Its checksum. -/
def cksum (mem : List UInt8) : UInt32 := e.hash32 (e.trace mem)

end Setting

/-! ### The source -/

/-- What `run_target` and `minimize` work on. -/
structure Tmin where
  /-- Input data for trimming; `in_len` is its length. -/
  in_data : List UInt8
  /-- Crash-centric mode? -/
  crash_mode : Bool
  /-- Original checksum. -/
  orig_cksum : UInt32
  /-- Total number of execs. -/
  total_execs : ℕ
  /-- Did anything change in this pass? -/
  changed_any : Bool
  /-- What `run_target` returned last. -/
  res : Bool

/-- `TMIN_SET_MIN_SIZE`. -/
def TMIN_SET_MIN_SIZE : ℕ := 4

/-- `TMIN_SET_STEPS`. -/
def TMIN_SET_STEPS : ℕ := 128

/-- `TMIN_MAX_FILE`. -/
def TMIN_MAX_FILE : ℕ := 10 * 1024 * 1024

/-- The neutral character `'0'`. -/
def zero : UInt8 := 48

namespace Tmin

variable (e : Setting)

/-- The end of `run_target`, where checksums are compared. -/
def compare (first_run : Bool) (s : Tmin) (cksum : UInt32) : Tmin :=
  let s := if first_run then { s with orig_cksum := cksum } else s
  { s with res := s.orig_cksum = cksum }

/-- `run_target`, up to the check of `stop_soon`, which its callers make. That it ends the program when the target could not be
executed (`EXEC_FAIL_SIG`) is left out. -/
def run_target (first_run : Bool) (s : Tmin) (mem : List UInt8) : Tmin :=
  let s := { s with total_execs := s.total_execs + 1 }
  if (e.exec mem).timed_out then { s with res := false }
  else if e.crashes mem then
    let s := if first_run then { s with crash_mode := true } else s
    if s.crash_mode then
      if !e.exact_mode then { s with res := true }
      else s.compare first_run (e.cksum mem)
    else { s with res := false }
  else if s.crash_mode then { s with res := false }
  else s.compare first_run (e.cksum mem)

/-- The candidate is copied to `in_data`. -/
def keep (s : Tmin) (tmp_buf : List UInt8) : Tmin := { s with in_data := tmp_buf, changed_any := true }

theorem run_target_in_data (first_run : Bool) (s : Tmin) (mem : List UInt8) :
    (s.run_target e first_run mem).in_data = s.in_data := by
  simp only [run_target, compare]
  split_ifs <;> rfl

theorem run_target_changed_any (first_run : Bool) (s : Tmin) (mem : List UInt8) :
    (s.run_target e first_run mem).changed_any = s.changed_any := by
  simp only [run_target, compare]
  split_ifs <;> rfl

/-- Block normalization, from `set_pos` on. An `error` is what is written when Ctrl-C is pressed. -/
def normalize (set_len : ℕ) (hlen : 0 < set_len) (s : Tmin) (set_pos : ℕ) : Except (List UInt8) Tmin :=
  if set_pos < s.in_data.length then
    let use_len := min set_len (s.in_data.length - set_pos)
    if ((s.in_data.drop set_pos).take use_len).all (· == zero) then normalize set_len hlen s (set_pos + set_len)
    else
      let tmp_buf := fill zero s.in_data set_pos use_len
      let s' := s.run_target e false tmp_buf
      if e.stop_soon s'.total_execs then .error s.in_data
      else if s'.res then normalize set_len hlen (s'.keep tmp_buf) (set_pos + set_len)
      else normalize set_len hlen s' (set_pos + set_len)
  else .ok s
termination_by s.in_data.length - set_pos
decreasing_by
  · omega
  · show (fill zero s.in_data set_pos (min set_len (s.in_data.length - set_pos))).length - _ < _
    rw [length_fill (by omega)]
    omega
  · rw [run_target_in_data]
    omega

/-- One size of block deletion, from `del_pos` on. -/
def del_blocks (del_len : ℕ) (hlen : 0 < del_len) (s : Tmin) (del_pos : ℕ) (prev_del : Bool) :
    Except (List UInt8) Tmin :=
  if del_pos < s.in_data.length then
    let tail_len := s.in_data.length - del_pos - del_len
    -- the block is a copy of the one before, which was not deleted
    if !prev_del && tail_len != 0 &&
        (s.in_data.drop (del_pos - del_len)).take del_len == (s.in_data.drop del_pos).take del_len then
      del_blocks del_len hlen s (del_pos + del_len) prev_del
    else
      let tmp_buf := s.in_data.take del_pos ++ (s.in_data.drop (del_pos + del_len)).take tail_len
      let s' := s.run_target e false tmp_buf
      if e.stop_soon s'.total_execs then .error s.in_data
      else if s'.res then del_blocks del_len hlen (s'.keep tmp_buf) del_pos true
      else del_blocks del_len hlen s' (del_pos + del_len) false
  else .ok s
termination_by s.in_data.length - del_pos
decreasing_by
  · omega
  · simp only [keep, List.length_append, List.length_take, List.length_drop]
    omega
  · rw [run_target_in_data]
    omega

/-- Block deletion, from blocks of `del_len` on; zero counts as one. -/
def deletion (s : Tmin) (del_len : ℕ) : Except (List UInt8) Tmin :=
  match s.del_blocks e (max del_len 1) (by omega) 0 true with
  | .error y => .error y
  | .ok s => if max del_len 1 > 1 ∧ s.in_data.length ≥ 1 then deletion s (max del_len 1 / 2) else .ok s
termination_by del_len
decreasing_by omega

/-- How often a byte occurs. -/
def alpha_map (in_data : List UInt8) (i : UInt8) : ℕ := in_data.count i

/-- Alphabet minimization, of these symbols. -/
def alphabet (alpha_map : UInt8 → ℕ) : List UInt8 → Tmin → Except (List UInt8) Tmin
  | [], s => .ok s
  | i :: is, s =>
    if i = zero || alpha_map i = 0 then alphabet alpha_map is s
    else
      let tmp_buf := s.in_data.map fun b => if b = i then zero else b
      let s' := s.run_target e false tmp_buf
      if e.stop_soon s'.total_execs then .error s.in_data
      else if s'.res then alphabet alpha_map is (s'.keep tmp_buf)
      else alphabet alpha_map is s'

/-- Character minimization, from `i` on. -/
def characters (s : Tmin) (tmp_buf : List UInt8) (i : ℕ) : Except (List UInt8) Tmin :=
  if i < s.in_data.length then
    let orig := tmp_buf.getD i 0
    if orig = zero then characters s tmp_buf (i + 1)
    else
      let tmp_buf := tmp_buf.set i zero
      let s' := s.run_target e false tmp_buf
      if e.stop_soon s'.total_execs then .error s.in_data
      else if s'.res then characters (s'.keep (s.in_data.set i zero)) tmp_buf (i + 1)
      else characters s' (tmp_buf.set i orig) (i + 1)
  else .ok s
termination_by s.in_data.length - i
decreasing_by
  · omega
  · simp only [keep, List.length_set]
    omega
  · rw [run_target_in_data]
    omega

/-- Alphabet and character minimization. -/
def symbols (s : Tmin) : Except (List UInt8) Tmin := do
  let s ← alphabet e (alpha_map s.in_data) ((List.range 256).map UInt8.ofNat) s
  characters e s s.in_data 0

/-- One pass; where it goes to `finalize_all` nothing has changed, so that there is no other pass either way. -/
def pass (s : Tmin) (cur_pass : ℕ) : Except (List UInt8) Tmin := do
  let s ← deletion e { s with changed_any := false } (next_p2 (s.in_data.length / TRIM_START_STEPS))
  if cur_pass > 1 && !s.changed_any then return s
  symbols e s

/-! ### What a stage does -/

/-- The candidates that `run_target` keeps after the first run. -/
def accepts (crash_mode : Bool) (orig_cksum : UInt32) (mem : List UInt8) : Bool :=
  !(e.exec mem).timed_out && e.crashes mem == crash_mode &&
    (crash_mode && !e.exact_mode || orig_cksum = e.cksum mem)

/-- What a later run returns. -/
theorem run_target_res (s : Tmin) (mem : List UInt8) :
    (s.run_target e false mem).res = accepts e s.crash_mode s.orig_cksum mem := by
  simp only [run_target, compare, accepts]
  cases (e.exec mem).timed_out <;> cases e.crashes mem <;> cases s.crash_mode <;> cases e.exact_mode <;> simp

theorem run_target_crash_mode (s : Tmin) (mem : List UInt8) : (s.run_target e false mem).crash_mode = s.crash_mode := by
  simp only [run_target, compare]
  split_ifs <;> simp_all

theorem run_target_orig_cksum (s : Tmin) (mem : List UInt8) : (s.run_target e false mem).orig_cksum = s.orig_cksum := by
  simp only [run_target, compare]
  split_ifs <;> simp_all

/-- The input is simplified by candidates that are kept; `changed_any` tells whether there was one. -/
structure Descends (s s' : Tmin) : Prop where
  /-- The mode is fixed. -/
  crash_mode : s'.crash_mode = s.crash_mode
  /-- So is the checksum. -/
  orig_cksum : s'.orig_cksum = s.orig_cksum
  /-- The input is simpler. -/
  simpler : Simpler zero s'.in_data s.in_data
  /-- Nothing changed, or the last candidate that was kept makes the input lighter. -/
  changed : s'.changed_any = s.changed_any ∧ s'.in_data = s.in_data ∨
    s'.changed_any = true ∧ weight zero s'.in_data < weight zero s.in_data ∧
      accepts e s.crash_mode s.orig_cksum s'.in_data = true

variable {e} {s s' s'' : Tmin} {y : List UInt8}

namespace Descends

theorem refl (s : Tmin) : Descends e s s := ⟨rfl, rfl, .refl _, .inl ⟨rfl, rfl⟩⟩

theorem trans (h₁ : Descends e s s') (h₂ : Descends e s' s'') : Descends e s s'' := by
  refine ⟨h₂.crash_mode.trans h₁.crash_mode, h₂.orig_cksum.trans h₁.orig_cksum, h₂.simpler.trans h₁.simpler, ?_⟩
  have h₂' := h₂.changed
  rw [h₁.crash_mode, h₁.orig_cksum] at h₂'
  rcases h₂' with ⟨hchanged, hdata⟩ | ⟨hchanged, hlt, hkept⟩
  · rw [hchanged, hdata]
    exact h₁.changed
  · exact .inr ⟨hchanged, Nat.lt_of_lt_of_le hlt h₁.simpler.weight_le, hkept⟩

/-- A candidate is discarded. -/
theorem discard (s : Tmin) (mem : List UInt8) : Descends e s (s.run_target e false mem) := by
  refine ⟨run_target_crash_mode e s mem, run_target_orig_cksum e s mem, ?_, .inl ⟨?_, ?_⟩⟩
  · rw [run_target_in_data]
    exact .refl _
  · exact run_target_changed_any e false s mem
  · exact run_target_in_data e false s mem

/-- A candidate is kept. -/
theorem keep {mem : List UInt8} (hsimpler : Simpler zero mem s.in_data) (hne : mem ≠ s.in_data)
    (hres : (s.run_target e false mem).res = true) : Descends e s ((s.run_target e false mem).keep mem) := by
  refine ⟨run_target_crash_mode e s mem, run_target_orig_cksum e s mem, hsimpler, .inr ⟨rfl, hsimpler.weight_lt hne, ?_⟩⟩
  rwa [run_target_res] at hres

/-- **Nothing changed** when `changed_any` is not set. -/
theorem unchanged (h : Descends e s s') (hs' : s'.changed_any = false) :
    s.changed_any = false ∧ s'.in_data = s.in_data := by
  rcases h.changed with ⟨hchanged, hdata⟩ | ⟨hchanged, -⟩
  · exact ⟨hchanged.symm.trans hs', hdata⟩
  · rw [hs'] at hchanged
    cases hchanged

/-- Something changed when it is set, but was not before. -/
theorem weight_lt (h : Descends e s s') (hs : s.changed_any = false) (hs' : s'.changed_any = true) :
    weight zero s'.in_data < weight zero s.in_data := by
  rcases h.changed with ⟨hchanged, -⟩ | ⟨-, hlt, -⟩
  · rw [hs, hs'] at hchanged
    cases hchanged
  · exact hlt

end Descends

/-- A stage descends, also when it is aborted. -/
def Reaches (e : Setting) (s : Tmin) : Except (List UInt8) Tmin → Prop
  | .ok s' => Descends e s s'
  | .error y => (∃ n, e.stop_soon n = true) ∧ ∃ s', Descends e s s' ∧ s'.in_data = y

theorem Reaches.trans {r : Except (List UInt8) Tmin} (h₁ : Descends e s s') (h₂ : Reaches e s' r) : Reaches e s r := by
  cases r with
  | ok s'' => exact h₁.trans h₂
  | error y =>
    obtain ⟨hstop, s'', h₂, hy⟩ := h₂
    exact ⟨hstop, s'', h₁.trans h₂, hy⟩

/-- A stage after another one. -/
theorem Reaches.bind {r : Except (List UInt8) Tmin} {k : Tmin → Except (List UInt8) Tmin} (h₁ : Reaches e s r)
    (h₂ : ∀ s', r = .ok s' → Reaches e s' (k s')) : Reaches e s (r >>= k) := by
  cases r with
  | ok s' => exact Reaches.trans h₁ (h₂ s' rfl)
  | error y => exact h₁

/-- Ctrl-C. -/
theorem Reaches.stop {n : ℕ} (hstop : e.stop_soon n = true) (s : Tmin) : Reaches e s (.error s.in_data) :=
  ⟨⟨n, hstop⟩, s, .refl s, rfl⟩

/-- The bytes are the ones that are written over them. -/
theorem all_of_fill_eq {x : List UInt8} {pos n : ℕ} (hfit : pos + n ≤ x.length) (h : fill zero x pos n = x) :
    ((x.drop pos).take n).all (· == zero) = true := by
  have hfront : (x.take pos).length = pos := by
    rw [List.length_take]
    omega
  have hdrop : (fill zero x pos n).drop pos = List.replicate n zero ++ x.drop (pos + n) := by
    rw [fill, List.drop_append_of_le_length (by omega), List.drop_of_length_le (by omega), List.nil_append]
  rw [h] at hdrop
  rw [hdrop, List.take_left' List.length_replicate]
  simp

/-- Head and tail. -/
theorem head_tail_eq_cut (x : List UInt8) (pos n : ℕ) :
    x.take pos ++ (x.drop (pos + n)).take (x.length - pos - n) = cut x pos n := by
  have htail : (x.drop (pos + n)).length ≤ x.length - pos - n := by
    rw [List.length_drop]
    omega
  rw [cut, List.take_of_length_le htail]

/-- The symbols are looked at once. -/
theorem nodup_symbols : ((List.range 256).map UInt8.ofNat).Nodup := by
  refine List.Nodup.map_on ?_ List.nodup_range
  intro m hm n hn h
  rw [List.mem_range] at hm hn
  have htoNat := congr_arg UInt8.toNat h
  rwa [UInt8.toNat_ofNat_of_lt' hm, UInt8.toNat_ofNat_of_lt' hn] at htoNat

/-- **A candidate** is tried. -/
theorem Reaches.attempt {mem : List UInt8} {n : ℕ} {a b : Except (List UInt8) Tmin}
    (hsimpler : Simpler zero mem s.in_data) (hne : mem ≠ s.in_data)
    (ha : Reaches e ((s.run_target e false mem).keep mem) a) (hb : Reaches e (s.run_target e false mem) b) :
    Reaches e s (if e.stop_soon n then .error s.in_data else if (s.run_target e false mem).res then a else b) := by
  split_ifs with hstop hres
  · exact .stop hstop s
  · exact .trans (.keep hsimpler hne hres) ha
  · exact .trans (.discard s mem) hb

/-! ### The stages -/

theorem normalize_reaches (set_len : ℕ) (hlen : 0 < set_len) (s : Tmin) (set_pos : ℕ) :
    Reaches e s (s.normalize e set_len hlen set_pos) := by
  rw [normalize]
  split
  · rename_i hpos
    have hfit : set_pos + min set_len (s.in_data.length - set_pos) ≤ s.in_data.length := by omega
    dsimp only
    split
    · exact normalize_reaches set_len hlen s (set_pos + set_len)
    · rename_i hall
      refine .attempt (simpler_fill hfit) ?_ ?_ ?_
      · intro hsame
        exact hall (all_of_fill_eq hfit hsame)
      · exact normalize_reaches set_len hlen _ (set_pos + set_len)
      · exact normalize_reaches set_len hlen _ (set_pos + set_len)
  · exact Descends.refl s
termination_by s.in_data.length - set_pos
decreasing_by
  · simp only [Tmin.keep]
    rw [length_fill hfit]
    omega
  · rw [run_target_in_data]
    omega
  · omega

theorem del_blocks_reaches (del_len : ℕ) (hlen : 0 < del_len) (s : Tmin) (del_pos : ℕ) (prev_del : Bool) :
    Reaches e s (s.del_blocks e del_len hlen del_pos prev_del) := by
  rw [del_blocks]
  split
  · rename_i hpos
    dsimp only
    split
    · exact del_blocks_reaches del_len hlen s (del_pos + del_len) prev_del
    · rw [head_tail_eq_cut]
      refine .attempt (simpler_cut s.in_data del_pos del_len) ?_ ?_ ?_
      · intro hsame
        exact absurd (congr_arg List.length hsame) (Nat.ne_of_lt (length_cut_lt hpos hlen))
      · exact del_blocks_reaches del_len hlen _ del_pos true
      · exact del_blocks_reaches del_len hlen _ (del_pos + del_len) false
  · exact Descends.refl s
termination_by s.in_data.length - del_pos
decreasing_by
  · simp only [Tmin.keep]
    rw [length_cut]
    omega
  · rw [run_target_in_data]
    omega
  · omega

theorem deletion_reaches (s : Tmin) (del_len : ℕ) : Reaches e s (s.deletion e del_len) := by
  rw [deletion]
  have hblocks := @del_blocks_reaches e (max del_len 1) (by omega) s 0 true
  split
  · rename_i y hy
    rwa [hy] at hblocks
  · rename_i s' hs'
    rw [hs'] at hblocks
    split
    · exact .trans hblocks (deletion_reaches s' (max del_len 1 / 2))
    · exact hblocks
termination_by del_len
decreasing_by omega

/-- The symbols that occur are those that are counted, until they are replaced. -/
theorem alphabet_reaches {count : UInt8 → ℕ} {is : List UInt8} (hnodup : is.Nodup) (s : Tmin)
    (hcount : ∀ i ∈ is, i ≠ zero → count i ≠ 0 → i ∈ s.in_data) : Reaches e s (s.alphabet e count is) := by
  induction is generalizing s with
  | nil => exact Descends.refl s
  | cons i is ih =>
    obtain ⟨hi, hnodup⟩ := List.nodup_cons.mp hnodup
    rw [alphabet]
    split
    · exact ih hnodup s fun j hj => hcount j (List.mem_cons_of_mem i hj)
    · rename_i hskip
      rw [Bool.or_eq_true, decide_eq_true_eq, decide_eq_true_eq, not_or] at hskip
      have hmem := hcount i List.mem_cons_self hskip.1 hskip.2
      dsimp only
      refine .attempt (simpler_map (fun b => ?_) s.in_data) ?_ (ih hnodup _ ?_) (ih hnodup _ ?_)
      · split
        · exact .inr rfl
        · exact .inl rfl
      · intro hsame
        rw [← hsame, List.mem_map] at hmem
        obtain ⟨b, -, hb⟩ := hmem
        split at hb
        · exact hskip.1 hb.symm
        · rename_i hne
          exact hne hb
      · intro j hj hjzero hjcount
        have hji : j ≠ i := fun h => hi (h ▸ hj)
        exact List.mem_map.mpr ⟨j, hcount j (List.mem_cons_of_mem i hj) hjzero hjcount, if_neg hji⟩
      · intro j hj hjzero hjcount
        rw [run_target_in_data]
        exact hcount j (List.mem_cons_of_mem i hj) hjzero hjcount

theorem characters_reaches (s : Tmin) (i : ℕ) : Reaches e s (s.characters e s.in_data i) := by
  rw [characters]
  split
  · rename_i hi
    dsimp only
    rw [← List.getElem_eq_getD (h := hi) 0]
    split
    · exact characters_reaches s (i + 1)
    · rename_i hzero
      refine .attempt (simpler_set s.in_data i) (set_ne hi hzero) ?_ ?_
      · exact characters_reaches ((s.run_target e false (s.in_data.set i zero)).keep (s.in_data.set i zero)) (i + 1)
      · -- the character is put back
        have hback : (s.in_data.set i zero).set i s.in_data[i] = (s.run_target e false (s.in_data.set i zero)).in_data := by
          rw [List.set_set, List.set_getElem_self, run_target_in_data]
        rw [hback]
        exact characters_reaches _ (i + 1)
  · exact Descends.refl s
termination_by s.in_data.length - i
decreasing_by
  · simp only [Tmin.keep, List.length_set]
    omega
  · rw [run_target_in_data]
    omega
  · omega

theorem symbols_reaches (s : Tmin) : Reaches e s (s.symbols e) := by
  rw [symbols]
  refine .bind (alphabet_reaches nodup_symbols s ?_) fun s' _ => characters_reaches s' 0
  intro i _ _ hcount
  exact List.count_pos_iff.mp (Nat.pos_of_ne_zero hcount)

/-- **One pass**: block deletion, and what follows it. -/
theorem pass_cases (s : Tmin) (cur_pass : ℕ) :
    Reaches e { s with changed_any := false } (s.pass e cur_pass) ∧
      ∀ s', s.pass e cur_pass = .ok s' → ∃ s₁, Tmin.deletion e { s with changed_any := false }
        (next_p2 (s.in_data.length / TRIM_START_STEPS)) = .ok s₁ ∧ Descends e s₁ s' := by
  have hdeletion := @deletion_reaches e { s with changed_any := false } (next_p2 (s.in_data.length / TRIM_START_STEPS))
  rw [pass]
  cases hrun : Tmin.deletion e { s with changed_any := false } (next_p2 (s.in_data.length / TRIM_START_STEPS)) with
  | error y =>
    rw [hrun] at hdeletion
    refine ⟨hdeletion, fun s' h => ?_⟩
    cases h
  | ok s₁ =>
    rw [hrun] at hdeletion
    have hrest : Reaches e s₁ (if cur_pass > 1 && !s₁.changed_any then .ok s₁ else s₁.symbols e) := by
      split
      · exact Descends.refl s₁
      · exact symbols_reaches s₁
    refine ⟨.trans hdeletion hrest, fun s' h => ⟨s₁, rfl, ?_⟩⟩
    have hs' : (if cur_pass > 1 && !s₁.changed_any then .ok s₁ else s₁.symbols e) = Except.ok s' := h
    rwa [hs'] at hrest

/-! ### Deletions that fail -/

/-- No block of `n` bytes can be deleted. -/
def Undeletable (e : Setting) (s : Tmin) (n : ℕ) : Prop :=
  ∀ pos, n ∣ pos → pos < s.in_data.length → accepts e s.crash_mode s.orig_cksum (cut s.in_data pos n) = false

/-- Every block is tried, or is a copy of one that was. -/
theorem del_blocks_fails {del_len : ℕ} {hlen : 0 < del_len} (s : Tmin) {s' : Tmin} (del_pos : ℕ) {prev_del : Bool}
    (hrun : s.del_blocks e del_len hlen del_pos prev_del = .ok s') (hs' : s'.changed_any = false)
    (hprev : prev_del = false → del_len ≤ del_pos ∧
      accepts e s.crash_mode s.orig_cksum (cut s.in_data (del_pos - del_len) del_len) = false) :
    ∀ q, del_pos ≤ q → del_len ∣ q - del_pos → q < s.in_data.length →
      accepts e s.crash_mode s.orig_cksum (cut s.in_data q del_len) = false := by
  intro q hq hdvd hlt
  have hnext : q ≠ del_pos → del_pos + del_len ≤ q ∧ del_len ∣ q - (del_pos + del_len) := by
    intro hne
    have hle := Nat.le_of_dvd (by omega) hdvd
    refine ⟨by omega, ?_⟩
    rw [← Nat.sub_sub]
    exact Nat.dvd_sub hdvd (Nat.dvd_refl del_len)
  rw [del_blocks, if_pos (by omega)] at hrun
  dsimp only at hrun
  split at hrun
  · rename_i hskip
    simp only [Bool.and_eq_true, Bool.not_eq_true', bne_iff_ne, ne_eq, beq_iff_eq] at hskip
    obtain ⟨⟨hfalse, -⟩, hsame⟩ := hskip
    obtain ⟨hle, hbefore⟩ := hprev hfalse
    have hpos : accepts e s.crash_mode s.orig_cksum (cut s.in_data del_pos del_len) = false := by
      rwa [cut_eq_of_repeat hle hsame]
    by_cases hqpos : q = del_pos
    · rwa [hqpos]
    · obtain ⟨hnq, hndvd⟩ := hnext hqpos
      refine del_blocks_fails s (del_pos + del_len) hrun hs' (fun _ => ⟨by omega, ?_⟩) q hnq hndvd hlt
      rwa [Nat.add_sub_cancel]
  · rw [head_tail_eq_cut] at hrun
    split at hrun
    · cases hrun
    · split at hrun
      · -- a deletion that succeeds would be recorded
        have hreach := @del_blocks_reaches e del_len hlen ((s.run_target e false (cut s.in_data del_pos del_len)).keep
          (cut s.in_data del_pos del_len)) del_pos true
        rw [hrun] at hreach
        exact absurd (Descends.unchanged hreach hs').1.symm Bool.false_ne_true
      · rename_i hres
        rw [run_target_res, Bool.not_eq_true] at hres
        by_cases hqpos : q = del_pos
        · rwa [hqpos]
        · obtain ⟨hnq, hndvd⟩ := hnext hqpos
          have hrest := @del_blocks_fails del_len hlen (s.run_target e false (cut s.in_data del_pos del_len)) s'
            (del_pos + del_len) false hrun hs'
          rw [run_target_in_data, run_target_crash_mode, run_target_orig_cksum, Nat.add_sub_cancel] at hrest
          exact hrest (fun _ => ⟨by omega, hres⟩) q hnq hndvd hlt
termination_by s.in_data.length - del_pos
decreasing_by
  · rw [run_target_in_data]
    omega
  · omega

/-- **Block deletion that changes nothing** has tried all sizes. -/
theorem deletion_fails (s : Tmin) {s' : Tmin} (del_len : ℕ) (hdel : 0 < del_len)
    (hrun : s.deletion e del_len = .ok s') (hs' : s'.changed_any = false) (k : ℕ) (hk : 0 < del_len / 2 ^ k) :
    Undeletable e s (del_len / 2 ^ k) := by
  intro pos hdvd hpos
  have hmax : max del_len 1 = del_len := by omega
  rw [deletion] at hrun
  have hblocks := @del_blocks_reaches e (max del_len 1) (by omega) s 0 true
  split at hrun
  · cases hrun
  · rename_i s₁ hs₁
    rw [hs₁] at hblocks
    rw [hmax] at hrun
    have hrest : s₁.changed_any = false ∧ (k ≠ 0 → ∀ hpos : s₁.in_data.length ≥ 1,
        Undeletable e s₁ (del_len / 2 ^ k)) := by
      split at hrun
      · rename_i hmore
        have hreach := @deletion_reaches e s₁ (del_len / 2)
        rw [hrun] at hreach
        refine ⟨(Descends.unchanged hreach hs').1, fun hk0 _ => ?_⟩
        obtain ⟨j, rfl⟩ := Nat.exists_eq_succ_of_ne_zero hk0
        rw [Nat.pow_succ', ← Nat.div_div_eq_div_mul] at hk ⊢
        exact deletion_fails s₁ (del_len / 2) (by omega) hrun hs' j hk
      · rename_i hmore
        cases hrun
        refine ⟨hs', fun hk0 hlen => ?_⟩
        have htwo : 2 ≤ 2 ^ k := Nat.le_self_pow hk0 2
        have hone : del_len / 2 ^ k = 0 := Nat.div_eq_of_lt (by omega)
        omega
    obtain ⟨hs₁', hrest⟩ := hrest
    obtain ⟨-, hdata⟩ := Descends.unchanged hblocks hs₁'
    by_cases hk0 : k = 0
    · subst hk0
      rw [Nat.pow_zero, Nat.div_one] at hdvd ⊢
      have hfails := @del_blocks_fails e (max del_len 1) (by omega) s s₁ 0 true hs₁ hs₁'
        (fun h => absurd h.symm Bool.false_ne_true) pos (Nat.zero_le pos)
      rw [hmax] at hfails
      exact hfails hdvd hpos
    · have hfails := hrest hk0 (by rw [hdata]; omega) pos hdvd
      rw [hdata, hblocks.crash_mode, hblocks.orig_cksum] at hfails
      exact hfails hpos
termination_by del_len
decreasing_by omega

/-- **A pass that changes nothing** leaves an input no block of which can be deleted. -/
theorem pass_fails {s s' : Tmin} {cur_pass : ℕ} (hrun : s.pass e cur_pass = .ok s') (hs' : s'.changed_any = false)
    (k : ℕ) (hk : 0 < next_p2 (s'.in_data.length / TRIM_START_STEPS) / 2 ^ k) :
    Undeletable e s' (next_p2 (s'.in_data.length / TRIM_START_STEPS) / 2 ^ k) := by
  obtain ⟨hpass, hcases⟩ := @pass_cases e s cur_pass
  rw [hrun] at hpass
  obtain ⟨s₁, hdeletion, hrest⟩ := hcases s' hrun
  have hdata : s'.in_data = s.in_data := (Descends.unchanged hpass hs').2
  have hpos : 0 < next_p2 (s.in_data.length / TRIM_START_STEPS) := by
    rw [next_p2_eq]
    exact Nat.two_pow_pos _
  rw [hdata] at hk
  have hfails := deletion_fails _ _ hpos hdeletion (Descends.unchanged hrest hs').1 k hk
  rw [Undeletable, hpass.crash_mode, hpass.orig_cksum, hdata]
  exact hfails

/-! ### All passes -/

/-- The passes, until one changes nothing. -/
def passes (e : Setting) (s : Tmin) (cur_pass : ℕ) : Except (List UInt8) Tmin :=
  match hrun : s.pass e cur_pass with
  | .error y => .error y
  | .ok s' => if hchanged : s'.changed_any = true then passes e s' (cur_pass + 1) else .ok s'
termination_by weight zero s.in_data
decreasing_by
  have h : Descends e { s with changed_any := false } s' := by
    have h := (@pass_cases e s cur_pass).1
    rwa [hrun] at h
  exact h.weight_lt rfl hchanged

/-- `minimize`. -/
def minimize (e : Setting) (s : Tmin) : Except (List UInt8) Tmin := do
  let set_len := max TMIN_SET_MIN_SIZE (next_p2 (s.in_data.length / TMIN_SET_STEPS))
  let s ← s.normalize e set_len (Nat.lt_of_lt_of_le (Nat.succ_pos 3) (Nat.le_max_left _ _)) 0
  passes e s 1

/-- The input is what it was, or the last candidate that was kept. -/
structure Improves (e : Setting) (s s' : Tmin) : Prop where
  /-- The mode is fixed. -/
  crash_mode : s'.crash_mode = s.crash_mode
  /-- So is the checksum. -/
  orig_cksum : s'.orig_cksum = s.orig_cksum
  /-- The input is simpler. -/
  simpler : Simpler zero s'.in_data s.in_data
  /-- Where it is another one, it was kept. -/
  kept : s'.in_data = s.in_data ∨ accepts e s.crash_mode s.orig_cksum s'.in_data = true

theorem Improves.refl (s : Tmin) : Improves e s s := ⟨rfl, rfl, .refl _, .inl rfl⟩

theorem Improves.trans (h₁ : Improves e s s') (h₂ : Improves e s' s'') : Improves e s s'' := by
  refine ⟨h₂.crash_mode.trans h₁.crash_mode, h₂.orig_cksum.trans h₁.orig_cksum, h₂.simpler.trans h₁.simpler, ?_⟩
  have hkept := h₂.kept
  rw [h₁.crash_mode, h₁.orig_cksum] at hkept
  rcases hkept with hdata | hkept
  · rw [hdata]
    exact h₁.kept
  · exact .inr hkept

/-- Whatever `changed_any` was before. -/
theorem Descends.improves {changed_any : Bool} (h : Descends e { s with changed_any := changed_any } s') :
    Improves e s s' :=
  ⟨h.crash_mode, h.orig_cksum, h.simpler, h.changed.imp (fun h => h.2) fun h => h.2.2⟩

/-- All sizes of block deletion were tried without success. -/
def Minimal (e : Setting) (s : Tmin) : Prop :=
  ∀ k, 0 < next_p2 (s.in_data.length / TRIM_START_STEPS) / 2 ^ k →
    Undeletable e s (next_p2 (s.in_data.length / TRIM_START_STEPS) / 2 ^ k)

/-- How the minimization ends. -/
def Ends (e : Setting) (s : Tmin) : Except (List UInt8) Tmin → Prop
  | .ok s' => Improves e s s' ∧ Minimal e s'
  | .error y => (∃ n, e.stop_soon n = true) ∧ ∃ s', Improves e s s' ∧ s'.in_data = y

theorem Ends.trans {r : Except (List UInt8) Tmin} (h₁ : Improves e s s') (h₂ : Ends e s' r) : Ends e s r := by
  cases r with
  | ok s'' => exact ⟨h₁.trans h₂.1, h₂.2⟩
  | error y =>
    obtain ⟨hstop, s'', h₂, hy⟩ := h₂
    exact ⟨hstop, s'', h₁.trans h₂, hy⟩

/-- **The passes** end with one that changes nothing. -/
theorem passes_ends (s : Tmin) (cur_pass : ℕ) : Ends e s (passes e s cur_pass) := by
  have hpass := (@pass_cases e s cur_pass).1
  rw [passes]
  split
  · rename_i y hrun
    rw [hrun] at hpass
    obtain ⟨hstop, s', h, hy⟩ := hpass
    exact ⟨hstop, s', h.improves, hy⟩
  · rename_i s' hrun
    have hdescends : Descends e { s with changed_any := false } s' := by
      rwa [hrun] at hpass
    split
    · rename_i hchanged
      exact .trans hdescends.improves (passes_ends s' (cur_pass + 1))
    · rename_i hchanged
      exact ⟨hdescends.improves, pass_fails hrun (Bool.not_eq_true _ ▸ hchanged)⟩
termination_by weight zero s.in_data
decreasing_by
  rename_i hchanged
  exact hdescends.weight_lt rfl hchanged

theorem minimize_ends (s : Tmin) : Ends e s (minimize e s) := by
  rw [minimize]
  have hnormalize := @normalize_reaches e (max TMIN_SET_MIN_SIZE (next_p2 (s.in_data.length / TMIN_SET_STEPS)))
    (Nat.lt_of_lt_of_le (Nat.succ_pos 3) (Nat.le_max_left _ _)) s 0
  cases hrun : s.normalize e (max TMIN_SET_MIN_SIZE (next_p2 (s.in_data.length / TMIN_SET_STEPS)))
    (Nat.lt_of_lt_of_le (Nat.succ_pos 3) (Nat.le_max_left _ _)) 0 with
  | error y =>
    rw [hrun] at hnormalize
    obtain ⟨hstop, s', h, hy⟩ := hnormalize
    exact ⟨hstop, s', h.improves, hy⟩
  | ok s' =>
    rw [hrun] at hnormalize
    exact .trans (Descends.improves hnormalize) (passes_ends s' 1)

end Tmin

/-! ### The whole run -/

/-- How `main` ends. -/
inductive Result
  /-- `FATAL`. -/
  | fatal
  /-- Ctrl-C, with what is in the output file. -/
  | aborted (out_file : List UInt8)
  /-- Done, with what is in the output file. -/
  | done (out_file : List UInt8)
  deriving DecidableEq

/-- `main` on an input file: the checks of `read_initial_file`, the dry run, the minimization. -/
def main (e : Setting) (in_file : List UInt8) : Result :=
  if in_file.length = 0 ∨ in_file.length ≥ TMIN_MAX_FILE then .fatal
  else
    let s := Tmin.run_target e true ⟨in_file, false, 0, 0, false, false⟩ in_file
    if e.stop_soon s.total_execs then .aborted in_file
    else if (e.exec in_file).timed_out then .fatal
    else if !s.crash_mode && !anything_set (e.trace in_file) then .fatal
    else
      match Tmin.minimize e s with
      | .error y => .aborted y
      | .ok s => .done s.in_data

/-- The target treats `y` like `x`: it ends in the same way, with the same trace where traces are compared. -/
structure Alike (e : Setting) (x y : List UInt8) : Prop where
  /-- It takes too long, or not. -/
  timed_out : (e.exec y).timed_out = (e.exec x).timed_out
  /-- It crashes, or not. -/
  crashes : e.crashes y = e.crashes x
  /-- Traces of crashes are only compared in exact mode. -/
  cksum : (e.crashes x = true → e.exact_mode = true) → e.cksum y = e.cksum x

variable {e : Setting} {x y : List UInt8}

/-- The dry run fixes what is kept. -/
theorem accepts_dry_run (htime : (e.exec x).timed_out = false) (y : List UInt8) :
    Tmin.accepts e (Tmin.run_target e true ⟨x, false, 0, 0, false, false⟩ x).crash_mode
      (Tmin.run_target e true ⟨x, false, 0, 0, false, false⟩ x).orig_cksum y = true ↔ Alike e x y := by
  have hiff : Alike e x y ↔ (e.exec y).timed_out = (e.exec x).timed_out ∧ e.crashes y = e.crashes x ∧
      ((e.crashes x = true → e.exact_mode = true) → e.cksum y = e.cksum x) :=
    ⟨fun h => ⟨h.timed_out, h.crashes, h.cksum⟩, fun h => ⟨h.1, h.2.1, h.2.2⟩⟩
  rw [hiff, htime]
  simp only [Tmin.accepts, Tmin.run_target, Tmin.compare, htime]
  cases e.crashes x <;> cases e.exact_mode <;> simp [@eq_comm _ (e.cksum x), and_assoc]

theorem dry_run_in_data : (Tmin.run_target e true ⟨x, false, 0, 0, false, false⟩ x).in_data = x :=
  Tmin.run_target_in_data e true _ x

theorem dry_run_crash_mode (htime : (e.exec x).timed_out = false) :
    (Tmin.run_target e true ⟨x, false, 0, 0, false, false⟩ x).crash_mode = e.crashes x := by
  simp only [Tmin.run_target, Tmin.compare, htime]
  cases e.crashes x <;> cases e.exact_mode <;> simp

/-- What is written after an improvement. -/
theorem alike_of_improves {s : Tmin} (htime : (e.exec x).timed_out = false)
    (h : Tmin.Improves e (Tmin.run_target e true ⟨x, false, 0, 0, false, false⟩ x) s) :
    Alike e x s.in_data ∧ Simpler zero s.in_data x := by
  have hsimpler := h.simpler
  rw [dry_run_in_data] at hsimpler
  refine ⟨?_, hsimpler⟩
  rcases h.kept with hdata | hkept
  · rw [hdata, dry_run_in_data]
    exact ⟨rfl, rfl, fun _ => rfl⟩
  · exact (accepts_dry_run htime _).mp hkept

/-- Without Ctrl-C the minimization ends, when the dry run is as it should be. -/
theorem main_eq_done (hx : x ≠ []) (hlen : x.length < TMIN_MAX_FILE) (hstop : ∀ n, e.stop_soon n = false)
    (htime : (e.exec x).timed_out = false) (hrun : e.crashes x = true ∨ anything_set (e.trace x) = true) :
    ∃ s, main e x = .done s.in_data ∧
      Tmin.Improves e (Tmin.run_target e true ⟨x, false, 0, 0, false, false⟩ x) s ∧ Tmin.Minimal e s := by
  have hsize : ¬ (x.length = 0 ∨ x.length ≥ TMIN_MAX_FILE) := by
    rw [List.length_eq_zero_iff, not_or]
    exact ⟨hx, Nat.not_le_of_lt hlen⟩
  have hset : ¬ (!(Tmin.run_target e true ⟨x, false, 0, 0, false, false⟩ x).crash_mode &&
      !anything_set (e.trace x)) = true := by
    rw [dry_run_crash_mode htime]
    rcases hrun with hcrash | hset
    · simp [hcrash]
    · simp [hset]
  have hends := @Tmin.minimize_ends e (Tmin.run_target e true ⟨x, false, 0, 0, false, false⟩ x)
  cases hmin : Tmin.minimize e (Tmin.run_target e true ⟨x, false, 0, 0, false, false⟩ x) with
  | error y =>
    rw [hmin] at hends
    obtain ⟨⟨n, hn⟩, -⟩ := hends
    rw [hstop n] at hn
    cases hn
  | ok s =>
    rw [hmin] at hends
    refine ⟨s, ?_, hends⟩
    rw [main, if_neg hsize]
    simp only [hstop, htime, Bool.false_eq_true, if_false]
    rw [if_neg hset, hmin]

/-- **Whatever is written**, at the end or after Ctrl-C, the target treats like the input, and it is simpler. -/
theorem main_written (e : Setting) (x y : List UInt8) (h : main e x = .done y ∨ main e x = .aborted y) :
    Alike e x y ∧ Simpler zero y x := by
  rw [main] at h
  dsimp only at h
  split at h
  · simp at h
  split at h
  · simp only [reduceCtorEq, Result.aborted.injEq, false_or] at h
    subst h
    exact ⟨⟨rfl, rfl, fun _ => rfl⟩, .refl x⟩
  split at h
  · simp at h
  rename_i htime
  rw [Bool.not_eq_true] at htime
  split at h
  · simp at h
  have hends := @Tmin.minimize_ends e (Tmin.run_target e true ⟨x, false, 0, 0, false, false⟩ x)
  split at h
  · rename_i y' hrun
    rw [hrun] at hends
    simp only [reduceCtorEq, Result.aborted.injEq, false_or] at h
    subst h
    obtain ⟨-, s', himproves, rfl⟩ := hends
    exact alike_of_improves htime himproves
  · rename_i s' hrun
    rw [hrun] at hends
    simp only [reduceCtorEq, Result.done.injEq, or_false] at h
    subst h
    exact alike_of_improves htime hends.1

/-- A target that crashes when there is a capital letter in the input. -/
def capitals : Setting where
  exit_crash := false
  exact_mode := false
  edges_only := false
  mask_bitmap := none
  hash32 := fun _ => 0
  exec := fun mem => ⟨false, if mem.any fun b => 65 ≤ b ∧ b ≤ 90 then .signaled 11 else .exited 0, fun _ => 0⟩
  stop_soon := fun _ => false

theorem main_written_capitals : ∃ y, main capitals [97, 66, 99, 68] = .done y ∧
    Alike capitals [97, 66, 99, 68] y ∧ Simpler zero y [97, 66, 99, 68] := by
  obtain ⟨s, hs, -⟩ := @main_eq_done capitals [97, 66, 99, 68] (by simp) (by rw [TMIN_MAX_FILE]; simp)
    (fun _ => rfl) rfl (.inl rfl)
  exact ⟨s.in_data, hs, main_written capitals [97, 66, 99, 68] s.in_data (.inl hs)⟩

/-- Removing one byte. -/
theorem cut_one (x : List UInt8) (i : ℕ) : cut x i 1 = x.eraseIdx i := by
  rw [cut, List.eraseIdx_eq_take_drop_succ]

/-- The sizes go down to one byte. -/
theorem exists_size_one (n : ℕ) : ∃ k, next_p2 n / 2 ^ k = 1 := by
  rw [next_p2_eq]
  exact ⟨Nat.clog 2 n, Nat.div_self (Nat.two_pow_pos _)⟩

/-- **The minimization ends with an input that is minimal**: no block of a size that is tried, and no single byte, can
be deleted. -/
theorem main_minimal (e : Setting) (x : List UInt8) (hx : x ≠ []) (hlen : x.length < TMIN_MAX_FILE)
    (hstop : ∀ n, e.stop_soon n = false) (htime : (e.exec x).timed_out = false)
    (hrun : e.crashes x = true ∨ anything_set (e.trace x) = true) :
    ∃ y, main e x = .done y ∧ (∀ k pos, next_p2 (y.length / TRIM_START_STEPS) / 2 ^ k ∣ pos → pos < y.length →
        0 < next_p2 (y.length / TRIM_START_STEPS) / 2 ^ k →
        ¬ Alike e x (cut y pos (next_p2 (y.length / TRIM_START_STEPS) / 2 ^ k))) ∧
      ∀ i < y.length, ¬ Alike e x (y.eraseIdx i) := by
  obtain ⟨s, hs, himproves, hminimal⟩ := main_eq_done hx hlen hstop htime hrun
  have hfails : ∀ k pos, next_p2 (s.in_data.length / TRIM_START_STEPS) / 2 ^ k ∣ pos → pos < s.in_data.length →
      0 < next_p2 (s.in_data.length / TRIM_START_STEPS) / 2 ^ k →
      ¬ Alike e x (cut s.in_data pos (next_p2 (s.in_data.length / TRIM_START_STEPS) / 2 ^ k)) := by
    intro k pos hdvd hpos hk halike
    have hfail := hminimal k hk pos hdvd hpos
    rw [himproves.crash_mode, himproves.orig_cksum, (accepts_dry_run htime _).mpr halike] at hfail
    cases hfail
  refine ⟨s.in_data, hs, hfails, fun i hi halike => ?_⟩
  obtain ⟨k, hk⟩ := exists_size_one (s.in_data.length / TRIM_START_STEPS)
  have hone := hfails k i
  rw [hk, cut_one] at hone
  exact hone (Nat.one_dvd i) hi Nat.one_pos halike

theorem main_minimal_capitals : ∃ y, main capitals [97, 66, 99, 68] = .done y ∧
    ∀ i < y.length, ¬ Alike capitals [97, 66, 99, 68] (y.eraseIdx i) := by
  obtain ⟨y, hy, -, hone⟩ := main_minimal capitals [97, 66, 99, 68] (by simp) (by rw [TMIN_MAX_FILE]; simp)
    (fun _ => rfl) rfl (.inl rfl)
  exact ⟨y, hy, hone⟩

end SEDiff.Afl.Minimize
