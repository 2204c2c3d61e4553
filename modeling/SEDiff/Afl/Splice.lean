import SEDiff.Afl.Havoc

/-!
# Splicing

The end of `fuzz_one`: the havoc stage on the input itself, and then on inputs that are spliced from it and other ones. The loop
that draws the other entry has no bound in the source; it is taken to end. A `post_handler` is left out.

## What is proved

* `locate_diffs_spec` — the first and the last differing offset.
* `splice_new` — a spliced input is a new one, unless the split is at the first difference.
* `fuzz_tail_safe` — whatever is drawn, nothing goes wrong until `fuzz_one` returns, and it does.
-/

namespace SEDiff.Afl.Havoc

open Foundation

/-- `SPLICE_CYCLES`. -/
def SPLICE_CYCLES : ℕ := 15

/-- `locate_diffs`. -/
def locate_diffs (ptr1 ptr2 : List UInt8) : ℕ → ℤ × ℤ
  | 0 => (-1, -1)
  | pos + 1 =>
    let (f_loc, l_loc) := locate_diffs ptr1 ptr2 pos
    if ptr1[pos]? ≠ ptr2[pos]? then (if f_loc = -1 then pos else f_loc, pos) else (f_loc, l_loc)

/-- The queue while an entry is fuzzed. -/
structure Queued where
  /-- The test cases, when the splice counter has this value. -/
  queue : ℕ → List (List UInt8)
  /-- Current queue entry ID. -/
  current_entry : ℕ
  /-- Its test case. -/
  orig_in : List UInt8
  /-- Recombine input files? -/
  use_splicing : Bool
  /-- Its score. -/
  orig_perf : ℕ
  /-- Cycle count divisor for havoc: 1, 2, 5 or 10, so that no division by it is checked below. -/
  havoc_div : ℕ
  /-- Is this the first time that it is fuzzed? -/
  doing_det : Bool

namespace Queued

variable (x : Surrounding) (q : Queued)

/-- `stage_max`. -/
def stage_max (splice_cycle : ℕ) : ℕ :=
  if splice_cycle = 0 then (if q.doing_det then HAVOC_CYCLES_INIT else HAVOC_CYCLES) * q.orig_perf / q.havoc_div / 100
  else SPLICE_HAVOC * q.orig_perf / q.havoc_div / 100

/-- The entry to splice with: the first one of a reasonable length from `tid` on, but not the current one. -/
def target (queue : List (List UInt8)) (tid : ℕ) : Option (List UInt8) :=
  (((queue.zipIdx).drop tid).find? fun e => e.1.length ≥ 2 ∧ e.2 ≠ q.current_entry).map Prod.fst

/-- One attempt to splice; `none` is another try. The loop that draws `tid` again while it is the current entry is one draw here:
what comes out of it, when it ends, is any other one. -/
def splice (splice_cycle : ℕ) : Chance (Option (List UInt8)) := do
  let queue := q.queue splice_cycle
  let tid ← UR (queue.length - 1)
  match q.target queue (if tid < q.current_entry then tid else tid + 1) with
  | none => return none
  | some target =>
    let (f_diff, l_diff) := locate_diffs q.orig_in target (min q.orig_in.length target.length)
    if f_diff < 0 ∨ l_diff < 2 ∨ f_diff = l_diff then return none
    else
      let r ← UR (l_diff - f_diff).toNat
      let split_at := f_diff.toNat + r
      let new_buf ← certain (memcpy (target.map some) 0 (q.orig_in.map some) 0 split_at)
      let new_buf ← certain (contents new_buf target.length)
      return some new_buf

/-- From a havoc stage on an input, with the buffer, or from an attempt to splice. -/
def fuzz_tail (hperf : 0 < q.orig_perf) (splice_cycle : ℕ) (stage : Option (List UInt8 × Memory)) (p : Progress) :
    Chance Progress :=
  match stage with
  | some (in_buf, out_buf) => do
    let (_, p, bail) ← havoc_stage x in_buf q.orig_perf hperf (q.stage_max splice_cycle) out_buf p
    if bail then return p else fuzz_tail hperf splice_cycle none p
  | none =>
    if q.use_splicing ∧ splice_cycle < SPLICE_CYCLES ∧ (q.queue splice_cycle).length > 1 ∧ q.orig_in.length > 1 then do
      let spliced ← q.splice splice_cycle
      match spliced with
      | none => fuzz_tail hperf (splice_cycle + 1) none p
      | some in_buf => do
        let out_buf ← certain (memcpy (malloc in_buf.length) 0 (in_buf.map some) 0 in_buf.length)
        fuzz_tail hperf (splice_cycle + 1) (some (in_buf, out_buf)) p
    else return p
termination_by (SPLICE_CYCLES - splice_cycle, if stage.isSome then 1 else 0)
decreasing_by
  · exact Prod.Lex.right _ (by simp)
  · exact Prod.Lex.left _ _ (by omega)
  · exact Prod.Lex.left _ _ (by omega)

end Queued

/-! ### Differences -/

/-- The offsets of the first and the last difference below `len`. -/
inductive Differences (ptr1 ptr2 : List UInt8) (len : ℕ) : ℤ × ℤ → Prop
  /-- There is none. -/
  | none (h : ∀ pos < len, ptr1[pos]? = ptr2[pos]?) : Differences ptr1 ptr2 len (-1, -1)
  /-- There are some. -/
  | some {first last : ℕ} (hle : first ≤ last) (hlast : last < len) (hfirst : ptr1[first]? ≠ ptr2[first]?)
      (hdiffer : ptr1[last]? ≠ ptr2[last]?) (hbefore : ∀ pos < first, ptr1[pos]? = ptr2[pos]?)
      (hafter : ∀ pos < len, last < pos → ptr1[pos]? = ptr2[pos]?) : Differences ptr1 ptr2 len (first, last)

theorem locate_diffs_spec (ptr1 ptr2 : List UInt8) (len : ℕ) :
    Differences ptr1 ptr2 len (locate_diffs ptr1 ptr2 len) := by
  induction len with
  | zero => exact .none fun pos hpos => absurd hpos (Nat.not_lt_zero pos)
  | succ len ih =>
    rw [locate_diffs]
    generalize locate_diffs ptr1 ptr2 len = r at ih
    cases ih with
    | none hsame =>
      by_cases hlen : ptr1[len]? = ptr2[len]?
      · simp only [hlen, ne_eq, not_true_eq_false, if_false]
        refine .none fun pos hpos => ?_
        rcases Nat.lt_succ_iff_lt_or_eq.mp hpos with hpos | rfl
        · exact hsame pos hpos
        · exact hlen
      · simp only [ne_eq, hlen, not_false_eq_true, if_true]
        exact .some (Nat.le_refl len) (Nat.lt_succ_self len) hlen hlen hsame fun pos hpos hlt => by omega
    | @some first last hle hlast hfirst hdiffer hbefore hafter =>
      have hne : ¬ (first : ℤ) = -1 := by omega
      by_cases hlen : ptr1[len]? = ptr2[len]?
      · simp only [hlen, ne_eq, not_true_eq_false, if_false]
        refine .some hle (by omega) hfirst hdiffer hbefore fun pos hpos hlt => ?_
        rcases Nat.lt_succ_iff_lt_or_eq.mp hpos with hpos | rfl
        · exact hafter pos hpos hlt
        · exact hlen
      · simp only [ne_eq, hlen, not_false_eq_true, if_true, hne, if_false]
        exact .some (by omega) (Nat.lt_succ_self len) hfirst hlen hbefore fun pos hpos hlt => by omega

/-! ### Splices -/

variable {x : Surrounding} {q : Queued} {splice_cycle : ℕ}

/-- The target is another entry of the queue. -/
theorem target_spec {queue : List (List UInt8)} {tid : ℕ} {target : List UInt8} (h : q.target queue tid = some target) :
    2 ≤ target.length ∧ ∃ i, queue[i]? = some target ∧ i ≠ q.current_entry := by
  rw [Queued.target, Option.map_eq_some_iff] at h
  obtain ⟨⟨y, i⟩, hfind, rfl⟩ := h
  have hmem := List.mem_of_mem_drop (List.mem_of_find?_eq_some hfind)
  have hprop := List.find?_some hfind
  rw [decide_eq_true_eq] at hprop
  exact ⟨hprop.1, i, List.mem_zipIdx_iff_getElem?.mp hmem, hprop.2⟩

/-- What splicing makes of the input: the head of it, and the rest of another one. -/
structure Spliced (orig_in target new_buf : List UInt8) (first last split_at : ℕ) : Prop where
  /-- Two parts. -/
  eq : new_buf = orig_in.take split_at ++ target.drop split_at
  /-- The split is between the first and the last difference. -/
  split : first ≤ split_at ∧ split_at < last
  /-- These are in both. -/
  both : last < orig_in.length ∧ last < target.length
  /-- They differ there. -/
  differ : orig_in[first]? ≠ target[first]? ∧ orig_in[last]? ≠ target[last]?
  /-- But not before. -/
  before : ∀ pos < first, orig_in[pos]? = target[pos]?

namespace Spliced

variable {orig_in target new_buf : List UInt8} {first last split_at : ℕ}

theorem length (h : Spliced orig_in target new_buf first last split_at) : new_buf.length = target.length := by
  have := h.split
  have := h.both
  rw [h.eq, List.length_append, List.length_take, List.length_drop]
  omega

theorem getElem?_eq (h : Spliced orig_in target new_buf first last split_at) (i : ℕ) :
    new_buf[i]? = if i < split_at then orig_in[i]? else target[i]? := by
  have := h.split
  have := h.both
  have hlen : (orig_in.take split_at).length = split_at := by
    rw [List.length_take]
    omega
  rw [h.eq]
  split
  · rename_i hi
    rw [List.getElem?_append_left (by omega), List.getElem?_take_of_lt hi]
  · rename_i hi
    rw [List.getElem?_append_right (by omega), hlen, List.getElem?_drop]
    congr 1
    omega

/-- It is not the input. -/
theorem ne_orig (h : Spliced orig_in target new_buf first last split_at) : new_buf ≠ orig_in := by
  intro heq
  have hlast := h.getElem?_eq last
  rw [if_neg (by have := h.split; omega), heq] at hlast
  exact h.differ.2 hlast

/-- **It is the other one** if and only if the split is at the first difference. -/
theorem eq_target_iff (h : Spliced orig_in target new_buf first last split_at) : new_buf = target ↔ split_at = first := by
  constructor
  · intro heq
    by_contra hne
    have hfirst := h.getElem?_eq first
    rw [if_pos (by have := h.split; omega), heq] at hfirst
    exact h.differ.1 hfirst.symm
  · rintro rfl
    refine List.ext_getElem? fun i => ?_
    rw [h.getElem?_eq]
    split
    · exact h.before i ‹_›
    · rfl

end Spliced

/-- **One attempt to splice** fails, or splices the input with another one of the queue. -/
theorem splice_always (q : Queued) (splice_cycle : ℕ) (hqueue : 1 < (q.queue splice_cycle).length) :
    Always (q.splice splice_cycle) fun r => ∀ new_buf ∈ r, ∃ target first last split_at,
      (∃ i, (q.queue splice_cycle)[i]? = some target ∧ i ≠ q.current_entry) ∧ 2 ≤ target.length ∧
        Spliced q.orig_in target new_buf first last split_at := by
  refine .bind (UR_always (by omega)) fun tid _ => ?_
  split
  · exact .pure fun new_buf hnew => absurd hnew (Option.not_mem_none new_buf)
  · rename_i target htarget
    obtain ⟨htwo, hother⟩ := target_spec htarget
    have hdiff := locate_diffs_spec q.orig_in target (min q.orig_in.length target.length)
    generalize locate_diffs q.orig_in target (min q.orig_in.length target.length) = d at hdiff
    cases hdiff with
    | none hsame =>
      refine .ite (fun _ => .pure fun new_buf hnew => absurd hnew (Option.not_mem_none new_buf)) fun h => ?_
      exact absurd (.inl (by decide)) h
    | @some first last hle hlast hfirst hdiffer hbefore hafter =>
      refine .ite (fun _ => .pure fun new_buf hnew => absurd hnew (Option.not_mem_none new_buf)) fun h => ?_
      rw [not_or, not_or] at h
      obtain ⟨-, -, hne⟩ := h
      refine .bind (UR_always (by omega)) fun r hr => ?_
      have hsplit : first + r < last := by omega
      have htoNat : (first : ℤ).toNat + r = first + r := by omega
      rw [htoNat]
      have hspliced : Spliced q.orig_in target (q.orig_in.take (first + r) ++ target.drop (first + r)) first last
          (first + r) :=
        ⟨rfl, ⟨Nat.le_add_right first r, hsplit⟩, by omega, ⟨hfirst, hdiffer⟩, hbefore⟩
      have hfits : 0 + (first + r) ≤ (target.map some).length ∧ 0 + (first + r) ≤ (q.orig_in.map some).length := by
        rw [List.length_map, List.length_map]
        omega
      refine .bind (.certain (if_pos hfits) rfl) ?_
      rintro m rfl
      have hmap : (target.map some).take 0 ++ (((q.orig_in.map some).drop 0).take (first + r) ++
          (target.map some).drop (0 + (first + r))) =
            (q.orig_in.take (first + r) ++ target.drop (first + r)).map some := by
        simp
      rw [hmap, ← hspliced.length]
      refine .bind (.certain (contents_map _) rfl) ?_
      rintro new_buf rfl
      refine .pure fun new_buf hnew => ?_
      cases hnew
      exact ⟨target, first, last, first + r, hother, htwo, hspliced⟩

/-- **What comes out of a splice**: the head of the input with the rest of another test case, cut between their first and
their last difference. It is never the input again; it is the other test case if the cut is at the first difference, and
only then. -/
theorem splice_new (q : Queued) (splice_cycle : ℕ) (hqueue : 1 < (q.queue splice_cycle).length) :
    Always (q.splice splice_cycle) fun r => ∀ new_buf ∈ r, ∃ target first last split_at,
      (∃ i, (q.queue splice_cycle)[i]? = some target ∧ i ≠ q.current_entry) ∧
        Spliced q.orig_in target new_buf first last split_at ∧ new_buf.length = target.length ∧
          new_buf ≠ q.orig_in ∧ (new_buf = target ↔ split_at = first) := by
  refine (splice_always q splice_cycle hqueue).mono fun r hr new_buf hnew => ?_
  obtain ⟨target, first, last, split_at, hother, -, hspliced⟩ := hr new_buf hnew
  exact ⟨target, first, last, split_at, hother, hspliced, hspliced.length, hspliced.ne_orig, hspliced.eq_target_iff⟩

/-- Two test cases that differ in three places. -/
def two_cases : Queued where
  queue := fun _ => [[97, 98, 99, 100, 101, 102], [97, 48, 99, 49, 101, 50]]
  current_entry := 0
  orig_in := [97, 98, 99, 100, 101, 102]
  use_splicing := true
  orig_perf := 100
  havoc_div := 1
  doing_det := false

theorem two_cases_perf : 0 < two_cases.orig_perf := Nat.succ_pos 99

theorem splice_new_two_cases : Always (two_cases.splice 0) fun r => ∀ new_buf ∈ r, ∃ target first last split_at,
    (∃ i, (two_cases.queue 0)[i]? = some target ∧ i ≠ two_cases.current_entry) ∧
      Spliced two_cases.orig_in target new_buf first last split_at ∧ new_buf.length = target.length ∧
        new_buf ≠ two_cases.orig_in ∧ (new_buf = target ↔ split_at = first) :=
  splice_new two_cases 0 (by simp [two_cases])

/-! ### The end of `fuzz_one` -/

/-- How many executions are planned at most, from here on. -/
def Queued.planned (q : Queued) (splice_cycle : ℕ) (stage : Option (List UInt8 × Memory)) : ℕ :=
  (if stage.isSome then max (q.stage_max splice_cycle) HAVOC_MIN else 0) +
    (SPLICE_CYCLES - splice_cycle) * max (q.stage_max 1) HAVOC_MIN

/-- A stage can start. -/
def Ready (stage : Option (List UInt8 × Memory)) : Prop :=
  ∀ in_buf out_buf, stage = some (in_buf, out_buf) →
    1 ≤ in_buf.length ∧ in_buf.length ≤ MAX_FILE ∧ Holds out_buf in_buf

theorem ready_none : Ready none := by
  intro in_buf out_buf h
  cases h

theorem stage_max_succ (q : Queued) (splice_cycle : ℕ) : q.stage_max (splice_cycle + 1) = q.stage_max 1 := by
  rw [Queued.stage_max, Queued.stage_max, if_neg (Nat.succ_ne_zero _), if_neg Nat.one_ne_zero]

/-- One splice less is planned. -/
theorem planned_succ (q : Queued) {splice_cycle : ℕ} (h : splice_cycle < SPLICE_CYCLES)
    (stage : Option (List UInt8 × Memory)) : q.planned (splice_cycle + 1) stage ≤ q.planned splice_cycle none := by
  have hcycles : SPLICE_CYCLES - splice_cycle = SPLICE_CYCLES - (splice_cycle + 1) + 1 := by omega
  rw [Queued.planned, Queued.planned, hcycles, Nat.add_mul, Nat.one_mul, stage_max_succ]
  cases stage with
  | none => simp
  | some r =>
    simp only [Option.isSome_some, Option.isSome_none, if_true, Bool.false_eq_true, if_false]
    omega

/-- From any point on. -/
theorem fuzz_tail_always (hcycle : 0 < x.queue_cycle) (hqueue : ∀ k, ∀ y ∈ q.queue k, y.length ≤ MAX_FILE)
    (hperf : 0 < q.orig_perf) (hscore : q.orig_perf ≤ HAVOC_MAX_MULT * 100) (splice_cycle : ℕ)
    (stage : Option (List UInt8 × Memory)) (hstage : Ready stage) {p : Progress} (hp : Sized p.executed) :
    Always (q.fuzz_tail x hperf splice_cycle stage p) fun r => Sized r.executed ∧
      ∃ n, r.executed.length = p.executed.length + n ∧
        n * q.orig_perf ≤ q.planned splice_cycle stage * (2 * (HAVOC_MAX_MULT * 100)) := by
  cases hcase : stage with
  | some r =>
    obtain ⟨in_buf, out_buf⟩ := r
    obtain ⟨hpos, hmax, hholds⟩ := hstage in_buf out_buf hcase
    rw [Queued.fuzz_tail]
    refine .bind (havoc_stage_safe x in_buf q.orig_perf (q.stage_max splice_cycle) out_buf p hcycle hpos hmax hperf hscore
      hholds hp) ?_
    rintro ⟨out', p', bail⟩ ⟨hsized, -, n, hn, hle⟩
    dsimp only at hsized hn
    have hplanned : q.planned splice_cycle (some (in_buf, out_buf)) =
        max (q.stage_max splice_cycle) HAVOC_MIN + q.planned splice_cycle none := by
      simp [Queued.planned]
    rw [hplanned, Nat.add_mul]
    refine .ite (fun _ => .pure ⟨hsized, n, hn, ?_⟩) fun _ => ?_
    · exact Nat.le_trans hle (Nat.le_add_right _ _)
    · refine (fuzz_tail_always hcycle hqueue hperf hscore splice_cycle none ready_none hsized).mono ?_
      · rintro r ⟨hr, m, hm, hmle⟩
        refine ⟨hr, n + m, by omega, ?_⟩
        rw [Nat.add_mul]
        exact Nat.add_le_add hle hmle
  | none =>
    rw [Queued.fuzz_tail]
    refine .ite (fun hmore => ?_) fun _ => .pure ⟨hp, 0, rfl, by simp⟩
    obtain ⟨-, hlt, hmany, -⟩ := hmore
    refine .bind (splice_always q splice_cycle hmany) fun spliced hspliced => ?_
    have hweaken : ∀ (stage : Option (List UInt8 × Memory)) (r : Progress), (Sized r.executed ∧
        ∃ n, r.executed.length = p.executed.length + n ∧
          n * q.orig_perf ≤ q.planned (splice_cycle + 1) stage * (2 * (HAVOC_MAX_MULT * 100))) →
        Sized r.executed ∧ ∃ n, r.executed.length = p.executed.length + n ∧
          n * q.orig_perf ≤ q.planned splice_cycle none * (2 * (HAVOC_MAX_MULT * 100)) := by
      rintro stage r ⟨hr, n, hn, hle⟩
      exact ⟨hr, n, hn, Nat.le_trans hle (Nat.mul_le_mul_right _ (planned_succ q hlt stage))⟩
    split
    · exact (fuzz_tail_always hcycle hqueue hperf hscore (splice_cycle + 1) none ready_none hp).mono (hweaken none)
    · rename_i in_buf
      obtain ⟨target, first, last, split_at, ⟨i, hi, -⟩, htwo, hspl⟩ := hspliced in_buf rfl
      have hlen := hspl.length
      have hmax := hqueue splice_cycle target (List.mem_of_getElem? hi)
      have hfits : 0 + in_buf.length ≤ (malloc in_buf.length).length ∧ 0 + in_buf.length ≤ (in_buf.map some).length := by
        rw [length_malloc, List.length_map]
        omega
      refine .bind (.certain (if_pos hfits) rfl) ?_
      rintro _ rfl
      generalize hout : (malloc in_buf.length).take 0 ++ (((in_buf.map some).drop 0).take in_buf.length ++
        (malloc in_buf.length).drop (0 + in_buf.length)) = out_buf
      have hready : Ready (some (in_buf, out_buf)) := by
        intro in_buf' out_buf' heq
        cases heq
        refine ⟨by omega, by omega, ?_⟩
        rw [Holds, ← hout]
        simp
      exact (fuzz_tail_always hcycle hqueue hperf hscore (splice_cycle + 1) _ hready hp).mono (hweaken _)
termination_by (SPLICE_CYCLES - splice_cycle, if stage.isSome then 1 else 0)
decreasing_by
  · exact Prod.Lex.left _ _ (by omega)
  · exact Prod.Lex.left _ _ (by omega)
  · exact Prod.Lex.right _ (by simp [hcase])

/-- **Havoc and splicing**, whatever is drawn: `fuzz_one` comes to its end without an access out of bounds, a byte that
was not written, a division by zero or a length that wraps around. All inputs it runs are of a possible size, and there
are at most `3200 / orig_perf` times as many as planned. -/
theorem fuzz_tail_safe (x : Surrounding) (q : Queued) (p : Progress) (out_buf : Memory) (hcycle : 0 < x.queue_cycle)
    (hqueue : ∀ k, ∀ y ∈ q.queue k, y.length ≤ MAX_FILE) (hpos : 1 ≤ q.orig_in.length)
    (hmax : q.orig_in.length ≤ MAX_FILE) (hperf : 0 < q.orig_perf) (hscore : q.orig_perf ≤ HAVOC_MAX_MULT * 100)
    (hout : Holds out_buf q.orig_in) (hp : Sized p.executed) :
    Always (q.fuzz_tail x hperf 0 (some (q.orig_in, out_buf)) p) fun r => Sized r.executed ∧
      ∃ n, r.executed.length = p.executed.length + n ∧
        n * q.orig_perf ≤ (max (q.stage_max 0) HAVOC_MIN + SPLICE_CYCLES * max (q.stage_max 1) HAVOC_MIN) *
          (2 * (HAVOC_MAX_MULT * 100)) := by
  refine fuzz_tail_always hcycle hqueue hperf hscore 0 _ ?_ hp
  intro in_buf out_buf' h
  cases h
  exact ⟨hpos, hmax, hout⟩

theorem fuzz_tail_safe_two_cases : Always (two_cases.fuzz_tail ⟨1, false, [], []⟩ two_cases_perf 0
    (some (two_cases.orig_in, two_cases.orig_in.map some)) ⟨[], 2⟩) fun r => Sized r.executed ∧
      ∃ n, r.executed.length = 0 + n ∧
        n * two_cases.orig_perf ≤ (max (two_cases.stage_max 0) HAVOC_MIN + SPLICE_CYCLES * max (two_cases.stage_max 1)
          HAVOC_MIN) * (2 * (HAVOC_MAX_MULT * 100)) := by
  refine fuzz_tail_safe ⟨1, false, [], []⟩ two_cases ⟨[], 2⟩ (two_cases.orig_in.map some) Nat.one_pos ?_ ?_ ?_ _ ?_ ?_ ?_
  · intro k y hy
    simp only [two_cases, List.mem_cons, List.not_mem_nil, or_false] at hy
    rcases hy with rfl | rfl
    · simp [MAX_FILE]
    · simp [MAX_FILE]
  · simp [two_cases]
  · simp [two_cases, MAX_FILE]
  · simp [two_cases, HAVOC_MAX_MULT]
  · rfl
  · exact fun input h => absurd h List.not_mem_nil

end SEDiff.Afl.Havoc
