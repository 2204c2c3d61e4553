import SEDiff.Afl.Trim
import SEDiff.Foundation.Memory

/-!
# Havoc

The havoc stage of `fuzz_one`: several thousand executions, each after a stack of random tweaks to the buffer, which is
restored afterwards. All that the program does not determine is drawn: the random numbers, and what an execution brings. A
`post_handler`, which may change an input before it is run, is left out.

## What is proved

* `tweak_ok` — no tweak accesses memory out of bounds, reads a byte that was not written, divides by zero or lets a
  length wrap around; the buffer keeps between one and `MAX_FILE` bytes.
* `havoc_stage_safe` — nor does the whole stage; it ends after a bounded number of executions, each of an input of that
  size, with the buffer as it was.
-/

namespace SEDiff.Afl.Havoc

open Foundation

/-! ### Constants -/

/-- `HAVOC_CYCLES`. -/
def HAVOC_CYCLES : ℕ := 256

/-- `HAVOC_CYCLES_INIT`. -/
def HAVOC_CYCLES_INIT : ℕ := 1024

/-- `HAVOC_MAX_MULT`. -/
def HAVOC_MAX_MULT : ℕ := 16

/-- `HAVOC_MIN`. -/
def HAVOC_MIN : ℕ := 16

/-- `HAVOC_STACK_POW2`. -/
def HAVOC_STACK_POW2 : ℕ := 7

/-- `HAVOC_BLK_SMALL`. -/
def HAVOC_BLK_SMALL : ℕ := 32

/-- `HAVOC_BLK_MEDIUM`. -/
def HAVOC_BLK_MEDIUM : ℕ := 128

/-- `HAVOC_BLK_LARGE`. -/
def HAVOC_BLK_LARGE : ℕ := 1500

/-- `HAVOC_BLK_XL`. -/
def HAVOC_BLK_XL : ℕ := 32768

/-- `SPLICE_HAVOC`. -/
def SPLICE_HAVOC : ℕ := 32

/-- `ARITH_MAX`. -/
def ARITH_MAX : ℕ := 35

/-- `INTERESTING_8`. -/
def INTERESTING_8 : List ℤ := [-128, -1, 0, 1, 16, 32, 64, 100, 127]

/-- `INTERESTING_16`. -/
def INTERESTING_16 : List ℤ := [-32768, -129, 128, 255, 256, 512, 1000, 1024, 4096, 32767]

/-- `INTERESTING_32`. -/
def INTERESTING_32 : List ℤ :=
  [-2147483648, -100663046, -32769, 32768, 65535, 65536, 100663045, 2147483647]

/-- `interesting_8`. -/
def interesting_8 : List UInt8 := INTERESTING_8.map UInt8.ofInt

/-- `interesting_16`. -/
def interesting_16 : List UInt16 := (INTERESTING_8 ++ INTERESTING_16).map UInt16.ofInt

/-- `interesting_32`. -/
def interesting_32 : List UInt32 := (INTERESTING_8 ++ INTERESTING_16 ++ INTERESTING_32).map UInt32.ofInt

/-- `SWAP16`. -/
def SWAP16 (x : UInt16) : UInt16 := (x <<< 8) ||| (x >>> 8)

/-- `SWAP32`. -/
def SWAP32 (x : UInt32) : UInt32 :=
  (x <<< 24) ||| (x >>> 24) ||| ((x <<< 8) &&& (0x00FF0000 : UInt32)) ||| ((x >>> 8) &&& (0x0000FF00 : UInt32))

/-! ### The source -/

/-- `UR`. -/
def UR (limit : ℕ) : Chance ℕ := do
  let random ← draw
  certain (if limit = 0 then .error .division else .ok (random % limit))

/-- `table[UR(sizeof(table) / sizeof(table[0]))]`. -/
def pick {α : Type} (table : List α) : Chance α := do
  let i ← UR table.length
  certain (match table[i]? with | some a => .ok a | none => .error .bounds)

/-- What the stage reads of the fuzzer's state. -/
structure Surrounding where
  /-- Queue round counter. -/
  queue_cycle : ℕ
  /-- Run time over 10 minutes? -/
  run_over10m : Bool
  /-- Extra tokens to fuzz with. -/
  extras : List (List UInt8)
  /-- Automatically selected extras. -/
  a_extras : List (List UInt8)

/-- `choose_block_len`. -/
def choose_block_len (x : Surrounding) (limit : ℕ) : Chance ℕ := do
  let rlim := if !x.run_over10m then 1 else min x.queue_cycle 3
  let case ← UR rlim
  let (min_value, max_value) ←
    (if case = 0 then pure (1, HAVOC_BLK_SMALL)
    else if case = 1 then pure (HAVOC_BLK_SMALL, HAVOC_BLK_MEDIUM)
    else do
      let large ← UR 10
      if large ≠ 0 then pure (HAVOC_BLK_MEDIUM, HAVOC_BLK_LARGE) else pure (HAVOC_BLK_LARGE, HAVOC_BLK_XL) :
      Chance (ℕ × ℕ))
  let min_value := if min_value ≥ limit then 1 else min_value
  let span ← monus (min max_value limit) min_value
  let r ← UR (span + 1)
  return min_value + r

/-- The buffer that is tweaked. -/
structure Buffer where
  /-- The allocated block. -/
  out_buf : Memory
  /-- How much of it is used. -/
  temp_len : ℕ

namespace Buffer

/-- The same length, with other bytes. -/
def put (b : Buffer) (m : Except CErr Memory) : Chance Buffer := do
  let out_buf ← certain m
  return { b with out_buf := out_buf }

/-- `FLIP_BIT(out_buf, bit)`. -/
def flip_bit (b : Buffer) (bit : ℕ) : Chance Buffer := do
  let v ← certain (load b.out_buf (bit / 8))
  b.put (store b.out_buf (bit / 8) (v ^^^ 128 >>> UInt8.ofNat (bit % 8)))

/-- `out_buf[pos] = f(out_buf[pos])` at a random position. -/
def tweak8 (b : Buffer) (f : Chance (UInt8 → UInt8)) : Chance Buffer := do
  let pos ← UR b.temp_len
  let f ← f
  let v ← certain (load b.out_buf pos)
  b.put (store b.out_buf pos (f v))

/-- The same for words. -/
def tweak16 (b : Buffer) (f : Chance (UInt16 → UInt16)) : Chance Buffer := do
  let span ← monus b.temp_len 1
  let pos ← UR span
  let f ← f
  let v ← certain (load_u16 b.out_buf pos)
  b.put (store_u16 b.out_buf pos (f v))

/-- The same for dwords. -/
def tweak32 (b : Buffer) (f : Chance (UInt32 → UInt32)) : Chance Buffer := do
  let span ← monus b.temp_len 3
  let pos ← UR span
  let f ← f
  let v ← certain (load_u32 b.out_buf pos)
  b.put (store_u32 b.out_buf pos (f v))

/-- Delete bytes. -/
def delete (x : Surrounding) (b : Buffer) : Chance Buffer := do
  let del_len ← choose_block_len x (b.temp_len - 1)
  let span ← monus b.temp_len del_len
  let del_from ← UR (span + 1)
  let rest ← monus b.temp_len del_from
  let rest ← monus rest del_len
  let out_buf ← certain (memcpy b.out_buf del_from b.out_buf (del_from + del_len) rest)
  let temp_len ← monus b.temp_len del_len
  return ⟨out_buf, temp_len⟩

/-- A constant byte: a random one, or one of the buffer. -/
def constant (b : Buffer) : Chance UInt8 := do
  let coin ← UR 2
  if coin ≠ 0 then
    let v ← UR 256
    return UInt8.ofNat v
  else
    let pos ← UR b.temp_len
    certain (load b.out_buf pos)

/-- Clone bytes (75%) or insert a block of constant bytes (25%). -/
def clone (x : Surrounding) (b : Buffer) : Chance Buffer := do
  let actually_clone ← UR 4
  let (clone_len, clone_from) ←
    (if actually_clone ≠ 0 then do
      let clone_len ← choose_block_len x b.temp_len
      let span ← monus b.temp_len clone_len
      let clone_from ← UR (span + 1)
      return (clone_len, clone_from)
    else do
      let clone_len ← choose_block_len x HAVOC_BLK_XL
      return (clone_len, 0) : Chance (ℕ × ℕ))
  let clone_to ← UR b.temp_len
  let new_buf := malloc (b.temp_len + clone_len)
  -- head, inserted part, tail
  let new_buf ← certain (memcpy new_buf 0 b.out_buf 0 clone_to)
  let new_buf ←
    (if actually_clone ≠ 0 then certain (memcpy new_buf clone_to b.out_buf clone_from clone_len)
    else do
      let v ← b.constant
      certain (memset new_buf clone_to v clone_len) : Chance Memory)
  let rest ← monus b.temp_len clone_to
  let new_buf ← certain (memcpy new_buf (clone_to + clone_len) b.out_buf clone_to rest)
  return ⟨new_buf, b.temp_len + clone_len⟩

/-- Overwrite bytes with a randomly selected chunk (75%) or fixed bytes (25%). -/
def overwrite (x : Surrounding) (b : Buffer) : Chance Buffer := do
  let copy_len ← choose_block_len x (b.temp_len - 1)
  let span ← monus b.temp_len copy_len
  let copy_from ← UR (span + 1)
  let copy_to ← UR (span + 1)
  let copy ← UR 4
  if copy ≠ 0 then
    if copy_from ≠ copy_to then b.put (memcpy b.out_buf copy_to b.out_buf copy_from copy_len) else pure b
  else
    let v ← b.constant
    b.put (memset b.out_buf copy_to v copy_len)

/-- Dice-rolling for a dictionary: an auto-detected extra, or one of the user's. -/
def pick_extra (x : Surrounding) : Chance (List UInt8) := do
  let auto ←
    (if x.extras.length = 0 then pure true
    else if x.a_extras.length ≠ 0 then do
      let coin ← UR 2
      return decide (coin ≠ 0)
    else pure false : Chance Bool)
  if auto then pick x.a_extras else pick x.extras

/-- Overwrite bytes with an extra. -/
def overwrite_extra (x : Surrounding) (b : Buffer) : Chance Buffer := do
  let extra ← pick_extra x
  if extra.length > b.temp_len then pure b
  else
    let span ← monus b.temp_len extra.length
    let insert_at ← UR (span + 1)
    b.put (memcpy b.out_buf insert_at (extra.map some) 0 extra.length)

/-- Insert an extra. -/
def insert_extra (x : Surrounding) (b : Buffer) : Chance Buffer := do
  let insert_at ← UR (b.temp_len + 1)
  let extra ← pick_extra x
  if b.temp_len + extra.length ≥ MAX_FILE then pure b
  else
    let new_buf := malloc (b.temp_len + extra.length)
    -- head, inserted part, tail
    let new_buf ← certain (memcpy new_buf 0 b.out_buf 0 insert_at)
    let new_buf ← certain (memcpy new_buf insert_at (extra.map some) 0 extra.length)
    let rest ← monus b.temp_len insert_at
    let new_buf ← certain (memcpy new_buf (insert_at + extra.length) b.out_buf insert_at rest)
    return ⟨new_buf, b.temp_len + extra.length⟩

/-- The `switch` of the stage. -/
def tweak_case (x : Surrounding) (b : Buffer) (case : ℕ) : Chance Buffer :=
  match case with
  | 0 => do
    let bit ← UR (b.temp_len * 8)
    b.flip_bit bit
  | 1 => b.tweak8 do
    let v ← pick interesting_8
    return fun _ => v
  | 2 =>
    if b.temp_len < 2 then pure b
    else do
      let endian ← UR 2
      b.tweak16 do
        let v ← pick interesting_16
        return fun _ => if endian ≠ 0 then v else SWAP16 v
  | 3 =>
    if b.temp_len < 4 then pure b
    else do
      let endian ← UR 2
      b.tweak32 do
        let v ← pick interesting_32
        return fun _ => if endian ≠ 0 then v else SWAP32 v
  | 4 => b.tweak8 do
    let num ← UR ARITH_MAX
    return fun v => v - UInt8.ofNat (1 + num)
  | 5 => b.tweak8 do
    let num ← UR ARITH_MAX
    return fun v => v + UInt8.ofNat (1 + num)
  | 6 =>
    if b.temp_len < 2 then pure b
    else do
      let endian ← UR 2
      b.tweak16 do
        let num ← UR ARITH_MAX
        let num := UInt16.ofNat (1 + num)
        return fun v => if endian ≠ 0 then v - num else SWAP16 (SWAP16 v - num)
  | 7 =>
    if b.temp_len < 2 then pure b
    else do
      let endian ← UR 2
      b.tweak16 do
        let num ← UR ARITH_MAX
        let num := UInt16.ofNat (1 + num)
        return fun v => if endian ≠ 0 then v + num else SWAP16 (SWAP16 v + num)
  | 8 =>
    if b.temp_len < 4 then pure b
    else do
      let endian ← UR 2
      b.tweak32 do
        let num ← UR ARITH_MAX
        let num := UInt32.ofNat (1 + num)
        return fun v => if endian ≠ 0 then v - num else SWAP32 (SWAP32 v - num)
  | 9 =>
    if b.temp_len < 4 then pure b
    else do
      let endian ← UR 2
      b.tweak32 do
        let num ← UR ARITH_MAX
        let num := UInt32.ofNat (1 + num)
        return fun v => if endian ≠ 0 then v + num else SWAP32 (SWAP32 v + num)
  | 10 => b.tweak8 do
    let num ← UR 255
    return fun v => v ^^^ UInt8.ofNat (1 + num)
  | 11 | 12 => if b.temp_len < 2 then pure b else b.delete x
  | 13 => if b.temp_len + HAVOC_BLK_XL < MAX_FILE then b.clone x else pure b
  | 14 => if b.temp_len < 2 then pure b else b.overwrite x
  | 15 => b.overwrite_extra x
  | 16 => b.insert_extra x
  | _ => pure b

/-- One random tweak. -/
def tweak (x : Surrounding) (b : Buffer) : Chance Buffer := do
  let case ← UR (15 + if x.extras.length + x.a_extras.length ≠ 0 then 2 else 0)
  b.tweak_case x case

/-- A stack of them. -/
def tweaks (x : Surrounding) (b : Buffer) : ℕ → Chance Buffer
  | 0 => pure b
  | n + 1 => do
    let b ← b.tweak x
    b.tweaks x n

end Buffer

/-- What is executed, and what it brings. -/
structure Progress where
  /-- The inputs, the last one first. -/
  executed : List (List UInt8)
  /-- Total number of queued testcases. -/
  queued_paths : ℕ

/-- `common_fuzz_stuff`, without a post-processor: the input is run and saved if interesting. Whether it is time to bail
out, and how many test cases are queued, is drawn. -/
def common_fuzz_stuff (b : Buffer) (p : Progress) : Chance (Progress × Bool) := do
  let input ← certain (contents b.out_buf b.temp_len)
  let found ← draw
  let bail ← UR 2
  return (⟨input :: p.executed, p.queued_paths + found⟩, decide (bail ≠ 0))

/-- One execution; the buffer is restored to its original size and shape. -/
def havoc_once (x : Surrounding) (in_buf : List UInt8) (out_buf : Memory) (p : Progress) :
    Chance (Memory × Progress × Bool) := do
  let pow ← UR HAVOC_STACK_POW2
  let b ← Buffer.tweaks x ⟨out_buf, in_buf.length⟩ (2 ^ (1 + pow))
  let (p, bail) ← common_fuzz_stuff b p
  if bail then return (b.out_buf, p, true)
  else
    let out_buf := if b.temp_len < in_buf.length then realloc_zero b.out_buf in_buf.length else b.out_buf
    let out_buf ← certain (memcpy out_buf 0 (in_buf.map some) 0 in_buf.length)
    return (out_buf, p, false)

/-- The loop of the stage. Where new paths were queued since `havoc_queued`, it runs for a bit longer. -/
def havoc_loop (x : Surrounding) (in_buf : List UInt8) (perf_score : ℕ) (hperf : 0 < perf_score)
    (stage_max stage_cur havoc_queued : ℕ) (out_buf : Memory) (p : Progress) : Chance (Memory × Progress × Bool) :=
  if stage_cur < stage_max then do
    let (out_buf, p, bail) ← havoc_once x in_buf out_buf p
    if bail then return (out_buf, p, true)
    else if p.queued_paths ≠ havoc_queued ∧ perf_score ≤ HAVOC_MAX_MULT * 100 then
      havoc_loop x in_buf (perf_score * 2) (by omega) (stage_max * 2) (stage_cur + 1) p.queued_paths out_buf p
    else havoc_loop x in_buf perf_score hperf stage_max (stage_cur + 1) p.queued_paths out_buf p
  else return (out_buf, p, false)
termination_by (HAVOC_MAX_MULT * 100 + 1 - perf_score, stage_max - stage_cur)
decreasing_by
  · rename_i hmore
    exact Prod.Lex.left _ _ (by omega)
  · exact Prod.Lex.right _ (by omega)

/-- The havoc stage, with this many executions at first. -/
def havoc_stage (x : Surrounding) (in_buf : List UInt8) (perf_score : ℕ) (hperf : 0 < perf_score) (stage_max : ℕ)
    (out_buf : Memory) (p : Progress) : Chance (Memory × Progress × Bool) :=
  havoc_loop x in_buf perf_score hperf (max stage_max HAVOC_MIN) 0 p.queued_paths out_buf p

/-! ### What is drawn -/

theorem UR_always {limit : ℕ} (h : 0 < limit) : Always (UR limit) (· < limit) :=
  .bind .draw fun random _ => .certain (if_neg (by omega)) (Nat.mod_lt random h)

theorem pick_always {α : Type} {table : List α} (h : table ≠ []) : Always (pick table) (· ∈ table) := by
  refine .bind (UR_always (List.length_pos_iff.mpr h)) fun i hi => ?_
  refine .certain ?_ (List.getElem_mem hi)
  rw [List.getElem?_eq_getElem hi]

/-- **Block lengths** are positive and within the limit. -/
theorem choose_block_len_always {x : Surrounding} {limit : ℕ} (hcycle : 0 < x.queue_cycle) (hlimit : 0 < limit) :
    Always (choose_block_len x limit) fun n => 1 ≤ n ∧ n ≤ limit ∧ n ≤ HAVOC_BLK_XL := by
  have hrlim : 0 < if !x.run_over10m then 1 else min x.queue_cycle 3 := by
    split <;> omega
  refine .bind (UR_always hrlim) fun case _ => ?_
  refine .bind (P := fun r : ℕ × ℕ => 1 ≤ r.1 ∧ r.1 ≤ r.2 ∧ r.2 ≤ HAVOC_BLK_XL) ?_ ?_
  · refine .ite (fun _ => .pure ?_) fun _ => .ite (fun _ => .pure ?_) fun _ => ?_
    · simp [HAVOC_BLK_SMALL, HAVOC_BLK_XL]
    · simp [HAVOC_BLK_SMALL, HAVOC_BLK_MEDIUM, HAVOC_BLK_XL]
    · refine .bind (UR_always (Nat.succ_pos 9)) fun large _ => .ite (fun _ => .pure ?_) fun _ => .pure ?_
      · simp [HAVOC_BLK_MEDIUM, HAVOC_BLK_LARGE, HAVOC_BLK_XL]
      · simp [HAVOC_BLK_LARGE, HAVOC_BLK_XL]
  · rintro ⟨min_value, max_value⟩ ⟨hone, hle, hxl⟩
    dsimp only at hone hle hxl ⊢
    have hmin : 1 ≤ (if min_value ≥ limit then 1 else min_value) ∧
        (if min_value ≥ limit then 1 else min_value) ≤ min max_value limit := by
      split <;> omega
    refine .bind (.monus hmin.2) ?_
    rintro span rfl
    refine .bind (UR_always (Nat.succ_pos _)) fun r hr => .pure ?_
    omega

/-! ### Tweaks -/

namespace Buffer

/-- **The invariant** of the buffer. -/
structure Ok (b : Buffer) : Prop where
  /-- It is not empty. -/
  pos : 1 ≤ b.temp_len
  /-- It is not too large. -/
  max : b.temp_len ≤ MAX_FILE
  /-- All bytes of it were written. -/
  written : Written b.out_buf b.temp_len

variable {x : Surrounding} {b : Buffer}

theorem put_ok (h : b.Ok) {m : Except CErr Memory} (hm : ∃ m', m = .ok m' ∧ Stays b.out_buf m') :
    Always (b.put m) Ok := by
  obtain ⟨m', hm', hstays⟩ := hm
  exact .bind (.certain hm' rfl) fun a ha => .pure ⟨h.pos, h.max, ha ▸ hstays.written _ h.written⟩

theorem flip_bit_ok (h : b.Ok) {bit : ℕ} (hbit : bit < b.temp_len * 8) : Always (b.flip_bit bit) Ok := by
  have hpos : bit / 8 < b.temp_len := by omega
  obtain ⟨v, hv⟩ := load_spec h.written hpos
  exact .bind (P := fun _ => True) (.certain hv trivial) fun v _ =>
    put_ok h (store_spec (Nat.lt_of_lt_of_le hpos h.written.le_length) _)

theorem tweak8_ok (h : b.Ok) {f : Chance (UInt8 → UInt8)} (hf : Always f fun _ => True) : Always (b.tweak8 f) Ok := by
  refine .bind (UR_always h.pos) fun pos hpos => .bind hf fun f _ => ?_
  obtain ⟨v, hv⟩ := load_spec h.written hpos
  exact .bind (P := fun _ => True) (.certain hv trivial) fun v _ =>
    put_ok h (store_spec (Nat.lt_of_lt_of_le hpos h.written.le_length) _)

theorem tweak16_ok (h : b.Ok) (htwo : ¬ b.temp_len < 2) {f : Chance (UInt16 → UInt16)} (hf : Always f fun _ => True) :
    Always (b.tweak16 f) Ok := by
  have hlen := h.written.le_length
  refine .bind (.monus h.pos) ?_
  rintro span rfl
  refine .bind (UR_always (by omega)) fun pos hpos => .bind hf fun f _ => ?_
  obtain ⟨v, hv⟩ := @load_u16_spec b.out_buf b.temp_len h.written pos (by omega)
  exact .bind (P := fun _ => True) (.certain hv trivial) fun v _ => put_ok h (store_u16_spec (by omega) _)

theorem tweak32_ok (h : b.Ok) (hfour : ¬ b.temp_len < 4) {f : Chance (UInt32 → UInt32)} (hf : Always f fun _ => True) :
    Always (b.tweak32 f) Ok := by
  have hlen := h.written.le_length
  refine .bind (.monus (by omega)) ?_
  rintro span rfl
  refine .bind (UR_always (by omega)) fun pos hpos => .bind hf fun f _ => ?_
  obtain ⟨v, hv⟩ := @load_u32_spec b.out_buf b.temp_len h.written pos (by omega)
  exact .bind (P := fun _ => True) (.certain hv trivial) fun v _ => put_ok h (store_u32_spec (by omega) _)

/-- Bytes are moved down. -/
theorem delete_ok (h : b.Ok) (hcycle : 0 < x.queue_cycle) (htwo : ¬ b.temp_len < 2) : Always (b.delete x) Ok := by
  have hlen := h.written.le_length
  have hmax := h.max
  refine .bind (choose_block_len_always hcycle (by omega)) fun del_len hdel => ?_
  refine .bind (.monus (by omega)) ?_
  rintro span rfl
  refine .bind (UR_always (Nat.succ_pos _)) fun del_from hfrom => ?_
  refine .bind (.monus (by omega)) ?_
  rintro rest rfl
  refine .bind (.monus (by omega)) ?_
  rintro rest rfl
  obtain ⟨m, hm, -, hget⟩ := @memcpy_spec b.out_buf b.out_buf del_from (del_from + del_len)
    (b.temp_len - del_from - del_len) (by omega) (by omega)
  refine .bind (.certain hm rfl) ?_
  rintro out_buf rfl
  refine .bind (.monus (by omega)) ?_
  rintro temp_len rfl
  refine .pure ⟨?_, ?_, fun i hi => ?_⟩
  · dsimp only
    omega
  · dsimp only
    omega
  · dsimp only at hi ⊢
    rw [hget]
    split
    · exact h.written _ (by omega)
    · exact h.written _ (by omega)

theorem constant_ok (h : b.Ok) : Always b.constant fun _ => True := by
  refine .bind (UR_always Nat.two_pos) fun coin _ => .ite (fun _ => ?_) fun _ => ?_
  · exact .bind (UR_always (by omega)) fun v _ => .pure trivial
  · refine .bind (UR_always h.pos) fun pos hpos => ?_
    obtain ⟨v, hv⟩ := load_spec h.written hpos
    exact .certain hv trivial

/-- **A new block** that is written in three steps: the head, something that is inserted, the tail. -/
theorem written_insert {m₀ m₁ m₂ m₃ : Memory} {n p k : ℕ} (hbuf : Written b.out_buf n) (hto : p ≤ n)
    (h₁ : ∀ i, m₁[i]? = if 0 ≤ i ∧ i < 0 + p then b.out_buf[0 + (i - 0)]? else m₀[i]?)
    (h₂ : ∀ i, p ≤ i → i < p + k → ∃ v, m₂[i]? = some (some v))
    (h₂' : ∀ i, ¬ (p ≤ i ∧ i < p + k) → m₂[i]? = m₁[i]?)
    (h₃ : ∀ i, m₃[i]? = if p + k ≤ i ∧ i < p + k + (n - p) then b.out_buf[p + (i - (p + k))]? else m₂[i]?) :
    Written m₃ (n + k) := by
  intro i hi
  rw [h₃]
  split
  · exact hbuf _ (by omega)
  · by_cases hin : p ≤ i ∧ i < p + k
    · exact h₂ i hin.1 hin.2
    · rw [h₂' i hin, h₁, if_pos (by omega)]
      exact hbuf _ (by omega)

theorem clone_ok (h : b.Ok) (hcycle : 0 < x.queue_cycle) (hmax : b.temp_len + HAVOC_BLK_XL < MAX_FILE) :
    Always (b.clone x) Ok := by
  have hlen := h.written.le_length
  refine .bind (UR_always (by omega)) fun actually_clone _ => ?_
  refine .bind (P := fun r : ℕ × ℕ => 1 ≤ r.1 ∧ r.1 ≤ HAVOC_BLK_XL ∧ (actually_clone ≠ 0 → r.2 + r.1 ≤ b.temp_len)) ?_ ?_
  · refine .ite (fun _ => ?_) fun hconst => ?_
    · refine .bind (choose_block_len_always hcycle h.pos) fun clone_len hclone => ?_
      refine .bind (.monus hclone.2.1) ?_
      rintro span rfl
      refine .bind (UR_always (Nat.succ_pos _)) fun clone_from hfrom => .pure ⟨hclone.1, hclone.2.2, fun _ => ?_⟩
      dsimp only
      omega
    · refine .bind (choose_block_len_always hcycle (by rw [HAVOC_BLK_XL]; omega)) fun clone_len hclone => ?_
      exact .pure ⟨hclone.1, hclone.2.2, fun hclone => absurd hclone hconst⟩
  · rintro ⟨clone_len, clone_from⟩ ⟨hone, hxl, hfrom⟩
    dsimp only at hone hxl hfrom ⊢
    refine .bind (UR_always h.pos) fun clone_to hto => ?_
    obtain ⟨m₁, hm₁, hlen₁, hget₁⟩ := @memcpy_spec (malloc (b.temp_len + clone_len)) b.out_buf 0 0 clone_to
      (by rw [length_malloc]; omega) (by omega)
    rw [length_malloc] at hlen₁
    refine .bind (.certain hm₁ rfl) ?_
    rintro m₁ rfl
    refine .bind (P := fun m₂ : Memory => m₂.length = b.temp_len + clone_len ∧
      (∀ i, clone_to ≤ i → i < clone_to + clone_len → ∃ v, m₂[i]? = some (some v)) ∧
      ∀ i, ¬ (clone_to ≤ i ∧ i < clone_to + clone_len) → m₂[i]? = m₁[i]?) ?_ ?_
    · refine .ite (fun hclone => ?_) fun _ => ?_
      · have hfrom := hfrom hclone
        obtain ⟨m₂, hm₂, hlen₂, hget₂⟩ := @memcpy_spec m₁ b.out_buf clone_to clone_from clone_len (by omega) (by omega)
        refine .certain hm₂ ⟨by omega, fun i hi hi' => ?_, fun i hi => ?_⟩
        · rw [hget₂, if_pos ⟨hi, hi'⟩]
          exact h.written _ (by omega)
        · rw [hget₂, if_neg hi]
      · refine .bind (constant_ok h) fun v _ => ?_
        obtain ⟨m₂, hm₂, hlen₂, hget₂⟩ := @memset_spec m₁ clone_to clone_len (by omega) v
        refine .certain hm₂ ⟨by omega, fun i hi hi' => ?_, fun i hi => ?_⟩
        · exact ⟨v, by rw [hget₂, if_pos ⟨hi, hi'⟩]⟩
        · rw [hget₂, if_neg hi]
    · rintro m₂ ⟨hlen₂, hmid, hout⟩
      refine .bind (.monus (by omega)) ?_
      rintro rest rfl
      obtain ⟨m₃, hm₃, hlen₃, hget₃⟩ := @memcpy_spec m₂ b.out_buf (clone_to + clone_len) clone_to (b.temp_len - clone_to)
        (by omega) (by omega)
      refine .bind (.certain hm₃ rfl) ?_
      rintro m₃ rfl
      refine .pure ⟨?_, ?_, written_insert h.written (by omega) hget₁ hmid hout hget₃⟩
      · dsimp only
        omega
      · dsimp only
        omega

theorem overwrite_ok (h : b.Ok) (hcycle : 0 < x.queue_cycle) (htwo : ¬ b.temp_len < 2) : Always (b.overwrite x) Ok := by
  have hlen := h.written.le_length
  refine .bind (choose_block_len_always hcycle (by omega)) fun copy_len hcopy => ?_
  refine .bind (.monus (by omega)) ?_
  rintro span rfl
  refine .bind (UR_always (Nat.succ_pos _)) fun copy_from hfrom => ?_
  refine .bind (UR_always (Nat.succ_pos _)) fun copy_to hto => ?_
  refine .bind (UR_always (by omega)) fun copy _ => .ite (fun _ => .ite (fun _ => ?_) fun _ => .pure h) fun _ => ?_
  · obtain ⟨m, hm, hlen', hget⟩ := @memcpy_spec b.out_buf b.out_buf copy_to copy_from copy_len (by omega) (by omega)
    refine .bind (.certain hm rfl) ?_
    rintro m rfl
    refine .pure ⟨h.pos, h.max, fun i hi => ?_⟩
    dsimp only at hi ⊢
    rw [hget]
    split
    · exact h.written _ (by omega)
    · exact h.written i hi
  · refine .bind (constant_ok h) fun v _ => ?_
    obtain ⟨m, hm, hlen', hget⟩ := @memset_spec b.out_buf copy_to copy_len (by omega) v
    refine .bind (.certain hm rfl) ?_
    rintro m rfl
    refine .pure ⟨h.pos, h.max, fun i hi => ?_⟩
    dsimp only at hi ⊢
    rw [hget]
    split
    · exact ⟨v, rfl⟩
    · exact h.written i hi

/-- There is an extra when there is a dictionary. -/
theorem pick_extra_always (h : x.extras.length + x.a_extras.length ≠ 0) : Always (pick_extra x) fun _ => True := by
  refine .bind (P := fun auto : Bool => if auto then x.a_extras ≠ [] else x.extras ≠ []) ?_ ?_
  · refine .ite (fun hnone => .pure ?_) fun hsome => .ite (fun hauto => ?_) fun hnone => .pure ?_
    · rw [if_pos rfl]
      rintro hnil
      simp [hnil, hnone] at h
    · refine .bind (UR_always Nat.two_pos) fun coin _ => .pure ?_
      split
      · exact fun hnil => hauto (by rw [hnil]; rfl)
      · exact fun hnil => hsome (by rw [hnil]; rfl)
    · rw [if_neg Bool.false_ne_true]
      exact fun hnil => hsome (by rw [hnil]; rfl)
  · intro auto hauto
    refine .ite (fun ht => ?_) fun hf => ?_
    · rw [if_pos ht] at hauto
      exact (pick_always hauto).mono fun _ _ => trivial
    · rw [if_neg hf] at hauto
      exact (pick_always hauto).mono fun _ _ => trivial

theorem overwrite_extra_ok (h : b.Ok) (hextras : x.extras.length + x.a_extras.length ≠ 0) :
    Always (b.overwrite_extra x) Ok := by
  have hlen := h.written.le_length
  refine .bind (pick_extra_always hextras) fun extra _ => .ite (fun _ => .pure h) fun hfit => ?_
  refine .bind (.monus (by omega)) ?_
  rintro span rfl
  refine .bind (UR_always (Nat.succ_pos _)) fun insert_at hat => ?_
  obtain ⟨m, hm, hlen', hget⟩ := @memcpy_spec b.out_buf (extra.map some) insert_at 0 extra.length (by omega)
    (by rw [List.length_map]; omega)
  refine .bind (.certain hm rfl) ?_
  rintro m rfl
  refine .pure ⟨h.pos, h.max, fun i hi => ?_⟩
  dsimp only at hi ⊢
  rw [hget]
  split
  · exact written_map extra _ (by omega)
  · exact h.written i hi

theorem insert_extra_ok (h : b.Ok) (hextras : x.extras.length + x.a_extras.length ≠ 0) :
    Always (b.insert_extra x) Ok := by
  have hlen := h.written.le_length
  refine .bind (UR_always (Nat.succ_pos _)) fun insert_at hat => ?_
  refine .bind (pick_extra_always hextras) fun extra _ => .ite (fun _ => .pure h) fun hfit => ?_
  obtain ⟨m₁, hm₁, hlen₁, hget₁⟩ := @memcpy_spec (malloc (b.temp_len + extra.length)) b.out_buf 0 0 insert_at
    (by rw [length_malloc]; omega) (by omega)
  rw [length_malloc] at hlen₁
  refine .bind (.certain hm₁ rfl) ?_
  rintro m₁ rfl
  obtain ⟨m₂, hm₂, hlen₂, hget₂⟩ := @memcpy_spec m₁ (extra.map some) insert_at 0 extra.length (by omega)
    (by rw [List.length_map]; omega)
  refine .bind (.certain hm₂ rfl) ?_
  rintro m₂ rfl
  refine .bind (.monus (by omega)) ?_
  rintro rest rfl
  obtain ⟨m₃, hm₃, hlen₃, hget₃⟩ := @memcpy_spec m₂ b.out_buf (insert_at + extra.length) insert_at
    (b.temp_len - insert_at) (by omega) (by omega)
  refine .bind (.certain hm₃ rfl) ?_
  rintro m₃ rfl
  refine .pure ⟨?_, ?_, written_insert h.written (by omega) hget₁ (fun i hi hi' => ?_) (fun i hi => ?_) hget₃⟩
  · have := h.pos
    dsimp only
    omega
  · dsimp only
    omega
  · rw [hget₂, if_pos ⟨hi, hi'⟩]
    exact written_map extra _ (by omega)
  · rw [hget₂, if_neg hi]

/-- **No tweak goes wrong**, whatever is drawn. -/
theorem tweak_case_ok (h : b.Ok) (hcycle : 0 < x.queue_cycle) {case : ℕ}
    (hextras : 15 ≤ case → x.extras.length + x.a_extras.length ≠ 0) : Always (b.tweak_case x case) Ok := by
  have hpos := h.pos
  unfold tweak_case
  split
  · exact .bind (UR_always (by omega)) fun bit hbit => flip_bit_ok h hbit
  · exact tweak8_ok h (.bind (pick_always (by simp [interesting_8, INTERESTING_8])) fun v _ => .pure trivial)
  · refine .ite (fun _ => .pure h) fun htwo => .bind (UR_always Nat.two_pos) fun endian _ => tweak16_ok h htwo ?_
    exact .bind (pick_always (by simp [interesting_16, INTERESTING_8])) fun v _ => .pure trivial
  · refine .ite (fun _ => .pure h) fun hfour => .bind (UR_always Nat.two_pos) fun endian _ => tweak32_ok h hfour ?_
    exact .bind (pick_always (by simp [interesting_32, INTERESTING_8])) fun v _ => .pure trivial
  · exact tweak8_ok h (.bind (UR_always (Nat.succ_pos 34)) fun num _ => .pure trivial)
  · exact tweak8_ok h (.bind (UR_always (Nat.succ_pos 34)) fun num _ => .pure trivial)
  · refine .ite (fun _ => .pure h) fun htwo => .bind (UR_always Nat.two_pos) fun endian _ => tweak16_ok h htwo ?_
    exact .bind (UR_always (Nat.succ_pos 34)) fun num _ => .pure trivial
  · refine .ite (fun _ => .pure h) fun htwo => .bind (UR_always Nat.two_pos) fun endian _ => tweak16_ok h htwo ?_
    exact .bind (UR_always (Nat.succ_pos 34)) fun num _ => .pure trivial
  · refine .ite (fun _ => .pure h) fun hfour => .bind (UR_always Nat.two_pos) fun endian _ => tweak32_ok h hfour ?_
    exact .bind (UR_always (Nat.succ_pos 34)) fun num _ => .pure trivial
  · refine .ite (fun _ => .pure h) fun hfour => .bind (UR_always Nat.two_pos) fun endian _ => tweak32_ok h hfour ?_
    exact .bind (UR_always (Nat.succ_pos 34)) fun num _ => .pure trivial
  · exact tweak8_ok h (.bind (UR_always (Nat.succ_pos 254)) fun num _ => .pure trivial)
  · exact .ite (fun _ => .pure h) fun htwo => delete_ok h hcycle htwo
  · exact .ite (fun _ => .pure h) fun htwo => delete_ok h hcycle htwo
  · exact .ite (fun hmax => clone_ok h hcycle hmax) fun _ => .pure h
  · exact .ite (fun _ => .pure h) fun htwo => overwrite_ok h hcycle htwo
  · exact overwrite_extra_ok h (hextras (Nat.le_refl _))
  · exact insert_extra_ok h (hextras (by omega))
  · exact .pure h

theorem tweak_ok (h : b.Ok) (hcycle : 0 < x.queue_cycle) : Always (b.tweak x) Ok := by
  refine .bind (UR_always (by omega)) fun case hcase => tweak_case_ok h hcycle fun hextras => ?_
  intro hnone
  rw [if_neg (not_not_intro hnone)] at hcase
  omega

theorem tweaks_ok (h : b.Ok) (hcycle : 0 < x.queue_cycle) (n : ℕ) : Always (b.tweaks x n) Ok := by
  induction n generalizing b with
  | zero => exact .pure h
  | succ n ih => exact .bind (tweak_ok h hcycle) fun b hb => ih hb

end Buffer

/-! ### The stage -/

/-- All inputs are of a possible size. -/
def Sized (inputs : List (List UInt8)) : Prop := ∀ input ∈ inputs, 1 ≤ input.length ∧ input.length ≤ MAX_FILE

variable {x : Surrounding} {in_buf : List UInt8} {out_buf : Memory} {p : Progress}

/-- The input is in the buffer. -/
def Holds (out_buf : Memory) (in_buf : List UInt8) : Prop := out_buf.take in_buf.length = in_buf.map some

theorem Holds.written (h : Holds out_buf in_buf) : Written out_buf in_buf.length := by
  intro i hi
  obtain ⟨b, hb⟩ := written_map in_buf i hi
  rw [← h, List.getElem?_take_of_lt hi] at hb
  exact ⟨b, hb⟩

theorem common_fuzz_stuff_always {b : Buffer} (hb : b.Ok) (hp : Sized p.executed) :
    Always (common_fuzz_stuff b p) fun r => Sized r.1.executed ∧ r.1.executed.length = p.executed.length + 1 := by
  obtain ⟨input, hinput, hlen, -⟩ := contents_spec hb.written
  refine .bind (.certain hinput rfl) ?_
  rintro input rfl
  refine .bind .draw fun found _ => .bind (UR_always Nat.two_pos) fun bail _ => .pure ⟨?_, rfl⟩
  intro y hy
  rcases List.mem_cons.mp hy with rfl | hy
  · rw [hlen]
    exact ⟨hb.pos, hb.max⟩
  · exact hp y hy

/-- **One execution** leaves the buffer as it was. -/
theorem havoc_once_always (hcycle : 0 < x.queue_cycle) (hpos : 1 ≤ in_buf.length) (hmax : in_buf.length ≤ MAX_FILE)
    (hout : Holds out_buf in_buf) (hp : Sized p.executed) :
    Always (havoc_once x in_buf out_buf p) fun r => Sized r.2.1.executed ∧
      r.2.1.executed.length = p.executed.length + 1 ∧ (r.2.2 = false → Holds r.1 in_buf) := by
  refine .bind (UR_always (Nat.succ_pos 6)) fun pow _ => ?_
  refine .bind (Buffer.tweaks_ok ⟨hpos, hmax, hout.written⟩ hcycle _) fun b hb => ?_
  refine .bind (common_fuzz_stuff_always hb hp) ?_
  rintro ⟨p', bail⟩ ⟨hsized, hcount⟩
  refine .ite (fun _ => .pure ⟨hsized, hcount, fun h => absurd h.symm Bool.false_ne_true⟩) fun _ => ?_
  have hroom : in_buf.length ≤
      (if b.temp_len < in_buf.length then realloc_zero b.out_buf in_buf.length else b.out_buf).length := by
    split
    · rw [length_realloc_zero]
    · have := hb.written.le_length
      omega
  have hfits : 0 + in_buf.length ≤ (in_buf.map some).length := by
    rw [List.length_map]
    omega
  refine .bind (.certain (if_pos ⟨by omega, hfits⟩) rfl) ?_
  rintro out rfl
  refine .pure ⟨hsized, hcount, fun _ => ?_⟩
  rw [Holds]
  simp

/-- The loop, from any execution on: it runs at most as long as doubling allows. -/
theorem havoc_loop_always (hcycle : 0 < x.queue_cycle) (hpos : 1 ≤ in_buf.length) (hmax : in_buf.length ≤ MAX_FILE)
    {perf_score : ℕ} (hperf : 0 < perf_score) (hscore : perf_score ≤ 2 * (HAVOC_MAX_MULT * 100))
    {stage_max stage_cur havoc_queued : ℕ} (before : ℕ) {out_buf : Memory} {p : Progress} (hcur : stage_cur ≤ stage_max)
    (hbefore : p.executed.length = before + stage_cur) (hout : Holds out_buf in_buf) (hp : Sized p.executed) :
    Always (havoc_loop x in_buf perf_score hperf stage_max stage_cur havoc_queued out_buf p) fun r =>
      Sized r.2.1.executed ∧ (r.2.2 = false → Holds r.1 in_buf) ∧
        ∃ n, r.2.1.executed.length = before + n ∧ n * perf_score ≤ stage_max * (2 * (HAVOC_MAX_MULT * 100)) := by
  have hbound : ∀ n ≤ stage_max, n * perf_score ≤ stage_max * (2 * (HAVOC_MAX_MULT * 100)) :=
    fun n hn => Nat.mul_le_mul hn hscore
  rw [havoc_loop]
  refine .ite (fun hlt => .bind (havoc_once_always hcycle hpos hmax hout hp) ?_) fun _ => .pure ?_
  · rintro ⟨out', p', bail⟩ ⟨hsized, hcount, hholds⟩
    dsimp only at hsized hcount hholds
    refine .ite (fun hbail => .pure ?_) fun hbail => .ite (fun hmore => ?_) fun _ => ?_
    · exact ⟨hsized, fun h => absurd h.symm Bool.false_ne_true, stage_cur + 1,
        by dsimp only; omega, hbound _ (by omega)⟩
    · refine (havoc_loop_always hcycle hpos hmax _ (by omega) before (by omega) (by omega)
        (hholds (Bool.not_eq_true bail ▸ hbail)) hsized).mono ?_
      rintro r ⟨hr, hrout, n, hn, hle⟩
      rw [← Nat.mul_assoc, Nat.mul_right_comm stage_max] at hle
      exact ⟨hr, hrout, n, hn, Nat.le_of_mul_le_mul_right hle Nat.two_pos⟩
    · exact havoc_loop_always hcycle hpos hmax _ hscore before (by omega) (by omega)
        (hholds (Bool.not_eq_true bail ▸ hbail)) hsized
  · exact ⟨hp, fun _ => hout, stage_cur, hbefore, hbound _ hcur⟩
termination_by (HAVOC_MAX_MULT * 100 + 1 - perf_score, stage_max - stage_cur)
decreasing_by
  · exact Prod.Lex.left _ _ (by omega)
  · exact Prod.Lex.right _ (by omega)

/-- **The havoc stage**, whatever is drawn: nothing goes wrong, and it ends. All inputs it runs are of a possible size,
there are at most `3200 / perf_score` times as many as planned, and the buffer holds the input again unless the entry is
abandoned. -/
theorem havoc_stage_safe (x : Surrounding) (in_buf : List UInt8) (perf_score stage_max : ℕ) (out_buf : Memory)
    (p : Progress) (hcycle : 0 < x.queue_cycle) (hpos : 1 ≤ in_buf.length) (hmax : in_buf.length ≤ MAX_FILE)
    (hperf : 0 < perf_score) (hscore : perf_score ≤ HAVOC_MAX_MULT * 100) (hout : Holds out_buf in_buf)
    (hp : Sized p.executed) :
    Always (havoc_stage x in_buf perf_score hperf stage_max out_buf p) fun r =>
      Sized r.2.1.executed ∧ (r.2.2 = false → Holds r.1 in_buf) ∧
        ∃ n, r.2.1.executed.length = p.executed.length + n ∧
          n * perf_score ≤ max stage_max HAVOC_MIN * (2 * (HAVOC_MAX_MULT * 100)) :=
  havoc_loop_always hcycle hpos hmax hperf (by omega) p.executed.length (Nat.zero_le _) rfl hout hp

end SEDiff.Afl.Havoc
