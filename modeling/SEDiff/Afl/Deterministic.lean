import SEDiff.Afl.Havoc
import SEDiff.Foundation.Patches
import SEDiff.Foundation.Trials

/-!
# The deterministic stages

The stages of `fuzz_one` before the havoc stage: walking bits and bytes, small sums and differences, and interesting
values, each tried at every offset of the input. What earlier stages tried is left out where the code sees it, and so are
bytes that had no effect on the path (the effector map).

## What is proved

* `bytes_does` — what the stages for single bytes try, in order; the buffer is restored.
* `eff_map_iff` — the blocks of the effector map.
-/

namespace SEDiff.Afl.Deterministic

open Foundation Havoc

/-! ### What was tried before -/

/-- The lowest set bit is shifted to the right end; `sh` counts the shifts. -/
def shifted : ℕ → ℕ → UInt32 → ℕ × UInt32
  | 0, sh, xor_val => (sh, xor_val)
  | n + 1, sh, xor_val => if xor_val &&& 1 = 0 then shifted n (sh + 1) (xor_val >>> 1) else (sh, xor_val)

/-- `could_be_bitflip`. -/
def could_be_bitflip (xor_val : UInt32) : Bool :=
  if xor_val = 0 then true
  else
    let (sh, xor_val) := shifted 32 0 xor_val
    if xor_val = 1 ∨ xor_val = 3 ∨ xor_val = 15 then true
    else if sh &&& 7 ≠ 0 then false
    else xor_val == 0xff || xor_val == 0xffff || xor_val == 0xffffffff

/-- The bytes or words of the same position that differ: how many, and the last of them. -/
def diffs (blen size : ℕ) (old_val new_val : UInt32) : List (UInt32 × UInt32) :=
  (List.range (blen / size)).filterMap fun i =>
    let mask : UInt32 := if size = 1 then 0xff else 0xffff
    let a := (old_val >>> UInt32.ofNat (8 * size * i)) &&& mask
    let b := (new_val >>> UInt32.ofNat (8 * size * i)) &&& mask
    if a ≠ b then some (a, b) else none

/-- One of the differences is small. -/
def near (bits : ℕ) (ov nv : UInt32) : Bool :=
  (ov - nv).toNat % 2 ^ bits ≤ ARITH_MAX || (nv - ov).toNat % 2 ^ bits ≤ ARITH_MAX

/-- `could_be_arith`. -/
def could_be_arith (old_val new_val : UInt32) (blen : ℕ) : Bool :=
  if old_val = new_val then true
  else if (match diffs blen 1 old_val new_val with
    | [(ov, nv)] => near 8 ov nv
    | _ => false) then true
  else if blen = 1 then false
  else if (match diffs blen 2 old_val new_val with
    | [(ov, nv)] =>
      near 16 ov nv || near 16 (SWAP16 ov.toUInt16).toUInt32 (SWAP16 nv.toUInt16).toUInt32
    | _ => false) then true
  else blen == 4 && (near 32 old_val new_val || near 32 (SWAP32 old_val) (SWAP32 new_val))

/-! ### The source -/

/-- `SWAP16` and `SWAP32`. -/
def SWAP (w v : ℕ) : ℕ := word_of (bytes_of w v).reverse

/-- `EFF_MAP_SCALE2`. -/
def EFF_MAP_SCALE2 : ℕ := 3

/-- `EFF_MIN_LEN`. -/
def EFF_MIN_LEN : ℕ := 128

/-- `EFF_MAX_PERC`. -/
def EFF_MAX_PERC : ℕ := 90

/-- `EFF_APOS`. -/
def EFF_APOS (p : ℕ) : ℕ := p / 2 ^ EFF_MAP_SCALE2

/-- `EFF_ALEN`. -/
def EFF_ALEN (l : ℕ) : ℕ := EFF_APOS l + (if l % 2 ^ EFF_MAP_SCALE2 ≠ 0 then 1 else 0)

/-- What `fuzz_one` reads; of the executions, it is the number that says which one is meant. -/
structure Setting where
  /-- Is the entry abandoned after the execution? -/
  bail : ℕ → Bool
  /-- `hash32(trace_bits, ...)` after the execution. -/
  cksum : ℕ → UInt32
  /-- Checksum of the execution trace of the entry. -/
  exec_cksum : UInt32
  /-- Run in non-instrumented mode? -/
  dumb_mode : Bool
  /-- Skip most arithmetic ops? -/
  no_arith : Bool
  /-- The length of the input. -/
  len : ℕ

/-- What changes. -/
structure Det where
  /-- The buffer. -/
  out_buf : List UInt8
  /-- The effector map. -/
  eff_map : ℕ → Bool
  /-- How many blocks are flagged in it. -/
  eff_cnt : ℕ

/-- A stage. -/
abbrev Stage := Trial Det (List UInt8)

variable (x : Setting)

/-- `common_fuzz_stuff(argv, out_buf, len)`. -/
def common_fuzz_stuff : Stage := .attempt x.bail Det.out_buf

/-- A change of the buffer. -/
def tweak (f : List UInt8 → List UInt8) : Stage := .modify fun s => { s with out_buf := f s.out_buf }

/-- `FLIP_BIT`. -/
def FLIP_BIT (b : ℕ) (out_buf : List UInt8) : List UInt8 :=
  out_buf.modify (b / 8) fun v => v ^^^ 128 >>> UInt8.ofNat (b % 8)

/-- `k` bits from `b` on. -/
def FLIP_BITS (k b : ℕ) (out_buf : List UInt8) : List UInt8 :=
  (List.range k).foldl (fun buf t => FLIP_BIT (b + t) buf) out_buf

/-- `k` walking bits. -/
def walk (k : ℕ) : Stage := .upTo (8 * x.len - (k - 1)) fun stage_cur =>
  (tweak (FLIP_BITS k stage_cur)).andThen ((common_fuzz_stuff x).andThen (tweak (FLIP_BITS k stage_cur)))

/-- "bitflip 1/1". -/
def flip1 : Stage := walk x 1

/-- "bitflip 2/1". -/
def flip2 : Stage := walk x 2

/-- "bitflip 4/1". -/
def flip4 : Stage := walk x 4

/-- The first and the last byte are always flagged. -/
def eff_setup (s : Det) : Det :=
  let eff_map := Function.update (fun _ => false) 0 true
  if EFF_APOS (x.len - 1) ≠ 0 then
    { s with eff_map := Function.update eff_map (EFF_APOS (x.len - 1)) true, eff_cnt := s.eff_cnt + 1 }
  else { s with eff_map := eff_map }

/-- Did the byte that was flipped in the `n`th execution have an effect? For short files there is no check. -/
def effect (n : ℕ) : Bool :=
  let cksum := if !x.dumb_mode ∧ x.len ≥ EFF_MIN_LEN then x.cksum n else ~~~x.exec_cksum
  cksum != x.exec_cksum

/-- After this execution. -/
def eff_mark (stage_cur n : ℕ) (s : Det) : Det :=
  if !s.eff_map (EFF_APOS stage_cur) then
    if effect x n then
      { s with eff_map := Function.update s.eff_map (EFF_APOS stage_cur) true, eff_cnt := s.eff_cnt + 1 }
    else s
  else s

/-- Most blocks are flagged: flag them all. -/
def eff_fill (s : Det) : Det :=
  if s.eff_cnt ≠ EFF_ALEN x.len ∧ s.eff_cnt * 100 / EFF_ALEN x.len > EFF_MAX_PERC then
    { s with eff_map := fun k => if k < EFF_ALEN x.len then true else s.eff_map k }
  else s

/-- `out_buf[i] ^= 0xFF`. -/
def invert (i : ℕ) (out_buf : List UInt8) : List UInt8 := out_buf.modify i fun v => v ^^^ 0xFF

/-- "bitflip 8/8". -/
def flip8 : Stage := .upTo x.len fun stage_cur =>
  (tweak (invert stage_cur)).andThen ((common_fuzz_stuff x).andThen
    ((Trial.observe (eff_mark x stage_cur)).andThen (tweak (invert stage_cur))))

/-- Is one of the `w` bytes flagged? -/
def effective (w i : ℕ) (s : Det) : Bool := (List.range w).any fun k => s.eff_map (EFF_APOS (i + k))

/-- The offsets of words of `w` bytes that are not skipped. -/
def offsets (w : ℕ) (body : ℕ → Stage) : Stage := .upTo (x.len - (w - 1)) fun i =>
  .ask fun s => if effective w i s then body i else .skip

/-- The words of `w` bytes, inverted. -/
def flip_words (w : ℕ) : Stage := offsets x w fun i =>
  let flip := tweak fun out_buf => poke w i (peek w i out_buf ^^^ (256 ^ w - 1)) out_buf
  flip.andThen ((common_fuzz_stuff x).andThen flip)

/-- "bitflip 16/8". -/
def flip16 : Stage := flip_words x 2

/-- "bitflip 32/8". -/
def flip32 : Stage := flip_words x 4

/-- Words are tried at an offset, each under a condition. -/
def attempts (w i : ℕ) (vs : List (ℕ × Bool)) : Stage :=
  .each (fun v => if v.2 then (tweak (poke w i v.1)).andThen (common_fuzz_stuff x) else .skip) vs

/-- "arith 8/8": sums and differences. -/
def arith8_values (orig j : ℕ) : List (ℕ × Bool) :=
  let plus := (orig + j) % 256
  let minus := (orig + 256 - j) % 256
  [(plus, !could_be_bitflip (UInt32.ofNat (orig ^^^ plus))), (minus, !could_be_bitflip (UInt32.ofNat (orig ^^^ minus)))]

/-- "arith 8/8". -/
def arith8 : Stage := offsets x 1 fun i => .ask fun s =>
  let orig := peek 1 i s.out_buf
  .upTo ARITH_MAX fun j => (attempts x 1 i (arith8_values orig (j + 1))).andThen (tweak (poke 1 i orig))

/-- Sums and differences of words of `w` bytes, little-endian and then big-endian, if they change more than the lower
half of the word, of `h` bytes. -/
def arith_values (w h orig j : ℕ) : List (ℕ × Bool) :=
  let le_plus := (orig + j) % 256 ^ w
  let le_minus := (orig + 256 ^ w - j) % 256 ^ w
  let be_plus := SWAP w ((SWAP w orig + j) % 256 ^ w)
  let be_minus := SWAP w ((SWAP w orig + 256 ^ w - j) % 256 ^ w)
  let fresh (v : ℕ) : Bool := !could_be_bitflip (UInt32.ofNat (orig ^^^ v))
  [(le_plus, orig % 256 ^ h + j > 256 ^ h - 1 && fresh le_plus), (le_minus, orig % 256 ^ h < j && fresh le_minus),
    (be_plus, SWAP w orig % 256 ^ h + j > 256 ^ h - 1 && fresh be_plus),
    (be_minus, SWAP w orig % 256 ^ h < j && fresh be_minus)]

/-- The stage for these. -/
def arith_words (w h : ℕ) : Stage := offsets x w fun i => .ask fun s =>
  let orig := peek w i s.out_buf
  .upTo ARITH_MAX fun j => (attempts x w i (arith_values w h orig (j + 1))).andThen (tweak (poke w i orig))

/-- "arith 16/8". -/
def arith16 : Stage := arith_words x 2 1

/-- "arith 32/8". -/
def arith32 : Stage := arith_words x 4 2

/-- "interest 8/8": is the value tried? -/
def int8_fresh (orig : ℕ) (v : UInt8) : Bool :=
  !(could_be_bitflip (UInt32.ofNat (orig ^^^ v.toNat)) ||
    could_be_arith (UInt32.ofNat orig) (UInt32.ofNat v.toNat) 1)

/-- "interest 8/8". -/
def int8 : Stage := offsets x 1 fun i => .ask fun s =>
  let orig := peek 1 i s.out_buf
  .each (fun v : UInt8 => if int8_fresh orig v then
      (tweak (poke 1 i v.toNat)).andThen ((common_fuzz_stuff x).andThen (tweak (poke 1 i orig))) else .skip)
    interesting_8

/-- A part of the stages may be skipped. -/
def skip_if (c : Prop) [Decidable c] (stage : Stage) : Stage := if c then .skip else stage

/-- The stages up to "interest 8/8". -/
def bytes_stages : Stage :=
  (flip1 x).andThen ((flip2 x).andThen ((flip4 x).andThen ((Trial.modify (eff_setup x)).andThen ((flip8 x).andThen
    ((Trial.modify (eff_fill x)).andThen
      ((skip_if (x.len < 2) ((flip16 x).andThen (skip_if (x.len < 4) (flip32 x)))).andThen
        ((skip_if x.no_arith ((arith8 x).andThen
          (skip_if (x.len < 2) ((arith16 x).andThen (skip_if (x.len < 4) (arith32 x)))))).andThen (int8 x))))))))

/-! ### Flipping bits and bytes -/

/-- What the flips of `k` bits from `b` on do to the byte at `p`. -/
def mask : ℕ → ℕ → ℕ → UInt8
  | 0, _, _ => 0
  | k + 1, b, p => mask k b p ^^^ (if (b + k) / 8 = p then 128 >>> UInt8.ofNat ((b + k) % 8) else 0)

theorem getElem?_FLIP_BITS (k b p : ℕ) (buf : List UInt8) :
    (FLIP_BITS k b buf)[p]? = buf[p]?.map fun v => v ^^^ mask k b p := by
  induction k with
  | zero =>
    cases hget : buf[p]? with
    | none => exact hget
    | some v =>
      show buf[p]? = some (v ^^^ 0)
      rw [hget, UInt8.xor_zero]
  | succ k ih =>
    have hstep : FLIP_BITS (k + 1) b buf = FLIP_BIT (b + k) (FLIP_BITS k b buf) := by
      rw [FLIP_BITS, List.range_succ, List.foldl_append]
      rfl
    rw [hstep, FLIP_BIT, List.getElem?_modify, ih]
    cases buf[p]? with
    | none => rfl
    | some v =>
      show some _ = some _
      dsimp only
      rw [mask, ← UInt8.xor_assoc]
      split
      · rfl
      · rw [UInt8.xor_zero]

/-- Bytes before are not changed. -/
theorem mask_before {k b p : ℕ} (h : p < b / 8) : mask k b p = 0 := by
  induction k with
  | zero => rfl
  | succ k ih =>
    rw [mask, ih, if_neg (by omega)]
    rfl

/-- Bytes after are not changed. -/
theorem mask_after {k b p : ℕ} (h : b + k ≤ 8 * p) : mask k b p = 0 := by
  induction k with
  | zero => rfl
  | succ k ih =>
    rw [mask, ih (by omega), if_neg (by omega)]
    rfl

theorem length_FLIP_BITS (k b : ℕ) (buf : List UInt8) : (FLIP_BITS k b buf).length = buf.length := by
  induction k with
  | zero => rfl
  | succ k ih =>
    have hstep : FLIP_BITS (k + 1) b buf = FLIP_BIT (b + k) (FLIP_BITS k b buf) := by
      rw [FLIP_BITS, List.range_succ, List.foldl_append]
      rfl
    rw [hstep, FLIP_BIT, List.length_modify, ih]

theorem FLIP_BITS_twice (k b : ℕ) (buf : List UInt8) : FLIP_BITS k b (FLIP_BITS k b buf) = buf := by
  refine List.ext_getElem? fun p => ?_
  rw [getElem?_FLIP_BITS, getElem?_FLIP_BITS]
  cases buf[p]? with
  | none => rfl
  | some v =>
    show some (v ^^^ mask k b p ^^^ mask k b p) = some v
    rw [UInt8.xor_assoc, UInt8.xor_self, UInt8.xor_zero]

theorem getElem?_invert (j q : ℕ) (buf : List UInt8) :
    (invert j buf)[q]? = buf[q]?.map fun u => if j = q then u ^^^ 255 else u := by
  rw [invert, List.getElem?_modify]
  rfl

theorem invert_twice (i : ℕ) (buf : List UInt8) : invert i (invert i buf) = buf := by
  refine List.ext_getElem? fun p => ?_
  rw [invert, invert, List.getElem?_modify, List.getElem?_modify]
  cases buf[p]? with
  | none => rfl
  | some v =>
    show some _ = some v
    dsimp only
    split
    · rw [UInt8.xor_assoc, UInt8.xor_self, UInt8.xor_zero]
    · rfl

/-! ### What the stages try -/

/-- What the walking bits try. -/
def bits_tried (k : ℕ) (in_buf : List UInt8) : List (List UInt8) :=
  (List.range (8 * in_buf.length - (k - 1))).map fun b => FLIP_BITS k b in_buf

/-- What is tried at the offsets of words of `w` bytes that are not skipped: the words `vs i orig`. -/
def words_tried (w : ℕ) (s : Det) (vs : ℕ → List ℕ) : List (List UInt8) :=
  (List.range (s.out_buf.length - (w - 1))).flatMap fun i =>
    if effective w i s then (vs (peek w i s.out_buf)).map fun v => poke w i v s.out_buf else []

/-- The words that are tried of a list. -/
def chosen (vs : List (ℕ × Bool)) : List ℕ := (vs.filter Prod.snd).map Prod.fst

/-- Inverted words. -/
def flip_tried (w orig : ℕ) : List ℕ := [orig ^^^ (256 ^ w - 1)]

/-- Sums and differences. -/
def arith_tried (values : ℕ → ℕ → List (ℕ × Bool)) (orig : ℕ) : List ℕ :=
  (List.range ARITH_MAX).flatMap fun j => chosen (values orig (j + 1))

/-- Interesting bytes. -/
def int8_tried (orig : ℕ) : List ℕ := (interesting_8.filter (int8_fresh orig)).map UInt8.toNat

/-- The effector map and its counter after `i` bytes were flipped; `n` is the number of executions before. -/
def marked (n : ℕ) (s : Det) : ℕ → Det
  | 0 => s
  | i + 1 => eff_mark x i (n + i + 1) (marked n s i)

/-- The effector map, when it is finished. -/
def eff_done (n : ℕ) (s : Det) : Det := eff_fill x (marked x n (eff_setup x s) x.len)

/-- The walking bits. -/
def all_bits (in_buf : List UInt8) : List (List UInt8) :=
  bits_tried 1 in_buf ++ (bits_tried 2 in_buf ++ bits_tried 4 in_buf)

/-- Inverted words of two and four bytes. -/
def all_flips (s : Det) : List (List UInt8) :=
  if x.len < 2 then [] else words_tried 2 s (flip_tried 2) ++ if x.len < 4 then [] else words_tried 4 s (flip_tried 4)

/-- Sums and differences. -/
def all_sums (s : Det) : List (List UInt8) :=
  if x.no_arith then []
  else words_tried 1 s (arith_tried arith8_values) ++
    if x.len < 2 then []
    else words_tried 2 s (arith_tried (arith_values 2 1)) ++
      if x.len < 4 then [] else words_tried 4 s (arith_tried (arith_values 4 2))

/-- All that is tried up to "interest 8/8", after `n` executions. -/
def bytes_tried (n : ℕ) (s : Det) : List (List UInt8) :=
  let done := eff_done x (n + (all_bits s.out_buf).length) s
  all_bits s.out_buf ++ (((List.range x.len).map fun i => invert i s.out_buf) ++
    (all_flips x done ++ (all_sums x done ++ words_tried 1 done int8_tried)))

variable {x} {s : Det} {tried : List (List UInt8)}

theorem tweak_does {f : List UInt8 → List UInt8} : Does (tweak f) ⟨s, tried⟩ ⟨{ s with out_buf := f s.out_buf }, tried⟩ :=
  .modify

/-- A change of the buffer whose result is known. -/
theorem tweak_to {f : List UInt8 → List UInt8} {out_buf out_buf' : List UInt8} (h : f out_buf = out_buf') :
    Does (tweak f) ⟨{ s with out_buf := out_buf }, tried⟩ ⟨{ s with out_buf := out_buf' }, tried⟩ := by
  subst h
  exact tweak_does

/-- A change, an attempt, and the change is undone. -/
theorem there_and_back {f g : List UInt8 → List UInt8} (h : g (f s.out_buf) = s.out_buf) :
    Does ((tweak f).andThen ((common_fuzz_stuff x).andThen (tweak g))) ⟨s, tried⟩ ⟨s, tried ++ [f s.out_buf]⟩ :=
  tweak_does.andThen (Does.attempt.andThen (tweak_to h))

/-- **Walking bits.** -/
theorem walk_does (k : ℕ) (hlen : s.out_buf.length = x.len) :
    Does (walk x k) ⟨s, tried⟩ ⟨s, tried ++ bits_tried k s.out_buf⟩ := by
  rw [bits_tried, List.map_eq_flatMap, hlen]
  exact .upTo_restores fun b _ _ => there_and_back (FLIP_BITS_twice k b s.out_buf)

theorem eff_mark_out_buf (i n : ℕ) (s : Det) (out_buf : List UInt8) :
    eff_mark x i n { s with out_buf := out_buf } = { eff_mark x i n s with out_buf := out_buf } := by
  rw [eff_mark, eff_mark]
  split
  · split <;> rfl
  · rfl

theorem marked_out_buf (n i : ℕ) : (marked x n s i).out_buf = s.out_buf := by
  induction i with
  | zero => rfl
  | succ i ih =>
    rw [marked, eff_mark]
    split
    · split
      · exact ih
      · exact ih
    · exact ih

/-- One byte is inverted and back, and what is learned from it is in the effector map. -/
theorem flip8_step {n i : ℕ} (hcount : tried.length = n + i) :
    Does ((tweak (invert i)).andThen
        ((common_fuzz_stuff x).andThen ((Trial.observe (eff_mark x i)).andThen (tweak (invert i)))))
      ⟨marked x n s i, tried⟩ ⟨marked x n s (i + 1), tried ++ [invert i s.out_buf]⟩ := by
  have hflip : Does (tweak (invert i)) ⟨marked x n s i, tried⟩
      ⟨{ marked x n s i with out_buf := invert i s.out_buf }, tried⟩ := tweak_to (by rw [marked_out_buf])
  have hmark : Does (Trial.observe (eff_mark x i))
      ⟨{ marked x n s i with out_buf := invert i s.out_buf }, tried ++ [invert i s.out_buf]⟩
      ⟨{ marked x n s (i + 1) with out_buf := invert i s.out_buf }, tried ++ [invert i s.out_buf]⟩ := by
    have hlen : (tried ++ [invert i s.out_buf]).length = n + i + 1 := by
      rw [List.length_append, List.length_singleton, hcount]
    rw [marked, ← eff_mark_out_buf, ← hlen]
    exact .observe
  have hback : invert i (invert i s.out_buf) = (marked x n s (i + 1)).out_buf := by
    rw [invert_twice, marked_out_buf]
  exact hflip.andThen (Does.attempt.andThen (hmark.andThen (tweak_to hback)))

/-- **Walking bytes**, and what is learned from them. -/
theorem flip8_does (tried : List (List UInt8)) : Does (flip8 x) ⟨s, tried⟩
    ⟨marked x tried.length s x.len, tried ++ (List.range x.len).map fun i => invert i s.out_buf⟩ := by
  have hall : Does (flip8 x)
      ⟨marked x tried.length s 0, tried ++ (List.range 0).map fun i => invert i s.out_buf⟩
      ⟨marked x tried.length s x.len, tried ++ (List.range x.len).map fun i => invert i s.out_buf⟩ := by
    refine Does.upTo
      (a := fun i => ⟨marked x tried.length s i, tried ++ (List.range i).map fun i => invert i s.out_buf⟩) fun i _ => ?_
    rw [List.range_succ, List.map_append, List.map_singleton, ← List.append_assoc]
    exact flip8_step (by rw [List.length_append, List.length_map, List.length_range])
  rwa [List.range_zero, List.map_nil, List.append_nil] at hall

/-- **Offsets**, some of which are skipped. -/
theorem offsets_does {w : ℕ} {body : ℕ → Stage} {vs : ℕ → List ℕ} (hw : 0 < w) (hlen : s.out_buf.length = x.len)
    (h : ∀ i, i + w ≤ s.out_buf.length → ∀ tried, Does (body i) ⟨s, tried⟩
      ⟨s, tried ++ (vs (peek w i s.out_buf)).map fun v => poke w i v s.out_buf⟩) :
    Does (offsets x w body) ⟨s, tried⟩ ⟨s, tried ++ words_tried w s vs⟩ := by
  rw [words_tried, hlen]
  refine .upTo_restores fun i hi tried => .ask ?_
  dsimp only
  split
  · exact h i (by omega) tried
  · rw [List.append_nil]
    exact .skip

/-- **Words at an offset**; the last one that was tried is left there. -/
theorem attempts_does {w i : ℕ} (tried : List (List UInt8)) (h : i + w ≤ s.out_buf.length) (vs : List (ℕ × Bool)) (u : ℕ) :
    ∃ u', Does (attempts x w i vs) ⟨{ s with out_buf := poke w i u s.out_buf }, tried⟩
      ⟨{ s with out_buf := poke w i u' s.out_buf }, tried ++ (chosen vs).map fun v => poke w i v s.out_buf⟩ := by
  have hall : ∃ u', Does (attempts x w i vs) ⟨{ s with out_buf := poke w i u s.out_buf }, tried⟩
      ⟨{ s with out_buf := poke w i u' s.out_buf },
        tried ++ vs.flatMap fun v => if v.2 then [poke w i v.1 s.out_buf] else []⟩ := by
    refine Does.each_moves (f := fun u => { s with out_buf := poke w i u s.out_buf }) (fun v _ u tried => ?_) u
    cases v.2 with
    | false =>
      rw [if_neg Bool.false_ne_true, if_neg Bool.false_ne_true, List.append_nil]
      exact ⟨u, .skip⟩
    | true =>
      rw [if_pos rfl, if_pos rfl]
      exact ⟨v.1, (tweak_to (poke_poke h)).andThen .attempt⟩
  rw [flatMap_if] at hall
  rwa [chosen, List.map_map]

/-- Then the word is restored. -/
theorem attempts_restore {w i : ℕ} (h : i + w ≤ s.out_buf.length) (vs : List (ℕ × Bool)) :
    Does ((attempts x w i vs).andThen (tweak (poke w i (peek w i s.out_buf)))) ⟨s, tried⟩
      ⟨s, tried ++ (chosen vs).map fun v => poke w i v s.out_buf⟩ := by
  obtain ⟨u, hvs⟩ := attempts_does tried h vs (peek w i s.out_buf)
  rw [poke_peek h] at hvs
  have hback : poke w i (peek w i s.out_buf) (poke w i u s.out_buf) = s.out_buf := by
    rw [poke_poke h, poke_peek h]
  exact hvs.andThen (tweak_to hback)

/-- **Inverted words.** -/
theorem flip_words_does {w : ℕ} (hw : 0 < w) (hlen : s.out_buf.length = x.len) :
    Does (flip_words x w) ⟨s, tried⟩ ⟨s, tried ++ words_tried w s (flip_tried w)⟩ := by
  refine offsets_does hw hlen fun i hi tried => there_and_back ?_
  have hxor : peek w i s.out_buf ^^^ (256 ^ w - 1) < 256 ^ w :=
    xor_lt (peek_lt hi) (Nat.sub_lt (Nat.pow_pos (by decide)) Nat.one_pos)
  rw [poke_poke hi, peek_poke hi, Nat.mod_eq_of_lt hxor, Nat.xor_assoc, Nat.xor_self, Nat.xor_zero, poke_peek hi]

/-- Sums and differences at one offset. -/
theorem arith_does {w i : ℕ} (hi : i + w ≤ s.out_buf.length) (values : ℕ → ℕ → List (ℕ × Bool)) :
    Does (.upTo ARITH_MAX fun j =>
        (attempts x w i (values (peek w i s.out_buf) (j + 1))).andThen (tweak (poke w i (peek w i s.out_buf))))
      ⟨s, tried⟩ ⟨s, tried ++ (arith_tried values (peek w i s.out_buf)).map fun v => poke w i v s.out_buf⟩ := by
  rw [arith_tried, List.map_flatMap]
  exact .upTo_restores fun _ _ _ => attempts_restore hi _

/-- **Sums and differences of words.** -/
theorem arith_words_does {w : ℕ} (h : ℕ) (hw : 0 < w) (hlen : s.out_buf.length = x.len) :
    Does (arith_words x w h) ⟨s, tried⟩ ⟨s, tried ++ words_tried w s (arith_tried (arith_values w h))⟩ :=
  offsets_does hw hlen fun _ hi _ => .ask (arith_does hi _)

/-- **Sums and differences of bytes.** -/
theorem arith8_does (hlen : s.out_buf.length = x.len) :
    Does (arith8 x) ⟨s, tried⟩ ⟨s, tried ++ words_tried 1 s (arith_tried arith8_values)⟩ :=
  offsets_does Nat.one_pos hlen fun _ hi _ => .ask (arith_does hi _)

/-- **Interesting bytes.** -/
theorem int8_does (hlen : s.out_buf.length = x.len) :
    Does (int8 x) ⟨s, tried⟩ ⟨s, tried ++ words_tried 1 s int8_tried⟩ := by
  refine offsets_does Nat.one_pos hlen fun i hi tried => .ask ?_
  rw [int8_tried, List.map_map, ← flatMap_if]
  refine .each_restores fun v _ tried => ?_
  dsimp only
  split
  · have hback : poke 1 i (peek 1 i s.out_buf) (poke 1 i v.toNat s.out_buf) = s.out_buf := by
      rw [poke_poke hi, poke_peek hi]
    exact there_and_back hback
  · rw [List.append_nil]
    exact .skip

/-- A part that may be skipped. -/
theorem skip_if_does {c : Prop} [Decidable c] {stage : Stage} {more : List (List UInt8)}
    (h : Does stage ⟨s, tried⟩ ⟨s, tried ++ more⟩) :
    Does (skip_if c stage) ⟨s, tried⟩ ⟨s, tried ++ (if c then [] else more)⟩ := by
  rw [skip_if]
  split
  · rw [List.append_nil]
    exact .skip
  · exact h

theorem eff_setup_out_buf : (eff_setup x s).out_buf = s.out_buf := by
  rw [eff_setup]
  split <;> rfl

theorem eff_done_out_buf (n : ℕ) : (eff_done x n s).out_buf = s.out_buf := by
  have hmarked := marked_out_buf (x := x) (s := eff_setup x s) n x.len
  rw [eff_done, eff_fill]
  split
  · exact hmarked.trans eff_setup_out_buf
  · exact hmarked.trans eff_setup_out_buf

/-- **The stages up to "interest 8/8"**: what is tried, in order; the buffer is as before. -/
theorem bytes_does (tried : List (List UInt8)) (hlen : s.out_buf.length = x.len) :
    Does (bytes_stages x) ⟨s, tried⟩
      ⟨eff_done x (tried.length + (all_bits s.out_buf).length) s, tried ++ bytes_tried x tried.length s⟩ := by
  have hready : ∀ n, (eff_done x n s).out_buf.length = x.len := fun n => by rw [eff_done_out_buf, hlen]
  have hcount : tried.length + (all_bits s.out_buf).length =
      (tried ++ bits_tried 1 s.out_buf ++ bits_tried 2 s.out_buf ++ bits_tried 4 s.out_buf).length := by
    simp only [all_bits, List.length_append, Nat.add_assoc]
  have hflip8 := flip8_does (x := x) (s := eff_setup x s)
    (tried ++ bits_tried 1 s.out_buf ++ bits_tried 2 s.out_buf ++ bits_tried 4 s.out_buf)
  rw [eff_setup_out_buf, ← hcount] at hflip8
  rw [bytes_tried]
  generalize hdone : eff_done x (tried.length + (all_bits s.out_buf).length) s = done
  have hout : done.out_buf.length = x.len := hdone ▸ hready _
  rw [all_bits]
  simp only [← List.append_assoc]
  refine (walk_does 1 hlen).andThen ((walk_does 2 hlen).andThen ((walk_does 4 hlen).andThen (Does.modify.andThen
    (hflip8.andThen (Does.modify.andThen ?_)))))
  have hfilled : eff_fill x (marked x (tried.length + (all_bits s.out_buf).length) (eff_setup x s) x.len) = done := hdone
  rw [hfilled, all_flips, all_sums]
  refine (skip_if_does ?_).andThen ((skip_if_does ?_).andThen (int8_does hout))
  · rw [← List.append_assoc]
    exact (flip_words_does Nat.two_pos hout).andThen (skip_if_does (flip_words_does (Nat.succ_pos 3) hout))
  · rw [← List.append_assoc]
    refine (arith8_does hout).andThen (skip_if_does ?_)
    rw [← List.append_assoc]
    exact (arith_words_does 1 Nat.two_pos hout).andThen (skip_if_does (arith_words_does 2 (Nat.succ_pos 3) hout))

/-! ### The effector map -/

/-- Blocks that are flagged for their own sake, `i` bytes being flipped. -/
def Marked (x : Setting) (n i k : ℕ) : Prop :=
  k = 0 ∨ k = EFF_APOS (x.len - 1) ∨ ∃ j < i, EFF_APOS j = k ∧ effect x (n + j + 1) = true

instance (n i k : ℕ) : Decidable (Marked x n i k) := by
  unfold Marked
  infer_instance

/-- The positions of the map are in it. -/
theorem EFF_APOS_lt {p l : ℕ} (h : p < l) : EFF_APOS p < EFF_ALEN l := by
  have hdiv : p / 8 < l / 8 + (if l % 8 ≠ 0 then 1 else 0) := by
    by_cases hrem : l % 8 ≠ 0
    · rw [if_pos hrem]
      omega
    · rw [if_neg hrem]
      omega
  exact hdiv

/-- One more block is flagged. -/
theorem countP_update {f : ℕ → Bool} {k n : ℕ} (hk : k < n) (hf : f k = false) :
    (List.range n).countP (Function.update f k true) = (List.range n).countP f + 1 := by
  induction n with
  | zero => exact absurd hk (Nat.not_lt_zero k)
  | succ n ih =>
    rw [List.range_succ, List.countP_append, List.countP_append, List.countP_singleton, List.countP_singleton]
    by_cases hkn : k = n
    · subst hkn
      have hsame : (List.range k).countP (Function.update f k true) = (List.range k).countP f := by
        refine List.countP_congr fun i hi => ?_
        rw [Function.update_of_ne (Nat.ne_of_lt (List.mem_range.mp hi))]
      rw [hsame, Function.update_self, hf, if_pos rfl, if_neg Bool.false_ne_true]
    · rw [ih (by omega), Function.update_of_ne (Ne.symm hkn)]
      omega

/-- The map and its counter, while it is made. -/
structure Counted (x : Setting) (n i : ℕ) (s : Det) : Prop where
  /-- The map. -/
  flagged : ∀ k, s.eff_map k = true ↔ Marked x n i k
  /-- The counter. -/
  eff_cnt : s.eff_cnt = (List.range (EFF_ALEN x.len)).countP s.eff_map

theorem counted_setup (n : ℕ) (hs : s.eff_cnt = 1) (hlen : 0 < x.len) : Counted x n 0 (eff_setup x s) := by
  have hzero : 0 < EFF_ALEN x.len := Nat.lt_of_le_of_lt (Nat.zero_le _) (EFF_APOS_lt hlen)
  have hlast : EFF_APOS (x.len - 1) < EFF_ALEN x.len := EFF_APOS_lt (by omega)
  have hone : (List.range (EFF_ALEN x.len)).countP (Function.update (fun _ => false) 0 true) = 1 := by
    rw [countP_update hzero rfl, List.countP_eq_zero.mpr fun _ _ => Bool.false_ne_true]
  rw [eff_setup]
  split
  · next hne =>
    refine ⟨fun k => ?_, ?_⟩
    · simp only [Marked, Function.update_apply, Nat.not_lt_zero, false_and, exists_false, or_false]
      split
      · simp_all
      · split <;> simp_all
    · dsimp only
      rw [countP_update hlast (by rw [Function.update_of_ne hne]), hone, hs]
  · next heq =>
    refine ⟨fun k => ?_, ?_⟩
    · simp only [Marked, Function.update_apply, Nat.not_lt_zero, false_and, exists_false, or_false]
      split <;> simp_all
    · exact hs.trans hone.symm

/-- **One byte.** -/
theorem Counted.mark {n i : ℕ} (h : Counted x n i s) (hi : i < x.len) :
    Counted x n (i + 1) (eff_mark x i (n + i + 1) s) := by
  have hmore : ∀ k, Marked x n (i + 1) k ↔ Marked x n i k ∨ EFF_APOS i = k ∧ effect x (n + i + 1) = true := by
    intro k
    rw [Marked, Marked, or_assoc, or_assoc]
    refine or_congr_right (or_congr_right ⟨?_, ?_⟩)
    · rintro ⟨j, hj, hapos, heffect⟩
      rcases Nat.lt_succ_iff_lt_or_eq.mp hj with hj | rfl
      · exact .inl ⟨j, hj, hapos, heffect⟩
      · exact .inr ⟨hapos, heffect⟩
    · rintro (⟨j, hj, hapos, heffect⟩ | ⟨hapos, heffect⟩)
      · exact ⟨j, Nat.lt_succ_of_lt hj, hapos, heffect⟩
      · exact ⟨i, Nat.lt_succ_self i, hapos, heffect⟩
  rw [eff_mark]
  split
  · next hnot =>
    have hfalse : s.eff_map (EFF_APOS i) = false := by simpa using hnot
    split
    · next heffect =>
      refine ⟨fun k => ?_, ?_⟩
      · rw [hmore, ← h.flagged]
        by_cases hk : k = EFF_APOS i
        · subst hk
          simp [heffect]
        · show Function.update s.eff_map (EFF_APOS i) true k = true ↔ _
          rw [Function.update_of_ne hk]
          exact (or_iff_left fun hc => hk hc.1.symm).symm
      · dsimp only
        rw [countP_update (EFF_APOS_lt hi) hfalse, h.eff_cnt]
    · next hno =>
      refine ⟨fun k => ?_, h.eff_cnt⟩
      rw [hmore, h.flagged]
      exact (or_iff_left fun hc => hno hc.2).symm
  · next hyes =>
    refine ⟨fun k => ?_, h.eff_cnt⟩
    rw [hmore, h.flagged]
    refine (or_iff_left_of_imp fun hc => ?_).symm
    rw [← h.flagged, ← hc.1]
    simpa using hyes

theorem Counted.all {n : ℕ} (h : Counted x n 0 s) {i : ℕ} (hi : i ≤ x.len) : Counted x n i (marked x n s i) := by
  induction i with
  | zero => exact h
  | succ i ih => exact (ih (by omega)).mark (by omega)

/-- **The effector map**: the first and the last block are flagged, and those with a byte that had an effect; if these
are most blocks, then all are. -/
theorem eff_map_iff (n : ℕ) (hs : s.eff_cnt = 1) (hlen : 0 < x.len) (k : ℕ) :
    (eff_done x n s).eff_map k = true ↔
      Marked x n x.len k ∨ k < EFF_ALEN x.len ∧
        EFF_MAX_PERC < (List.range (EFF_ALEN x.len)).countP (fun k => Marked x n x.len k) * 100 / EFF_ALEN x.len := by
  have hcounted := (counted_setup n hs hlen).all (Nat.le_refl x.len)
  have hcount : (List.range (EFF_ALEN x.len)).countP (fun k => Marked x n x.len k) =
      (marked x n (eff_setup x s) x.len).eff_cnt := by
    rw [hcounted.eff_cnt]
    refine List.countP_congr fun i _ => ?_
    rw [decide_eq_true_iff, hcounted.flagged]
  rw [hcount, eff_done, eff_fill]
  split
  · next hdense =>
    show (if k < EFF_ALEN x.len then true else (marked x n (eff_setup x s) x.len).eff_map k) = true ↔ _
    rw [← hcounted.flagged]
    split
    · next hk => exact ⟨fun _ => .inr ⟨hk, hdense.2⟩, fun _ => rfl⟩
    · next hk => exact (or_iff_left fun hc => hk hc.1).symm
  · next hsparse =>
    rw [← hcounted.flagged]
    refine (or_iff_left_of_imp fun hc => ?_).symm
    -- If most blocks are flagged, but the map is not filled, then all of them are flagged.
    have hall : (marked x n (eff_setup x s) x.len).eff_cnt = EFF_ALEN x.len := by
      by_contra hne
      exact hsparse ⟨hne, hc.2⟩
    rw [hcounted.eff_cnt] at hall
    have hlength := hall.trans List.length_range.symm
    exact List.countP_eq_length.mp hlength k (List.mem_range.mpr hc.1)

end SEDiff.Afl.Deterministic
