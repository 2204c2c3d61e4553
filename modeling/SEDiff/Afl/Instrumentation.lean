import Mathlib.Data.Nat.Bitwise
import SEDiff.Afl.NewMetric

/-!
# The instrumented target

What `afl-llvm-pass.so.cc` puts into each basic block, and the pointers of `afl-llvm-rt.o.c` it goes through. Memory
is bytes; a 32-bit counter is four of them, low byte first.

## What is proved

* `load32_store32`, `load32_store32_of_disjoint` — words of bytes.
* `Runtime.index_lt` — the index of a block is below `MAP_SIZE`.
* `Runtime.hybrid_bits_block`, `Runtime.trace_bits_block` — what a block does to the two shared maps.
-/

namespace SEDiff.Afl

/-! ### Words -/

/-- The word at `a`. -/
def load32 (m : ℕ → UInt8) (a : ℕ) : UInt32 :=
  UInt32.ofNat ((m a).toNat + 2 ^ 8 * (m (a + 1)).toNat + 2 ^ 16 * (m (a + 2)).toNat + 2 ^ 24 * (m (a + 3)).toNat)

/-- The word at `a` becomes `x`. -/
def store32 (m : ℕ → UInt8) (a : ℕ) (x : UInt32) : ℕ → UInt8 := fun b =>
  if a ≤ b ∧ b < a + 4 then byteOf x (b - a) else m b

/-- What is read is what was written. -/
theorem load32_store32 (m : ℕ → UInt8) (a : ℕ) (x : UInt32) : load32 (store32 m a x) a = x := by
  have hbyte (j : ℕ) (hj : j < 4) : store32 m a x (a + j) = byteOf x j := by
    rw [store32, if_pos (by omega), Nat.add_sub_cancel_left]
  have h0 := hbyte 0 (by omega)
  rw [Nat.add_zero] at h0
  rw [load32, h0, hbyte 1 (by omega), hbyte 2 (by omega), hbyte 3 (by omega), byteOf_toNat x (by omega),
    byteOf_toNat x (by omega), byteOf_toNat x (by omega), byteOf_toNat x (by omega)]
  have hlt := x.toNat_lt
  apply UInt32.toNat_inj.mp
  rw [UInt32.toNat_ofNat']
  omega

/-- Other bytes stay. -/
theorem store32_of_disjoint (m : ℕ → UInt8) {a b : ℕ} (x : UInt32) (h : b < a ∨ a + 4 ≤ b) : store32 m a x b = m b :=
  if_neg (by omega)

theorem load32_congr {m m' : ℕ → UInt8} {a : ℕ} (h : ∀ b, a ≤ b → b < a + 4 → m b = m' b) : load32 m a = load32 m' a := by
  rw [load32, load32, h a (by omega) (by omega), h (a + 1) (by omega) (by omega), h (a + 2) (by omega) (by omega),
    h (a + 3) (by omega) (by omega)]

/-- Other words stay. -/
theorem load32_store32_of_disjoint (m : ℕ → UInt8) {a b : ℕ} (x : UInt32) (h : b + 4 ≤ a ∨ a + 4 ≤ b) :
    load32 (store32 m a x) b = load32 m b :=
  load32_congr fun c h1 h2 => store32_of_disjoint m x (by omega)

/-! ### Blocks -/

/-- A basic block, with what the pass chose for it. -/
structure Block where
  /-- `cur_loc`. -/
  cur_loc : UInt32
  /-- `AFL_R(MAP_SIZE)` is below `MAP_SIZE`. -/
  cur_loc_lt : cur_loc.toNat < MAP_SIZE
  /-- `checkFavorBB`. -/
  favored : Bool
  /-- `AFL_R(100) < inst_ratio`: the block sets `prev_loc`. -/
  instrumented : Bool

/-- The objects that the counters lie in. -/
inductive Object
  /-- The shared segment. -/
  | segment
  /-- `__afl_area_initial`. -/
  | area_initial
  /-- `__afl_hybrid_initial`. -/
  | hybrid_initial
  deriving DecidableEq, Repr

/-- A pointer. -/
@[ext] structure Pointer where
  /-- The object pointed into. -/
  object : Object
  /-- The byte pointed at. -/
  offset : ℕ
  deriving DecidableEq, Repr

/-- The state of the target's runtime. -/
structure Runtime where
  /-- The bytes of each object. -/
  memory : Object → ℕ → UInt8
  /-- `__afl_area_ptr`. -/
  area_ptr : Pointer
  /-- `__afl_hybrid_ptr`. -/
  hybrid_ptr : Pointer
  /-- `__afl_prev_loc`. -/
  prev_loc : UInt32

/-- The size `setup_shm` asks for. -/
def shm_size : ℕ := MAP_SIZE + MAP_SIZE * 4

namespace Runtime

/-- The process before `__afl_map_shm`, with these bytes in memory. -/
def start (memory : Object → ℕ → UInt8) : Runtime := ⟨memory, ⟨.area_initial, 0⟩, ⟨.hybrid_initial, 0⟩, 0⟩

/-- A byte is written. -/
def write (t : Runtime) (p : Pointer) (x : UInt8) : Runtime :=
  { t with memory := Function.update t.memory p.object (Function.update (t.memory p.object) p.offset x) }

/-- `__afl_map_shm`, under the fuzzer. -/
def map_shm (t : Runtime) : Runtime :=
  { { t with area_ptr := ⟨.segment, 0⟩ }.write ⟨.segment, 0⟩ 1 with hybrid_ptr := ⟨.segment, MAP_SIZE⟩ }

/-- `prev_loc ^ cur_loc`. -/
def index (t : Runtime) (b : Block) : ℕ := (t.prev_loc ^^^ b.cur_loc).toNat

/-- "Update bitmap". -/
def update_bitmap (t : Runtime) (i : ℕ) : Runtime :=
  t.write ⟨t.area_ptr.object, t.area_ptr.offset + i⟩ (t.memory t.area_ptr.object (t.area_ptr.offset + i) + 1)

/-- "do instrumentation; update the hybrid". -/
def update_hybrid (t : Runtime) (i : ℕ) : Runtime :=
  { t with
    memory := Function.update t.memory t.hybrid_ptr.object
      (store32 (t.memory t.hybrid_ptr.object) (t.hybrid_ptr.offset + 4 * i)
        (load32 (t.memory t.hybrid_ptr.object) (t.hybrid_ptr.offset + 4 * i) + 1)) }

/-- What the pass puts into a block. -/
def block (t : Runtime) (b : Block) : Runtime :=
  let i := t.index b
  let t := t.update_bitmap i
  let t := if b.favored then t.update_hybrid i else t
  if b.instrumented then { t with prev_loc := b.cur_loc >>> 1 } else t

/-- `trace_bits[e]` of the fuzzer. -/
def trace_bits (t : Runtime) (e : ℕ) : UInt8 := t.memory .segment e

/-- `hybrid_bits[e]` of the fuzzer, where `hybrid_bits = (u32 *)(trace_bits + MAP_SIZE)`. -/
def hybrid_bits (t : Runtime) (e : ℕ) : UInt32 := load32 (t.memory .segment) (MAP_SIZE + 4 * e)

/-! ### Locations -/

/-- A location is below `MAP_SIZE`. -/
def Bounded (t : Runtime) : Prop := t.prev_loc.toNat < MAP_SIZE

theorem xor_lt {x y : UInt32} (hx : x.toNat < MAP_SIZE) (hy : y.toNat < MAP_SIZE) : (x ^^^ y).toNat < MAP_SIZE := by
  rw [UInt32.toNat_xor]
  unfold MAP_SIZE at *
  exact Nat.xor_lt_two_pow hx hy

/-- **The index of a block** is below `MAP_SIZE`. -/
theorem index_lt {t : Runtime} (ht : t.Bounded) (b : Block) : t.index b < MAP_SIZE := xor_lt ht b.cur_loc_lt

@[simp] theorem block_prev_loc (t : Runtime) (b : Block) :
    (t.block b).prev_loc = if b.instrumented then b.cur_loc >>> 1 else t.prev_loc := by
  rw [block]
  split_ifs <;> rfl

@[simp] theorem block_area_ptr (t : Runtime) (b : Block) : (t.block b).area_ptr = t.area_ptr := by
  rw [block]
  split_ifs <;> rfl

@[simp] theorem block_hybrid_ptr (t : Runtime) (b : Block) : (t.block b).hybrid_ptr = t.hybrid_ptr := by
  rw [block]
  split_ifs <;> rfl

/-- The next location is bounded, too. -/
theorem block_bounded {t : Runtime} (ht : t.Bounded) (b : Block) : (t.block b).Bounded := by
  rw [Bounded, block_prev_loc]
  split_ifs
  · have hle : (b.cur_loc >>> 1).toNat ≤ b.cur_loc.toNat := by
      rw [UInt32.toNat_shiftRight, Nat.shiftRight_eq_div_pow]
      exact Nat.div_le_self _ _
    exact lt_of_le_of_lt hle b.cur_loc_lt
  · exact ht

/-! ### The two maps -/

/-- The area is the shared one, or not in the segment at all. -/
def AreaOk (t : Runtime) : Prop := t.area_ptr = ⟨.segment, 0⟩ ∨ t.area_ptr.object ≠ .segment

/-- Both maps are shared, one after the other. -/
structure Shared (t : Runtime) : Prop where
  /-- The trace map. -/
  area : t.area_ptr = ⟨.segment, 0⟩
  /-- The hybrid map. -/
  hybrid : t.hybrid_ptr = ⟨.segment, MAP_SIZE⟩

theorem Shared.areaOk {t : Runtime} (h : t.Shared) : t.AreaOk := .inl h.area

theorem AreaOk.block {t : Runtime} (h : t.AreaOk) (b : Block) : (t.block b).AreaOk := by
  rw [AreaOk, block_area_ptr]
  exact h

theorem Shared.block {t : Runtime} (h : t.Shared) (b : Block) : (t.block b).Shared :=
  ⟨(block_area_ptr t b).trans h.area, (block_hybrid_ptr t b).trans h.hybrid⟩

theorem update_bitmap_of_ne {t : Runtime} {i a : ℕ} {o : Object}
    (h : o ≠ t.area_ptr.object ∨ a ≠ t.area_ptr.offset + i) : (t.update_bitmap i).memory o a = t.memory o a := by
  rw [update_bitmap, write]
  dsimp only
  by_cases ho : o = t.area_ptr.object
  · subst ho
    rw [Function.update_self, Function.update_of_ne (h.resolve_left fun hne => hne rfl)]
  · rw [Function.update_of_ne ho]

theorem update_bitmap_self (t : Runtime) (i : ℕ) :
    (t.update_bitmap i).memory t.area_ptr.object (t.area_ptr.offset + i) =
      t.memory t.area_ptr.object (t.area_ptr.offset + i) + 1 := by
  rw [update_bitmap, write]
  dsimp only
  rw [Function.update_self, Function.update_self]

theorem update_hybrid_of_ne {t : Runtime} {i : ℕ} {o : Object} (h : o ≠ t.hybrid_ptr.object) :
    (t.update_hybrid i).memory o = t.memory o :=
  Function.update_of_ne h _ _

theorem update_hybrid_memory (t : Runtime) (i : ℕ) :
    (t.update_hybrid i).memory t.hybrid_ptr.object = store32 (t.memory t.hybrid_ptr.object)
      (t.hybrid_ptr.offset + 4 * i) (load32 (t.memory t.hybrid_ptr.object) (t.hybrid_ptr.offset + 4 * i) + 1) :=
  Function.update_self _ _ _

theorem block_memory (t : Runtime) (b : Block) : (t.block b).memory =
    (if b.favored then (t.update_bitmap (t.index b)).update_hybrid (t.index b)
      else t.update_bitmap (t.index b)).memory := by
  rw [block]
  by_cases hi : b.instrumented
  · rw [if_pos hi]
  · rw [if_neg hi]

/-- Trace counters do not touch the shared hybrid map. -/
theorem hybrid_bits_update_bitmap {t : Runtime} (ht : t.AreaOk) {i : ℕ} (hi : i < MAP_SIZE) (e : ℕ) :
    (t.update_bitmap i).hybrid_bits e = t.hybrid_bits e := by
  refine load32_congr fun a h1 h2 => update_bitmap_of_ne ?_
  obtain h | h := ht
  · rw [h]
    exact .inr (by dsimp only; omega)
  · exact .inl h.symm

/-- **A block counts in the shared hybrid map** when the pointer is there and the block is favored. -/
theorem hybrid_bits_block {t : Runtime} (harea : t.AreaOk) (hptr : t.hybrid_ptr = ⟨.segment, MAP_SIZE⟩)
    (ht : t.Bounded) (b : Block) (e : ℕ) :
    (t.block b).hybrid_bits e = t.hybrid_bits e + if t.index b = e ∧ b.favored then 1 else 0 := by
  have hi := index_lt ht b
  have hmap := hybrid_bits_update_bitmap harea hi
  rw [hybrid_bits, block_memory]
  by_cases hf : b.favored
  · have hptr' : (t.update_bitmap (t.index b)).hybrid_ptr = ⟨.segment, MAP_SIZE⟩ := hptr
    have hmem := update_hybrid_memory (t.update_bitmap (t.index b)) (t.index b)
    rw [hptr'] at hmem
    rw [if_pos hf, hmem]
    by_cases he : t.index b = e
    · rw [he] at hmap ⊢
      rw [load32_store32, if_pos ⟨rfl, hf⟩]
      exact congrArg (· + 1) (hmap e)
    · rw [load32_store32_of_disjoint _ _ (by dsimp only; omega), if_neg fun h => he h.1, UInt32.add_zero]
      exact hmap e
  · rw [if_neg hf, if_neg fun h => hf h.2, UInt32.add_zero]
    exact hmap e

/-- **A block counts in the shared trace map**, and the hybrid counters do not touch it. -/
theorem trace_bits_block {t : Runtime} (hs : t.Shared) (b : Block) {e : ℕ} (he : e < MAP_SIZE) :
    (t.block b).trace_bits e = t.trace_bits e + if t.index b = e then 1 else 0 := by
  have hmap : (t.update_bitmap (t.index b)).trace_bits e = t.trace_bits e + if t.index b = e then 1 else 0 := by
    by_cases hie : t.index b = e
    · have hself := update_bitmap_self t (t.index b)
      rw [hs.area, Nat.zero_add, hie] at hself
      rw [hie, if_pos rfl]
      exact hself
    · rw [if_neg hie, UInt8.add_zero]
      refine update_bitmap_of_ne (.inr ?_)
      rw [hs.area]
      dsimp only
      omega
  rw [trace_bits, block_memory]
  by_cases hf : b.favored
  · have hptr' : (t.update_bitmap (t.index b)).hybrid_ptr = ⟨.segment, MAP_SIZE⟩ := hs.hybrid
    have hmem := update_hybrid_memory (t.update_bitmap (t.index b)) (t.index b)
    rw [hptr'] at hmem
    rw [if_pos hf, hmem, store32_of_disjoint _ _ (.inl (by dsimp only; omega))]
    exact hmap
  · rw [if_neg hf]
    exact hmap

end Runtime

end SEDiff.Afl
