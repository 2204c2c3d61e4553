import SEDiff.Afl.Instrumentation

/-!
# The layout of the shared segment

`setup_shm` allocates the segment, `__afl_map_shm` sets the two pointers into it, and each block counts through
them; the fuzzer reads the counts through pointers of its own.

## What is proved

* `Runtime.block_frame` — a block writes to the bytes it counts in and to no others.
* `Runtime.counts` — over a run, each edge has its count in both maps.
* `Runtime.maps_never_collide` — all of it, for every run from the start of a process.
-/

namespace SEDiff.Afl.Runtime

/-- What a process does. -/
inductive Event
  /-- It executes a block. -/
  | block (b : Block)
  /-- `__afl_prev_loc = 0`. -/
  | reset

/-- One event. -/
def step (t : Runtime) : Event → Runtime
  | .block b => t.block b
  | .reset => { t with prev_loc := 0 }

/-- Some events. -/
def run (t : Runtime) (events : List Event) : Runtime := events.foldl step t

/-- The edges that are traversed from `prev_loc` on, and whether the block is favored. -/
def traversals : UInt32 → List Event → List (ℕ × Bool)
  | _, [] => []
  | _, .reset :: events => traversals 0 events
  | prev_loc, .block b :: events =>
    ((prev_loc ^^^ b.cur_loc).toNat, b.favored) ::
      traversals (if b.instrumented then b.cur_loc >>> 1 else prev_loc) events

/-- How often edge `e` is traversed. -/
def hits (prev_loc : UInt32) (events : List Event) (e : ℕ) : ℕ := (traversals prev_loc events).countP fun v => v.1 = e

/-- How often a favored block is entered over edge `e`. -/
def favored_hits (prev_loc : UInt32) (events : List Event) (e : ℕ) : ℕ :=
  (traversals prev_loc events).countP fun v => v.1 = e ∧ v.2

/-- The byte that a block counts the edge in. -/
def trace_access (t : Runtime) (b : Block) : Pointer := ⟨t.area_ptr.object, t.area_ptr.offset + t.index b⟩

/-- The bytes that a block counts the edge in when it is favored. -/
def hybrid_access (t : Runtime) (b : Block) : List Pointer :=
  if b.favored then (List.range 4).map fun k => ⟨t.hybrid_ptr.object, t.hybrid_ptr.offset + 4 * t.index b + k⟩ else []

/-- The bytes that the fuzzer reads `hybrid_bits[e]` from. -/
def hybrid_bytes (e : ℕ) : List Pointer := (List.range 4).map fun k => ⟨.segment, MAP_SIZE + 4 * e + k⟩

/-- **Frame**: a block writes to no other bytes. -/
theorem block_frame {t : Runtime} {b : Block} {p : Pointer} (htrace : p ≠ t.trace_access b)
    (hhybrid : p ∉ t.hybrid_access b) : (t.block b).memory p.object p.offset = t.memory p.object p.offset := by
  have hbitmap : (t.update_bitmap (t.index b)).memory p.object p.offset = t.memory p.object p.offset := by
    apply update_bitmap_of_ne
    by_contra hboth
    obtain ⟨ho, ha⟩ := not_or.mp hboth
    exact htrace (Pointer.ext (not_ne_iff.mp ho) (not_ne_iff.mp ha))
  rw [block_memory]
  by_cases hf : b.favored
  · rw [if_pos hf]
    rw [hybrid_access, if_pos hf] at hhybrid
    by_cases ho : p.object = t.hybrid_ptr.object
    · have hmem := update_hybrid_memory (t.update_bitmap (t.index b)) (t.index b)
      have hptr : (t.update_bitmap (t.index b)).hybrid_ptr = t.hybrid_ptr := rfl
      rw [hptr, ← ho] at hmem
      rw [hmem, store32_of_disjoint]
      · exact hbitmap
      · by_contra hin
        refine hhybrid (List.mem_map.mpr ⟨p.offset - (t.hybrid_ptr.offset + 4 * t.index b), ?_, ?_⟩)
        · exact List.mem_range.mpr (by omega)
        · exact Pointer.ext ho.symm (by dsimp only; omega)
    · have hother := @update_hybrid_of_ne (t.update_bitmap (t.index b)) (t.index b) p.object ho
      rw [hother]
      exact hbitmap
  · rw [if_neg hf]
    exact hbitmap

/-! ### Runs -/

theorem zero_bounded : (0 : UInt32).toNat < MAP_SIZE := by
  unfold MAP_SIZE
  decide

theorem step_bounded {t : Runtime} (ht : t.Bounded) (ev : Event) : (t.step ev).Bounded := by
  cases ev with
  | block b => exact block_bounded ht b
  | reset => exact zero_bounded

theorem step_shared {t : Runtime} (ht : t.Shared) (ev : Event) : (t.step ev).Shared := by
  cases ev with
  | block b => exact ht.block b
  | reset => exact ⟨ht.area, ht.hybrid⟩

theorem run_bounded {t : Runtime} (ht : t.Bounded) (events : List Event) : (t.run events).Bounded := by
  induction events generalizing t with
  | nil => exact ht
  | cons ev events ih => exact ih (step_bounded ht ev)

theorem run_shared {t : Runtime} (ht : t.Shared) (events : List Event) : (t.run events).Shared := by
  induction events generalizing t with
  | nil => exact ht
  | cons ev events ih => exact ih (step_shared ht ev)

theorem hits_block (prev_loc : UInt32) (b : Block) (events : List Event) (e : ℕ) :
    hits prev_loc (.block b :: events) e = (if (prev_loc ^^^ b.cur_loc).toNat = e then 1 else 0) +
      hits (if b.instrumented then b.cur_loc >>> 1 else prev_loc) events e := by
  rw [hits, traversals, List.countP_cons, Nat.add_comm, hits]
  simp only [decide_eq_true_eq]

theorem favored_hits_block (prev_loc : UInt32) (b : Block) (events : List Event) (e : ℕ) :
    favored_hits prev_loc (.block b :: events) e =
      (if (prev_loc ^^^ b.cur_loc).toNat = e ∧ b.favored then 1 else 0) +
        favored_hits (if b.instrumented then b.cur_loc >>> 1 else prev_loc) events e := by
  rw [favored_hits, traversals, List.countP_cons, Nat.add_comm, favored_hits]
  simp only [decide_eq_true_eq]

/-- **The hybrid map counts**, whatever the area pointer. -/
theorem hybrid_counts {t : Runtime} (harea : t.AreaOk) (hptr : t.hybrid_ptr = ⟨.segment, MAP_SIZE⟩) (ht : t.Bounded)
    (events : List Event) (e : ℕ) :
    (t.run events).hybrid_bits e = t.hybrid_bits e + UInt32.ofNat (favored_hits t.prev_loc events e) := by
  induction events generalizing t with
  | nil => exact (UInt32.add_zero _).symm
  | cons ev events ih =>
    cases ev with
    | reset => exact ih (t := { t with prev_loc := 0 }) harea hptr (step_bounded ht .reset)
    | block b =>
      have hrest := ih (harea.block b) ((block_hybrid_ptr t b).trans hptr) (block_bounded ht b)
      rw [block_prev_loc, hybrid_bits_block harea hptr ht] at hrest
      rw [favored_hits_block]
      refine hrest.trans ?_
      rw [UInt32.add_assoc, UInt32.ofNat_add]
      congr 2
      rw [index]
      split_ifs <;> rfl

/-- **The trace map counts.** -/
theorem trace_counts {t : Runtime} (hs : t.Shared) (events : List Event) {e : ℕ} (he : e < MAP_SIZE) :
    (t.run events).trace_bits e = t.trace_bits e + UInt8.ofNat (hits t.prev_loc events e) := by
  induction events generalizing t with
  | nil => exact (UInt8.add_zero _).symm
  | cons ev events ih =>
    cases ev with
    | reset => exact ih (t := { t with prev_loc := 0 }) ⟨hs.area, hs.hybrid⟩
    | block b =>
      have hrest := ih (hs.block b)
      rw [block_prev_loc, trace_bits_block hs b he] at hrest
      rw [hits_block]
      refine hrest.trans ?_
      rw [UInt8.add_assoc, UInt8.ofNat_add]
      congr 2
      rw [index]
      split_ifs <;> rfl

/-! ### From the start of a process -/

/-- The process after `__afl_map_shm`. -/
def mapped (memory : Object → ℕ → UInt8) : Runtime := (start memory).map_shm

theorem mapped_shared (memory : Object → ℕ → UInt8) : (mapped memory).Shared := ⟨rfl, rfl⟩

theorem mapped_bounded (memory : Object → ℕ → UInt8) : (mapped memory).Bounded := zero_bounded

/-- What is asked of one block, at the state before it: its index is in the map, its trace counter lies below
`MAP_SIZE`, its hybrid counter behind it, and the fuzzer reads the counter of the edge there. -/
structure InPlace (t : Runtime) (b : Block) : Prop where
  /-- The index. -/
  index : t.index b < MAP_SIZE
  /-- The trace counter. -/
  trace : (t.trace_access b).object = .segment ∧ (t.trace_access b).offset < MAP_SIZE
  /-- The hybrid counter. -/
  hybrid : ∀ p ∈ t.hybrid_access b, p.object = .segment ∧ MAP_SIZE ≤ p.offset ∧ p.offset < 5 * MAP_SIZE
  /-- No other byte is written. -/
  frame : ∀ p, p ≠ t.trace_access b → p ∉ t.hybrid_access b →
    (t.block b).memory p.object p.offset = t.memory p.object p.offset
  /-- What the fuzzer reads. -/
  read : t.trace_access b = ⟨.segment, t.index b⟩ ∧ (b.favored → t.hybrid_access b = hybrid_bytes (t.index b))

theorem inPlace {t : Runtime} (hs : t.Shared) (ht : t.Bounded) (b : Block) : t.InPlace b := by
  have hi := index_lt ht b
  have htrace : t.trace_access b = ⟨.segment, t.index b⟩ := by
    rw [trace_access, hs.area, Nat.zero_add]
  have hhybrid : b.favored → t.hybrid_access b = hybrid_bytes (t.index b) := by
    intro hf
    rw [hybrid_access, if_pos hf, hs.hybrid]
    rfl
  refine ⟨hi, ?_, fun p hp => ?_, fun p => block_frame, htrace, hhybrid⟩
  · rw [htrace]
    exact ⟨rfl, hi⟩
  · by_cases hf : b.favored
    · rw [hhybrid hf] at hp
      obtain ⟨k, hk, rfl⟩ := List.mem_map.mp hp
      have hk' := List.mem_range.mp hk
      exact ⟨rfl, by dsimp only; omega, by dsimp only; omega⟩
    · rw [hybrid_access, if_neg hf] at hp
      cases hp

/-- **The two maps never collide.** In every run of a process under the fuzzer every block counts in its place of
the allocated segment, and in the end the fuzzer reads the counts of the edges. -/
theorem maps_never_collide (memory : Object → ℕ → UInt8) (events : List Event) :
    5 * MAP_SIZE = shm_size ∧
      (∀ pre b post, events = pre ++ .block b :: post → ((mapped memory).run pre).InPlace b) ∧
      ∀ e < MAP_SIZE,
        ((mapped memory).run events).trace_bits e =
          (mapped memory).trace_bits e + UInt8.ofNat (hits 0 events e) ∧
        ((mapped memory).run events).hybrid_bits e =
          (mapped memory).hybrid_bits e + UInt32.ofNat (favored_hits 0 events e) := by
  have hs := mapped_shared memory
  have hb := mapped_bounded memory
  refine ⟨?_, fun pre b post _ => inPlace (run_shared hs pre) (run_bounded hb pre) b, fun e he => ?_⟩
  · rw [shm_size]
    omega
  · exact ⟨trace_counts hs events he, hybrid_counts hs.areaOk hs.hybrid hb events e⟩

end SEDiff.Afl.Runtime
