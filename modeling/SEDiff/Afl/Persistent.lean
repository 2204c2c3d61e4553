import SEDiff.Afl.SharedMaps

/-!
# Persistent mode

`__afl_persistent_loop` of `afl-llvm-rt.o.c`: one process goes through many iterations, and stops itself after each
of them for the fuzzer to read both maps and clear them.

## What is proved

* `Persistent.iterate_spec` — what the hybrid map holds at the end of each iteration.
* `PersistentRun.isolated_iff` — it holds the counts of that iteration when no favored edge is traversed before the
  loop or after it.
-/

namespace SEDiff.Afl

open SEDiff.Afl.Runtime

/-- A process in persistent mode. -/
structure Persistent extends Runtime where
  /-- `first_pass`. -/
  first_pass : Bool
  /-- `cycle_cnt`. -/
  cycle_cnt : UInt32

namespace Runtime

/-- `memset(__afl_area_ptr, 0, MAP_SIZE)`. -/
def clear_area (t : Runtime) : Runtime :=
  { t with
    memory := Function.update t.memory t.area_ptr.object fun a =>
      if t.area_ptr.offset ≤ a ∧ a < t.area_ptr.offset + MAP_SIZE then 0 else t.memory t.area_ptr.object a }

/-- `__afl_area_ptr[0] = 1; __afl_prev_loc = 0`. -/
def fresh (t : Runtime) : Runtime := { t.write t.area_ptr 1 with prev_loc := 0 }

/-- The fuzzer clears both maps. -/
def cleared (t : Runtime) : Runtime :=
  { t with
    memory := Function.update t.memory .segment fun a => if a < shm_size then 0 else t.memory .segment a }

end Runtime

namespace Persistent

/-- The blocks of the target. -/
def runs (p : Persistent) (events : List Event) : Persistent := { p with toRuntime := p.toRuntime.run events }

/-- `__afl_persistent_loop`. At `raise(SIGSTOP)` the fuzzer takes over. -/
def persistent_loop (max_cnt : UInt32) (p : Persistent) : Persistent × Bool :=
  if p.first_pass then
    ({ toRuntime := p.toRuntime.clear_area.fresh, first_pass := false, cycle_cnt := max_cnt }, true)
  else
    let p := { p with cycle_cnt := p.cycle_cnt - 1 }
    if p.cycle_cnt ≠ 0 then ({ p with toRuntime := p.toRuntime.cleared.fresh }, true)
    else ({ p with area_ptr := ⟨.area_initial, 0⟩ }, false)

/-- `while (__AFL_LOOP(max_cnt))` from its second call on: the hybrid map at the end of each iteration, and the process
when the loop is left. -/
def iterate (max_cnt : UInt32) : Persistent → List (List Event) → List (ℕ → UInt32) × Persistent
  | p, [] => ([], p)
  | p, body :: bodies =>
    let p := p.runs body
    let next := p.persistent_loop max_cnt
    if next.2 then
      let rest := iterate max_cnt next.1 bodies
      (p.hybrid_bits :: rest.1, rest.2)
    else ([p.hybrid_bits], next.1)

end Persistent

/-- A run in persistent mode, with as many iterations as the loop allows. -/
structure PersistentRun where
  /-- The blocks before `__afl_map_shm`. -/
  init : List Event
  /-- The blocks before the loop. -/
  before : List Event
  /-- The iterations. -/
  iterations : List (List Event)
  /-- The blocks after the loop. -/
  after : List Event
  /-- There is an iteration. -/
  ne_nil : iterations ≠ []
  /-- A counter of 32 bits. -/
  length_le : iterations.length ≤ 2 ^ 32

namespace PersistentRun

/-- `max_cnt`. -/
def max_cnt (r : PersistentRun) : UInt32 := UInt32.ofNat r.iterations.length

/-- The process that enters the loop for the first time: `__afl_map_shm`, the fuzzer clears the maps and lets the fork
server start a child, and the child gets to the loop. -/
def entry (r : PersistentRun) (memory : Object → ℕ → UInt8) : Persistent :=
  { toRuntime := (((start memory).run r.init).map_shm.cleared).run r.before, first_pass := true, cycle_cnt := 0 }

/-- The loop. -/
def loop (r : PersistentRun) (memory : Object → ℕ → UInt8) : List (ℕ → UInt32) × Persistent :=
  ((r.entry memory).persistent_loop r.max_cnt).1.iterate r.max_cnt r.iterations

/-- The hybrid map that the fuzzer reads when the process has come to its end. -/
def last (r : PersistentRun) (memory : Object → ℕ → UInt8) : ℕ → UInt32 :=
  ((r.loop memory).2.runs r.after).hybrid_bits

/-- The counts of one iteration, which starts at location 0. -/
def counts (body : List Event) (e : ℕ) : UInt32 := UInt32.ofNat (favored_hits 0 body e)

/-- What is asked of the hybrid map: at the end of each iteration it holds the counts of that iteration, and what follows
the last one does not change it. -/
structure Isolated (r : PersistentRun) (memory : Object → ℕ → UInt8) : Prop where
  /-- The iterations. -/
  ends : List.Forall₂ (fun map body => ∀ e < MAP_SIZE, map e = counts body e) (r.loop memory).1 r.iterations
  /-- The end. -/
  exit : ∀ e < MAP_SIZE, r.last memory e = counts (r.iterations.getLast r.ne_nil) e

end PersistentRun

/-! ### The shared hybrid map -/

namespace Runtime

/-- The process counts in the shared hybrid map. -/
structure Ready (t : Runtime) : Prop where
  /-- The trace map is not in the way. -/
  area : t.AreaOk
  /-- The hybrid pointer. -/
  hybrid : t.hybrid_ptr = ⟨.segment, MAP_SIZE⟩
  /-- The location. -/
  bounded : t.Bounded

/-- The location after these events. -/
def loc_after : UInt32 → List Event → UInt32
  | prev_loc, [] => prev_loc
  | _, .reset :: events => loc_after 0 events
  | prev_loc, .block b :: events => loc_after (if b.instrumented then b.cur_loc >>> 1 else prev_loc) events

theorem run_prev_loc (t : Runtime) (events : List Event) : (t.run events).prev_loc = loc_after t.prev_loc events := by
  induction events generalizing t with
  | nil => rfl
  | cons ev events ih =>
    cases ev with
    | reset => exact ih (t.step .reset)
    | block b =>
      rw [loc_after, ← block_prev_loc]
      exact ih (t.block b)

theorem Ready.step {t : Runtime} (ht : t.Ready) (ev : Event) : (t.step ev).Ready := by
  cases ev with
  | block b => exact ⟨ht.area.block b, (block_hybrid_ptr t b).trans ht.hybrid, block_bounded ht.bounded b⟩
  | reset => exact ⟨ht.area, ht.hybrid, step_bounded ht.bounded .reset⟩

theorem Ready.run {t : Runtime} (ht : t.Ready) (events : List Event) : (t.run events).Ready := by
  induction events generalizing t with
  | nil => exact ht
  | cons ev events ih => exact ih (ht.step ev)

theorem Ready.counts {t : Runtime} (ht : t.Ready) (events : List Event) (e : ℕ) :
    (t.run events).hybrid_bits e = t.hybrid_bits e + UInt32.ofNat (favored_hits t.prev_loc events e) :=
  hybrid_counts ht.area ht.hybrid ht.bounded events e

/-- Resetting the location and marking the trace map leaves the hybrid map. -/
theorem hybrid_bits_fresh {t : Runtime} (ht : t.AreaOk) (e : ℕ) : t.fresh.hybrid_bits e = t.hybrid_bits e := by
  refine load32_congr fun a h1 h2 => ?_
  rw [fresh, write]
  dsimp only
  obtain harea | harea := ht
  · have hpos : 0 < MAP_SIZE := zero_bounded
    rw [harea, Function.update_self, Function.update_of_ne (by dsimp only; omega)]
  · rw [Function.update_of_ne harea.symm]

/-- Clearing the trace map leaves the hybrid map. -/
theorem hybrid_bits_clear_area {t : Runtime} (ht : t.AreaOk) (e : ℕ) :
    t.clear_area.hybrid_bits e = t.hybrid_bits e := by
  refine load32_congr fun a h1 h2 => ?_
  rw [clear_area]
  dsimp only
  obtain harea | harea := ht
  · rw [harea, Function.update_self, if_neg (by dsimp only; omega)]
  · rw [Function.update_of_ne harea.symm]

/-- The fuzzer clears the hybrid map. -/
theorem hybrid_bits_cleared (t : Runtime) {e : ℕ} (he : e < MAP_SIZE) : t.cleared.hybrid_bits e = 0 := by
  have hbyte (a : ℕ) (ha : a < shm_size) : t.cleared.memory .segment a = 0 := by
    rw [cleared]
    dsimp only
    rw [Function.update_self, if_pos ha]
  rw [shm_size] at hbyte
  rw [hybrid_bits, load32, hbyte _ (by omega), hbyte _ (by omega), hbyte _ (by omega), hbyte _ (by omega)]
  rfl

theorem Ready.fresh {t : Runtime} (ht : t.Ready) : t.fresh.Ready := ⟨ht.area, ht.hybrid, zero_bounded⟩

theorem Ready.cleared {t : Runtime} (ht : t.Ready) : t.cleared.Ready := ⟨ht.area, ht.hybrid, ht.bounded⟩

theorem Ready.clear_area {t : Runtime} (ht : t.Ready) : t.clear_area.Ready := ⟨ht.area, ht.hybrid, ht.bounded⟩

end Runtime

/-! ### The loop -/

namespace Persistent

open PersistentRun

/-- The counter tells whether there is another iteration. -/
theorem ofNat_sub_one {n : ℕ} (hn : n + 1 ≤ 2 ^ 32) : UInt32.ofNat (n + 1) - 1 ≠ 0 ↔ n ≠ 0 := by
  have hsub : UInt32.ofNat (n + 1) - 1 = UInt32.ofNat n := by
    rw [UInt32.ofNat_add]
    exact UInt32.add_sub_cancel _ _
  rw [hsub, ne_eq, ne_eq, ← UInt32.toNat_inj, UInt32.toNat_ofNat', UInt32.toNat_zero]
  omega

/-- What the loop leaves when its iterations are `body` and `bodies`. -/
structure Looped (p : Persistent) (body : List Event) (bodies : List (List Event))
    (r : List (ℕ → UInt32) × Persistent) : Prop where
  /-- The maps: what was there before is in the first one only. -/
  ends : ∃ map maps, r.1 = map :: maps ∧ (∀ e, map e = p.hybrid_bits e + counts body e) ∧
    List.Forall₂ (fun map body => ∀ e < MAP_SIZE, map e = counts body e) maps bodies
  /-- The process still counts in the shared map. -/
  ready : r.2.Ready
  /-- The location of the last iteration is left. -/
  loc : r.2.prev_loc = loc_after 0 ((body :: bodies).getLast (List.cons_ne_nil body bodies))
  /-- The last map is still there. -/
  left : ∀ map ∈ r.1.getLast?, r.2.hybrid_bits = map

/-- **The iterations**, by induction over those that follow. -/
theorem iterate_spec (max_cnt : UInt32) {p : Persistent} (body : List Event) (bodies : List (List Event))
    (hp : p.Ready) (hfirst : p.first_pass = false) (hprev : p.prev_loc = 0)
    (hcnt : p.cycle_cnt = UInt32.ofNat (bodies.length + 1)) (hlen : bodies.length + 1 ≤ 2 ^ 32) :
    Looped p body bodies (p.iterate max_cnt (body :: bodies)) := by
  have hnot : ¬ (p.runs body).first_pass = true := by
    show ¬ p.first_pass = true
    rw [hfirst]
    exact Bool.false_ne_true
  have hmap (e : ℕ) : (p.runs body).hybrid_bits e = p.hybrid_bits e + counts body e := by
    have := hp.counts body e
    rwa [hprev] at this
  have hready : (p.runs body).Ready := hp.run body
  induction bodies generalizing p body with
  | nil =>
    have hlast : ¬ (p.runs body).cycle_cnt - 1 ≠ 0 := by
      show ¬ p.cycle_cnt - 1 ≠ 0
      rw [hcnt]
      exact fun h => (ofNat_sub_one hlen).mp h rfl
    have hloop : (p.runs body).persistent_loop max_cnt = _ := (if_neg hnot).trans (if_neg hlast)
    rw [iterate]
    dsimp only
    rw [hloop, if_neg Bool.false_ne_true]
    refine ⟨⟨_, [], rfl, hmap, .nil⟩, ⟨.inr nofun, hready.hybrid, hready.bounded⟩, ?_, ?_⟩
    · have := run_prev_loc p.toRuntime body
      rwa [hprev] at this
    · rintro map hmem
      cases hmem
      rfl
  | cons body' bodies ih =>
    have hmore : (p.runs body).cycle_cnt - 1 ≠ 0 := by
      show p.cycle_cnt - 1 ≠ 0
      rw [hcnt]
      exact (ofNat_sub_one hlen).mpr (Nat.succ_ne_zero _)
    have hloop : (p.runs body).persistent_loop max_cnt = _ := (if_neg hnot).trans (if_pos hmore)
    rw [iterate]
    dsimp only
    rw [hloop, if_pos rfl]
    set p' : Persistent := { p.runs body with
      toRuntime := (p.runs body).toRuntime.cleared.fresh, cycle_cnt := (p.runs body).cycle_cnt - 1 } with hp'
    have hready' : p'.Ready := hready.cleared.fresh
    have hcnt' : p'.cycle_cnt = UInt32.ofNat (bodies.length + 1) := by
      show p.cycle_cnt - 1 = _
      rw [hcnt, List.length_cons, UInt32.ofNat_add]
      exact UInt32.add_sub_cancel _ _
    have hnot' : ¬ (p'.runs body').first_pass = true := hnot
    have hmap' (e : ℕ) : (p'.runs body').hybrid_bits e = p'.hybrid_bits e + counts body' e := hready'.counts body' e
    have hrest := ih body' hready' hfirst rfl hcnt' (by rw [List.length_cons] at hlen; omega) hnot' hmap'
      (hready'.run body')
    obtain ⟨map, maps, hends, hfirstmap, hmaps⟩ := hrest.ends
    refine ⟨⟨_, map :: maps, congrArg _ hends, hmap, .cons (fun e he => ?_) hmaps⟩, hrest.ready, hrest.loc, ?_⟩
    · have hzero : p'.hybrid_bits e = 0 :=
        (hybrid_bits_fresh hready.cleared.area e).trans (hybrid_bits_cleared _ he)
      rw [hfirstmap, hzero, UInt32.zero_add]
    · intro m hm
      apply hrest.left
      rw [hends] at hm ⊢
      rwa [List.getLast?_cons_cons] at hm

end Persistent

namespace PersistentRun

open Persistent

/-- No favored edge is traversed outside the loop (up to a multiple of `2 ^ 32` times). -/
def QuietOutside (r : PersistentRun) : Prop :=
  ∀ e < MAP_SIZE, UInt32.ofNat (favored_hits (loc_after 0 r.init) r.before e) = 0 ∧
    UInt32.ofNat (favored_hits (loc_after 0 (r.iterations.getLast r.ne_nil)) r.after e) = 0

theorem start_ready (r : PersistentRun) (memory : Object → ℕ → UInt8) :
    ((start memory).run r.init).map_shm.cleared.Ready := by
  have hstart : (start memory).Bounded := zero_bounded
  exact ⟨.inl rfl, rfl, run_bounded hstart r.init⟩

/-- What is in the hybrid map when the loop is entered. -/
theorem entry_hybrid_bits (r : PersistentRun) (memory : Object → ℕ → UInt8) {e : ℕ} (he : e < MAP_SIZE) :
    ((r.entry memory).persistent_loop r.max_cnt).1.hybrid_bits e =
      UInt32.ofNat (favored_hits (loc_after 0 r.init) r.before e) := by
  have hready := r.start_ready memory
  have hloc : ((start memory).run r.init).map_shm.cleared.prev_loc = loc_after 0 r.init :=
    run_prev_loc (start memory) r.init
  have hentry := hready.counts r.before e
  rw [hloc, hybrid_bits_cleared _ he, UInt32.zero_add] at hentry
  have harea : ((((start memory).run r.init).map_shm.cleared).run r.before).AreaOk := (hready.run r.before).area
  have hclear := hybrid_bits_clear_area harea e
  have hfresh := hybrid_bits_fresh (hready.run r.before).clear_area.area e
  exact (hfresh.trans hclear).trans hentry

/-- The loop of the run. -/
theorem loop_spec (r : PersistentRun) (memory : Object → ℕ → UInt8) {body : List Event} {bodies : List (List Event)}
    (h : r.iterations = body :: bodies) :
    Looped ((r.entry memory).persistent_loop r.max_cnt).1 body bodies (r.loop memory) := by
  have hready : ((r.entry memory).persistent_loop r.max_cnt).1.Ready :=
    ((r.start_ready memory).run r.before).clear_area.fresh
  have hcnt : ((r.entry memory).persistent_loop r.max_cnt).1.cycle_cnt = UInt32.ofNat (bodies.length + 1) := by
    show UInt32.ofNat r.iterations.length = _
    rw [h, List.length_cons]
  have hlen := r.length_le
  rw [h, List.length_cons] at hlen
  rw [loop, h]
  exact iterate_spec r.max_cnt body bodies hready rfl rfl hcnt hlen

/-- The last of two related lists. -/
theorem forall₂_getLast {α β : Type*} {R : α → β → Prop} {as : List α} {bs : List β} (h : List.Forall₂ R as bs)
    (hb : bs ≠ []) : ∃ a ∈ as.getLast?, R a (bs.getLast hb) := by
  induction h with
  | nil => exact absurd rfl hb
  | @cons a b as bs hab h ih =>
    cases h with
    | nil => exact ⟨a, rfl, hab⟩
    | cons hab' h' =>
      obtain ⟨a', ha', hR⟩ := ih (List.cons_ne_nil _ _)
      exact ⟨a', by rw [List.getLast?_cons_cons]; exact ha', by rwa [List.getLast_cons (List.cons_ne_nil _ _)]⟩

/-- Every map that is read holds the counts of its iteration. -/
def Counted (r : PersistentRun) (memory : Object → ℕ → UInt8) : Prop :=
  List.Forall₂ (fun map body => ∀ e < MAP_SIZE, map e = counts body e) (r.loop memory).1 r.iterations

/-- What is traversed before the loop is in the first map. -/
theorem counted_iff (r : PersistentRun) (memory : Object → ℕ → UInt8) :
    r.Counted memory ↔ ∀ e < MAP_SIZE, UInt32.ofNat (favored_hits (loc_after 0 r.init) r.before e) = 0 := by
  obtain ⟨body, bodies, hits⟩ := List.exists_cons_of_ne_nil r.ne_nil
  obtain ⟨map, maps, hends, hmap, hmaps⟩ := (r.loop_spec memory hits).ends
  have hfirst (e : ℕ) (he : e < MAP_SIZE) :
      map e = counts body e ↔ UInt32.ofNat (favored_hits (loc_after 0 r.init) r.before e) = 0 := by
    rw [hmap, r.entry_hybrid_bits memory he, UInt32.add_eq_right]
  rw [Counted, hends, hits, List.forall₂_cons, and_iff_left hmaps]
  exact forall₂_congr hfirst

/-- What is traversed after the loop is added to the last map. -/
theorem exit_iff {r : PersistentRun} {memory : Object → ℕ → UInt8} (hall : r.Counted memory) {e : ℕ}
    (he : e < MAP_SIZE) :
    r.last memory e = counts (r.iterations.getLast r.ne_nil) e ↔
      UInt32.ofNat (favored_hits (loc_after 0 (r.iterations.getLast r.ne_nil)) r.after e) = 0 := by
  obtain ⟨body, bodies, hits⟩ := List.exists_cons_of_ne_nil r.ne_nil
  have hloop := r.loop_spec memory hits
  have hlast : r.last memory e = (r.loop memory).2.hybrid_bits e +
      UInt32.ofNat (favored_hits (loc_after 0 (r.iterations.getLast r.ne_nil)) r.after e) := by
    have := hloop.ready.counts r.after e
    rw [hloop.loc] at this
    simp only [hits]
    exact this
  obtain ⟨m, hm, heq⟩ := forall₂_getLast hall r.ne_nil
  rw [hlast, hloop.left m hm, heq e he, UInt32.add_comm, UInt32.add_eq_right]

/-- **The hybrid map is isolated** in exactly the runs without favored edges outside the loop. -/
theorem isolated_iff (r : PersistentRun) (memory : Object → ℕ → UInt8) : r.Isolated memory ↔ r.QuietOutside := by
  constructor
  · rintro ⟨hall, hend⟩ e he
    exact ⟨(r.counted_iff memory).mp hall e he, (exit_iff hall he).mp (hend e he)⟩
  · intro hquiet
    have hall : r.Counted memory := (r.counted_iff memory).mpr fun e he => (hquiet e he).1
    exact ⟨hall, fun e he => (exit_iff hall he).mpr (hquiet e he).2⟩

/-- One favored block before the loop, and an empty iteration. -/
def early : PersistentRun where
  init := []
  before := [.block ⟨0, zero_bounded, true, true⟩]
  iterations := [[]]
  after := []
  ne_nil := List.cons_ne_nil [] []
  length_le := by decide

/-- What happened before the loop is in the first map. -/
theorem not_isolated : ¬ ∀ (r : PersistentRun) (memory : Object → ℕ → UInt8), r.Isolated memory := by
  intro hall
  have hzero := (early.counted_iff fun _ _ => 0).mp (hall early _).ends 0 zero_bounded
  exact absurd hzero (by decide)

end PersistentRun

end SEDiff.Afl
