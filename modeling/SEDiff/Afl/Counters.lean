import SEDiff.Afl.Favored

/-!
# The counters of the favored entries

`queued_favored` and `pending_favored` are counted while the flags are set: the pass over `top_rated` looks at
the flag before it counts, the pass over `top_rated_orig` relies on `trace_mini` to take the other slots of the
entry out of `temp_v`.

## What is proved

* `Hybrid.favor_all_exact` — the pass over `top_rated` counts exactly.
* `Hybrid.pick_all_exact_iff` — the pass over `top_rated_orig` does if and only if no entry is met at two slots.
* `Hybrid.favored_counts_iff` — the counters are exact in all of a run, and never decremented below zero, if and
  only if each pass over `top_rated_orig` is such a one.
-/

namespace SEDiff.Afl

open Foundation

/-- The number of favored entries of the queue. -/
def Entries.favoredCount (es : Entries) (queue : List ℕ) : ℕ := queue.countP fun e => (es e).favored

/-- The number of favored entries of the queue that were not fuzzed. -/
def Entries.pendingCount (es : Entries) (queue : List ℕ) : ℕ :=
  queue.countP fun e => (es e).favored && !(es e).was_fuzzed

namespace Hybrid

/-- The counters are exact. -/
structure Exact (s : Hybrid) : Prop where
  /-- `queued_favored` is the number of favored entries. -/
  queued : s.queued_favored.toNat = s.entries.favoredCount s.queue
  /-- `pending_favored` is the number of favored entries that were not fuzzed. -/
  pending : s.pending_favored.toNat = s.entries.pendingCount s.queue

/-- The counts depend on the flags only. -/
theorem counts_congr {es es' : Entries} (hf : es.SameFlags es') (queue : List ℕ) :
    es'.favoredCount queue = es.favoredCount queue ∧ es'.pendingCount queue = es.pendingCount queue :=
  ⟨List.countP_congr fun e _ => by rw [(hf e).1], List.countP_congr fun e _ => by rw [(hf e).1, (hf e).2]⟩

/-- Nothing is favored, and nothing is counted. -/
theorem counts_zero {es : Entries} {queue : List ℕ} (h0 : ∀ e ∈ queue, (es e).favored = false) :
    es.favoredCount queue = 0 ∧ es.pendingCount queue = 0 :=
  ⟨List.countP_eq_zero.mpr fun e he => by simp [h0 e he], List.countP_eq_zero.mpr fun e he => by simp [h0 e he]⟩

/-- Entries that are not favored are added to the queue. -/
theorem counts_append {es : Entries} (queue : List ℕ) {added : List ℕ} (h0 : ∀ e ∈ added, (es e).favored = false) :
    es.favoredCount (queue ++ added) = es.favoredCount queue ∧
      es.pendingCount (queue ++ added) = es.pendingCount queue := by
  obtain ⟨h1, h2⟩ := counts_zero h0
  refine ⟨List.countP_append.trans ?_, List.countP_append.trans ?_⟩
  · exact Nat.add_eq_left.mpr h1
  · exact Nat.add_eq_left.mpr h2

/-- One more entry is favored. -/
theorem counts_favor {es : Entries} {queue : List ℕ} (hnd : queue.Nodup) {w : ℕ} (hw : w ∈ queue)
    (hnew : (es w).favored = false) :
    let es' : Entries := Function.update es w { es w with favored := true }
    es'.favoredCount queue = es.favoredCount queue + 1 ∧
      es'.pendingCount queue = es.pendingCount queue + if (es w).was_fuzzed then 0 else 1 := by
  intro es'
  have hself : es' w = { es w with favored := true } := Function.update_self ..
  have hother : ∀ e, e ≠ w → es' e = es e := fun e he => Function.update_of_ne he ..
  refine ⟨countP_flip hnd hw hnew (by rw [hself]) fun e he => by rw [hother e he], ?_⟩
  cases hf : (es w).was_fuzzed with
  | true =>
    refine List.countP_congr fun e _ => ?_
    by_cases he : e = w
    · rw [he, hself]
      simp [hf]
    · rw [hother e he]
  | false =>
    refine countP_flip hnd hw (by simp [hnew]) ?_ fun e he => by rw [hother e he]
    rw [hself]
    simp [hf]

/-- A favored entry is favored again. -/
theorem counts_again {es : Entries} {w : ℕ} (hold : (es w).favored = true) (queue : List ℕ) :
    let es' : Entries := Function.update es w { es w with favored := true }
    es'.favoredCount queue = es.favoredCount queue ∧ es'.pendingCount queue = es.pendingCount queue := by
  intro es'
  have hflags : es.SameFlags es' := Entries.sameFlags_update es w hold.symm rfl
  exact counts_congr hflags queue

/-! ### The pass over `top_rated` -/

theorem MAP_SIZE_lt : MAP_SIZE < 2 ^ 32 := by
  rw [MAP_SIZE_eq]
  decide

/-- The picks are counted exactly, and there are at most `n`. -/
structure Counted (queue : List ℕ) (c : Picks) (n : ℕ) : Prop where
  /-- The favored entries. -/
  queued : c.queued_favored.toNat = c.entries.favoredCount queue
  /-- The pending ones. -/
  pending : c.pending_favored.toNat = c.entries.pendingCount queue
  /-- One slot counts one entry. -/
  queued_le : c.queued_favored.toNat ≤ n
  /-- The same for pending ones. -/
  pending_le : c.pending_favored.toNat ≤ n

theorem Counted.mono {queue : List ℕ} {c : Picks} {n m : ℕ} (hc : Counted queue c n) (hnm : n ≤ m) :
    Counted queue c m :=
  ⟨hc.queued, hc.pending, hc.queued_le.trans hnm, hc.pending_le.trans hnm⟩

/-- A pass starts with nothing counted. -/
theorem Queued.counted {s : Hybrid} (hs : s.Queued) : Counted s.queue s.fresh_picks 0 := by
  obtain ⟨h1, h2⟩ := counts_zero fun e (_ : e ∈ s.queue) => hs.fresh e
  exact ⟨h1.symm, h2.symm, le_rfl, le_rfl⟩

/-- A new favored entry is counted. -/
theorem Counted.favor {queue : List ℕ} {c : Picks} {n : ℕ} (hc : Counted queue c n) (hn : n < MAP_SIZE)
    (hnd : queue.Nodup) {w : ℕ} (hw : w ∈ queue) (hnew : (c.entries w).favored = false) {c' : Picks}
    (hentries : c'.entries = Function.update c.entries w { c.entries w with favored := true })
    (hqueued : c'.queued_favored = c.queued_favored + 1)
    (hpending : c'.pending_favored =
      if (c.entries w).was_fuzzed then c.pending_favored else c.pending_favored + 1) :
    Counted queue c' (n + 1) := by
  obtain ⟨h1, h2⟩ := counts_favor hnd hw hnew
  have hlt := MAP_SIZE_lt
  have hq := hc.queued_le
  have hp := hc.pending_le
  have hqsucc : c'.queued_favored.toNat = c.queued_favored.toNat + 1 := by
    rw [hqueued, Entries.toNat_succ (by omega)]
  have hpsucc : c'.pending_favored.toNat = c.pending_favored.toNat + if (c.entries w).was_fuzzed then 0 else 1 := by
    rw [hpending]
    cases (c.entries w).was_fuzzed with
    | true => rfl
    | false => exact Entries.toNat_succ (by omega)
  refine ⟨?_, ?_, ?_, ?_⟩
  · rw [hqsucc, hc.queued, hentries, h1]
  · rw [hpsucc, hc.pending, hentries, h2]
  · omega
  · rw [hpsucc]
    split_ifs <;> omega

/-- One slot of the pass over `top_rated`. -/
theorem favor_counted {queue : List ℕ} (hnd : queue.Nodup) {top_rated : ℕ → Option ℕ}
    (htop : ∀ e i, top_rated i = some e → e ∈ queue) {c : Picks} {k : ℕ} (hk : k < MAP_SIZE)
    (hc : Counted queue c k) : Counted queue (favor top_rated c k) (k + 1) := by
  rw [favor]
  cases hw : top_rated k with
  | none => exact hc.mono (Nat.le_succ k)
  | some w =>
    simp only
    by_cases hf : (c.entries w).was_fuzzed = true
    · rw [if_pos hf]
      exact hc.mono (Nat.le_succ k)
    rw [if_neg hf]
    by_cases hfav : (c.entries w).favored = true
    · rw [if_pos hfav]
      obtain ⟨h1, h2⟩ := counts_again hfav queue
      exact ⟨hc.queued.trans h1.symm, hc.pending.trans h2.symm, Nat.le_succ_of_le hc.queued_le,
        Nat.le_succ_of_le hc.pending_le⟩
    · rw [if_neg hfav]
      exact hc.favor hk hnd (htop w k hw) (Bool.eq_false_iff.mpr hfav) rfl rfl (if_neg hf).symm

/-- **The pass over `top_rated`** counts exactly. -/
theorem favor_all_counted {s : Hybrid} (hs : s.Queued) : Counted s.queue s.favor_all MAP_SIZE := by
  have hloop : ∀ k ≤ MAP_SIZE, Counted s.queue ((List.range k).foldl (Hybrid.favor s.top_rated) s.fresh_picks) k := by
    intro k
    induction k with
    | zero => exact fun _ => hs.counted
    | succ k ih =>
      intro hk
      rw [List.range_succ, List.foldl_append, List.foldl_cons, List.foldl_nil]
      exact favor_counted hs.nodup (fun e i he => hs.holds e i (.inl he)) hk (ih (Nat.le_of_succ_le hk))
  exact hloop MAP_SIZE le_rfl

/-- The counters of the picks become the counters of the fuzzer. -/
theorem Counted.exact {s : Hybrid} {c : Picks} {n : ℕ} (hc : Counted s.queue c n) : (s.settle c).Exact := by
  obtain ⟨h1, h2⟩ := counts_congr
    (fun e => ⟨settle_favored s c e, settle_was_fuzzed s c e⟩ : c.entries.SameFlags (s.settle c).entries) s.queue
  exact ⟨hc.queued.trans h1.symm, hc.pending.trans h2.symm⟩

/-! ### The pass over `top_rated_orig` -/

/-- The winner of slot `j` has slot `i` in its `trace_mini`. -/
def Covers (es : Entries) (top_rated : ℕ → Option ℕ) (j i : ℕ) : Prop :=
  ∃ w mini, top_rated j = some w ∧ (es w).trace_mini = some mini ∧ mini i = true

/-- The pass meets the winner of slot `i`: no slot at which it met a winner before covers it. -/
def Met (es : Entries) (top_rated : ℕ → Option ℕ) (i : ℕ) : Prop :=
  top_rated i ≠ none ∧ ∀ j, j < i → Met es top_rated j → ¬ Covers es top_rated j i
termination_by i

/-- No entry is met at two slots below `n`. -/
def MetOnce (es : Entries) (top_rated : ℕ → Option ℕ) (n : ℕ) : Prop :=
  ∀ i < n, ∀ j < n, Met es top_rated i → Met es top_rated j → top_rated i = top_rated j → i = j

/-- Every entry that is met has its `trace_mini`. -/
def MetKept (es : Entries) (top_rated : ℕ → Option ℕ) (n : ℕ) : Prop :=
  ∀ i < n, Met es top_rated i → ∀ w, top_rated i = some w → (es w).trace_mini ≠ none

/-- An entry whose `trace_mini` has all its slots is met at one of them at most. -/
theorem metOnce_of_covers {es : Entries} {top_rated : ℕ → Option ℕ} {n : ℕ}
    (hcov : ∀ i < n, ∀ j < n, top_rated i ≠ none → top_rated i = top_rated j → Covers es top_rated i j) :
    MetOnce es top_rated n := by
  intro i hi j hj hmi hmj htop
  rw [Met] at hmi hmj
  rcases Nat.lt_trichotomy i j with hlt | heq | hlt
  · exact absurd (hcov i hi j hj hmi.1 htop) (hmj.2 i hlt (by rw [Met]; exact hmi))
  · exact heq
  · exact absurd (hcov j hj i hi hmj.1 htop.symm) (hmi.2 j hlt (by rw [Met]; exact hmj))

/-- The picks before slot `k`, when the pass started with `es`. -/
structure Picked (es : Entries) (queue : List ℕ) (top_rated : ℕ → Option ℕ) (k : ℕ) (c : Picks) : Prop where
  /-- No trace changes. -/
  trace_mini : ∀ e, (c.entries e).trace_mini = (es e).trace_mini
  /-- Bits are taken by what was met. -/
  temp_v : ∀ i, c.temp_v i = true ↔ ∀ j < k, Met es top_rated j → ¬ Covers es top_rated j i
  /-- What was met is favored. -/
  favored : ∀ e, (c.entries e).favored = true ↔ ∃ j < k, Met es top_rated j ∧ top_rated j = some e
  /-- A slot counts at most once. -/
  queued_le : c.queued_favored.toNat ≤ k
  /-- Nothing favored is missed. -/
  le_queued : c.entries.favoredCount queue ≤ c.queued_favored.toNat
  /-- The number of favored entries is right if no entry was met twice, and only then. -/
  exact_iff : c.queued_favored.toNat = c.entries.favoredCount queue ↔ MetOnce es top_rated k
  /-- So is the number of pending ones, if no entry was met twice. -/
  counted : MetOnce es top_rated k → Counted queue c k

theorem Queued.picked {s : Hybrid} (hs : s.Queued) (top_rated : ℕ → Option ℕ) :
    Picked s.entries s.queue top_rated 0 s.fresh_picks := by
  have hc := hs.counted
  refine ⟨fun e => ((Entries.sameRefs_clear s.entries s.queue) e).2, fun i => ?_, fun e => ?_, le_rfl, ?_, ?_,
    fun _ => hc⟩
  · exact iff_of_true rfl nofun
  · refine iff_of_false (Bool.eq_false_iff.mp (hs.fresh e)) ?_
    rintro ⟨j, hj, -⟩
    exact absurd hj (Nat.not_lt_zero j)
  · exact hc.queued.ge
  · exact iff_of_true hc.queued nofun

theorem metOnce_succ {es : Entries} {top_rated : ℕ → Option ℕ} {k : ℕ} :
    MetOnce es top_rated (k + 1) ↔ MetOnce es top_rated k ∧
      (Met es top_rated k → ∀ j < k, Met es top_rated j → top_rated j ≠ top_rated k) := by
  constructor
  · refine fun h => ⟨fun i hi j hj => h i (by omega) j (by omega), fun hmk j hj hmj htop => ?_⟩
    have := h j (by omega) k (by omega) hmj hmk htop
    omega
  · rintro ⟨hold, hnew⟩ i hi j hj hmi hmj htop
    by_cases hik : i = k
    · by_cases hjk : j = k
      · rw [hik, hjk]
      · subst hik
        exact absurd htop.symm (hnew hmi j (by omega) hmj)
    · by_cases hjk : j = k
      · subst hjk
        exact absurd htop (hnew hmj i (by omega) hmi)
      · exact hold i (by omega) j (by omega) hmi hmj htop

/-- A slot at which nothing is met. -/
theorem Picked.skip {es : Entries} {queue : List ℕ} {top_rated : ℕ → Option ℕ} {k : ℕ} {c : Picks}
    (hc : Picked es queue top_rated k c) (hk : ¬ Met es top_rated k) : Picked es queue top_rated (k + 1) c := by
  have hlt : ∀ {p : ℕ → Prop}, (∀ j < k + 1, Met es top_rated j → p j) ↔ ∀ j < k, Met es top_rated j → p j :=
    fun {p} => ⟨fun h j hj => h j (by omega), fun h j hj hm => by
      by_cases hjk : j = k
      · exact absurd (hjk ▸ hm) hk
      · exact h j (by omega) hm⟩
  have honce : MetOnce es top_rated (k + 1) ↔ MetOnce es top_rated k := by
    rw [metOnce_succ]
    exact and_iff_left fun hm => absurd hm hk
  refine ⟨hc.trace_mini, fun i => (hc.temp_v i).trans hlt.symm, fun e => (hc.favored e).trans ?_,
    Nat.le_succ_of_le hc.queued_le, hc.le_queued, hc.exact_iff.trans honce.symm,
    fun h => (hc.counted (honce.mp h)).mono (Nat.le_succ k)⟩
  constructor
  · rintro ⟨j, hj, h⟩
    exact ⟨j, by omega, h⟩
  · rintro ⟨j, hj, hm, h⟩
    by_cases hjk : j = k
    · exact absurd (hjk ▸ hm) hk
    · exact ⟨j, by omega, hm, h⟩

/-- A slot at which `w` is met. -/
theorem Picked.take {es : Entries} {queue : List ℕ} {top_rated : ℕ → Option ℕ} {k : ℕ} {c : Picks}
    (hc : Picked es queue top_rated k c) (hk : k < MAP_SIZE) (hnd : queue.Nodup) (hm : Met es top_rated k) {w : ℕ}
    (htop : top_rated k = some w) (hw : w ∈ queue) {mini : Bits} (hmini : (es w).trace_mini = some mini) :
    Picked es queue top_rated (k + 1) {
      entries := Function.update c.entries w { c.entries w with favored := true }
      temp_v := fun j => c.temp_v j && !mini j
      queued_favored := c.queued_favored + 1
      pending_favored :=
        if (c.entries w).was_fuzzed then c.pending_favored else c.pending_favored + 1 } := by
  have hlt := MAP_SIZE_lt
  have hle := hc.queued_le
  have hsucc : (c.queued_favored + 1).toNat = c.queued_favored.toNat + 1 := Entries.toNat_succ (by omega)
  have hcov : ∀ i, Covers es top_rated k i ↔ mini i = true := fun i => by
    constructor
    · rintro ⟨v, m, hv, hmv, hi⟩
      rw [htop] at hv
      rw [← Option.some_inj.mp hv, hmini] at hmv
      exact Option.some_inj.mp hmv ▸ hi
    · exact fun hi => ⟨w, mini, htop, hmini, hi⟩
  have htrace : ∀ e, (Function.update c.entries w { c.entries w with favored := true } e).trace_mini =
      (es e).trace_mini := fun e => ((Entries.sameRefs_favor c.entries w) e).2.trans (hc.trace_mini e)
  have htemp : ∀ i, (c.temp_v i && !mini i) = true ↔ ∀ j < k + 1, Met es top_rated j → ¬ Covers es top_rated j i := by
    intro i
    rw [Bool.and_eq_true_iff, hc.temp_v, Bool.not_eq_true', ← Bool.not_eq_true, ← hcov i]
    constructor
    · rintro ⟨hold, hnew⟩ j hj hmj
      by_cases hjk : j = k
      · exact hjk ▸ hnew
      · exact hold j (by omega) hmj
    · exact fun h => ⟨fun j hj => h j (by omega), h k (Nat.lt_succ_self k) hm⟩
  have hfavored : ∀ e, (Function.update c.entries w { c.entries w with favored := true } e).favored = true ↔
      ∃ j < k + 1, Met es top_rated j ∧ top_rated j = some e := by
    intro e
    rw [update_favored, hc.favored]
    constructor
    · rintro (rfl | ⟨j, hj, h⟩)
      · exact ⟨k, Nat.lt_succ_self k, hm, htop⟩
      · exact ⟨j, by omega, h⟩
    · rintro ⟨j, hj, hmj, hje⟩
      by_cases hjk : j = k
      · rw [hjk, htop] at hje
        exact .inl (Option.some_inj.mp hje).symm
      · exact .inr ⟨j, by omega, hmj, hje⟩
  have hcount := hc.le_queued
  cases hfav : (c.entries w).favored with
  | true =>
    -- the entry was met before: it is counted twice
    obtain ⟨h1, -⟩ := counts_again hfav queue
    obtain ⟨j, hj, hmj, hje⟩ := (hc.favored w).mp hfav
    have hnot : ¬ MetOnce es top_rated (k + 1) := fun h =>
      (metOnce_succ.mp h).2 hm j hj hmj (hje.trans htop.symm)
    refine ⟨htrace, htemp, hfavored, ?_, ?_, ?_, fun h => absurd h hnot⟩
    · show (c.queued_favored + 1).toNat ≤ k + 1
      omega
    · show Entries.favoredCount _ queue ≤ (c.queued_favored + 1).toNat
      rw [h1]
      omega
    · refine iff_of_false ?_ hnot
      show ¬ (c.queued_favored + 1).toNat = Entries.favoredCount _ queue
      rw [h1]
      omega
  | false =>
    obtain ⟨h1, -⟩ := counts_favor hnd hw hfav
    have honce : MetOnce es top_rated (k + 1) ↔ MetOnce es top_rated k := by
      rw [metOnce_succ]
      refine and_iff_left fun _ j hj hmj hje => ?_
      exact Bool.eq_false_iff.mp hfav ((hc.favored w).mpr ⟨j, hj, hmj, hje.trans htop⟩)
    refine ⟨htrace, htemp, hfavored, ?_, ?_, ?_, fun h => ?_⟩
    · show (c.queued_favored + 1).toNat ≤ k + 1
      omega
    · show Entries.favoredCount _ queue ≤ (c.queued_favored + 1).toNat
      rw [h1]
      omega
    · show (c.queued_favored + 1).toNat = Entries.favoredCount _ queue ↔ _
      rw [honce, ← hc.exact_iff, h1]
      omega
    · exact (hc.counted (honce.mp h)).favor hk hnd hw hfav rfl rfl rfl

/-- **One slot** of the pass over `top_rated_orig`. -/
theorem Picked.pick {es : Entries} {queue : List ℕ} {top_rated : ℕ → Option ℕ} {k : ℕ} {c : Picks}
    (hc : Picked es queue top_rated k c) (hk : k < MAP_SIZE) (hnd : queue.Nodup)
    (htop : ∀ e i, top_rated i = some e → e ∈ queue) :
    (∃ c', Afl.pick top_rated c k = some c' ∧ Picked es queue top_rated (k + 1) c' ∧
        (Met es top_rated k → ∀ w, top_rated k = some w → (es w).trace_mini ≠ none)) ∨
      (Afl.pick top_rated c k = none ∧ Met es top_rated k ∧
        ∃ w, top_rated k = some w ∧ (es w).trace_mini = none) := by
  rw [Afl.pick]
  cases hw : top_rated k with
  | none =>
    have hm : ¬ Met es top_rated k := fun hm => by
      rw [Met] at hm
      exact hm.1 hw
    exact .inl ⟨c, rfl, hc.skip hm, fun _ _ h => absurd h.symm (Option.some_ne_none _)⟩
  | some w =>
    have hmet : Met es top_rated k ↔ c.temp_v k = true := by
      rw [Met, hc.temp_v]
      exact and_iff_right (by rw [hw]; exact Option.some_ne_none w)
    simp only
    by_cases ht : c.temp_v k = true
    · have hm := hmet.mpr ht
      have hsame := hc.trace_mini w
      rw [if_pos ht]
      cases hmini : (es w).trace_mini with
      | none =>
        refine .inr ⟨?_, hm, w, rfl, hmini⟩
        rw [hsame.trans hmini]
        rfl
      | some mini =>
        refine .inl ⟨_, Option.bind_eq_some_iff.mpr ⟨mini, hsame.trans hmini, rfl⟩,
          hc.take hk hnd hm hw (htop w k hw) hmini, fun _ v hv => ?_⟩
        rw [← Option.some_inj.mp hv, hmini]
        exact Option.some_ne_none mini
    · have hm : ¬ Met es top_rated k := fun h => ht (hmet.mp h)
      rw [if_neg ht]
      exact .inl ⟨c, rfl, hc.skip hm, fun h => absurd h hm⟩

/-- **The pass over `top_rated_orig`** reads a null `trace_mini`, or counts exactly if and only if no entry is
met at two slots. -/
theorem pick_all_exact_iff {s : Hybrid} (hs : s.Queued) :
    (∃ c, pick_all s.entries s.queue s.top_rated_orig = some c ∧
        MetKept s.entries s.top_rated_orig MAP_SIZE ∧
        ((s.settle c).Exact ↔ MetOnce s.entries s.top_rated_orig MAP_SIZE)) ∨
      (pick_all s.entries s.queue s.top_rated_orig = none ∧ ¬ MetKept s.entries s.top_rated_orig MAP_SIZE) := by
  have hloop : ∀ k ≤ MAP_SIZE,
      (∃ c, (List.range k).foldlM (Afl.pick s.top_rated_orig) s.fresh_picks = some c ∧
          Picked s.entries s.queue s.top_rated_orig k c ∧ MetKept s.entries s.top_rated_orig k) ∨
        ((List.range k).foldlM (Afl.pick s.top_rated_orig) s.fresh_picks = none ∧
          ¬ MetKept s.entries s.top_rated_orig k) := by
    intro k
    induction k with
    | zero => exact fun _ => .inl ⟨_, rfl, hs.picked _, nofun⟩
    | succ k ih =>
      intro hk
      rw [List.range_succ, List.foldlM_append]
      cases ih (Nat.le_of_succ_le hk) with
      | inr h =>
        rw [h.1]
        exact .inr ⟨rfl, fun hkept => h.2 fun i hi => hkept i (by omega)⟩
      | inl h =>
        obtain ⟨c, hrun, hc, hkept⟩ := h
        rw [hrun]
        cases hc.pick hk hs.nodup fun e i he => hs.holds e i (.inr he) with
        | inl h =>
          obtain ⟨c', hpick, hc', hmini⟩ := h
          refine .inl ⟨c', ?_, hc', fun i hi => ?_⟩
          · simp [hpick]
          · by_cases hik : i = k
            · exact hik ▸ hmini
            · exact hkept i (by omega)
        | inr h =>
          obtain ⟨hpick, hm, w, hw, hnone⟩ := h
          refine .inr ⟨?_, fun hkept => hkept k (Nat.lt_succ_self k) hm w hw hnone⟩
          simp [hpick]
  cases hloop MAP_SIZE le_rfl with
  | inr h => exact .inr h
  | inl h =>
    obtain ⟨c, hrun, hc, hkept⟩ := h
    refine .inl ⟨c, hrun, hkept, fun hexact => ?_, fun honce => (hc.counted honce).exact⟩
    -- the number of favored entries alone tells
    refine hc.exact_iff.mp (hexact.queued.trans ?_)
    exact List.countP_congr fun e _ => by rw [settle_favored]

/-! ### Runs -/

/-- The counters are exact after the call, and when the end of `fuzz_one` decrements `pending_favored`, it was
not zero. -/
def CountsExactly (dumb_mode : Bool) (s : Hybrid) (ev : Call) : Prop :=
  ∀ s', s.call dumb_mode ev = some s' → s'.Exact ∧
    match ev with
    | .abandon_entry _ _ _ => s'.pending_favored ≠ s.pending_favored → s.pending_favored ≠ 0
    | _ => True

/-- A cull that goes over `top_rated_orig`, and reads no null `trace_mini`, meets no entry twice. -/
def MeetsOnce (dumb_mode : Bool) (s : Hybrid) (ev : Call) : Prop :=
  match ev with
  | .cull_queue =>
    s.TF_top_null = true → (dumb_mode = true ∨ s.score_changed = false) →
      MetKept s.entries s.top_rated_orig MAP_SIZE → MetOnce s.entries s.top_rated_orig MAP_SIZE
  | _ => True

theorem Starts.exact {s : Hybrid} (hs : s.Starts) : s.Exact := by
  obtain ⟨h1, h2⟩ := counts_zero fun e (_ : e ∈ s.queue) => hs.favored e
  refine ⟨?_, ?_⟩
  · rw [hs.queued_favored, h1]
    rfl
  · rw [hs.pending_favored, h2]
    rfl

/-- **A cull** counts exactly if and only if it meets no entry twice. -/
theorem cull_exact_iff {dumb_mode : Bool} {s : Hybrid} (hq : s.Queued) (he : s.Exact) :
    s.CountsExactly dumb_mode .cull_queue ↔ s.MeetsOnce dumb_mode .cull_queue := by
  by_cases hskip : dumb_mode = true ∨ s.score_changed = false
  · have hcull : s.cull_queue true dumb_mode = s.altern true := by
      rw [cull_queue, if_pos (by simpa using hskip)]
    cases hnull : s.TF_top_null with
    | false =>
      refine iff_of_true (fun s' hstep => ?_) fun h => absurd (hnull.symm.trans h) Bool.false_ne_true
      rw [call, hcull] at hstep
      cases altern_cases hstep with
      | inl h => exact ⟨h.2 ▸ he, trivial⟩
      | inr h => exact absurd (hnull.symm.trans h.1) Bool.false_ne_true
    | true =>
      have haltern : s.altern true = (pick_all s.entries s.queue s.top_rated_orig).map s.settle := by
        rw [altern, hnull]
        cases pick_all s.entries s.queue s.top_rated_orig <;> rfl
      cases pick_all_exact_iff hq with
      | inl h =>
        obtain ⟨c, hc, hkept, hiff⟩ := h
        rw [hc] at haltern
        have hstep : s.call dumb_mode .cull_queue = some (s.settle c) := hcull.trans haltern
        constructor
        · exact fun hcounts _ _ _ => hiff.mp (hcounts _ hstep).1
        · intro honce s' hrun
          cases hstep.symm.trans hrun
          exact ⟨hiff.mpr (honce hnull hskip hkept), trivial⟩
      | inr h =>
        -- the null pointer is read
        obtain ⟨hc, hkept⟩ := h
        rw [hc] at haltern
        have hstep : s.call dumb_mode .cull_queue = none := hcull.trans haltern
        refine iff_of_true (fun s' hrun => ?_) fun _ _ hk => absurd hk hkept
        exact absurd (hrun.symm.trans hstep) (Option.some_ne_none s')
  · refine iff_of_true (fun s' hstep => ?_) fun _ h => absurd h hskip
    cases cull_queue_cases hstep with
    | inl h => exact absurd h.1 hskip
    | inr h =>
      obtain ⟨-, -, rfl⟩ := h
      have hc : Counted s.queue s.favor_all MAP_SIZE := favor_all_counted hq
      rw [culled]
      exact ⟨Counted.exact (s := { s with TF_top_null := false, score_changed := false }) hc, trivial⟩

/-- **The end of `fuzz_one`** counts down what is counted. -/
theorem fuzzed_exact {s : Hybrid} (hq : s.Queued) (he : s.Exact) {queue_cur : ℕ} (hcur : queue_cur ∈ s.queue)
    (hnew : (s.entries queue_cur).was_fuzzed = false) :
    (s.fuzzed queue_cur).Exact ∧
      ((s.fuzzed queue_cur).pending_favored ≠ s.pending_favored → s.pending_favored ≠ 0) := by
  set es' : Entries := Function.update s.entries queue_cur { s.entries queue_cur with was_fuzzed := true } with hes
  have hother : ∀ e, e ≠ queue_cur → es' e = s.entries e := fun e he => Function.update_of_ne he ..
  have hself : es' queue_cur = { s.entries queue_cur with was_fuzzed := true } := Function.update_self ..
  have hfav : es'.favoredCount s.queue = s.entries.favoredCount s.queue := List.countP_congr fun e _ => by
    rw [Entries.favored_fuzz]
  cases hf : (s.entries queue_cur).favored with
  | true =>
    have hcount : s.entries.pendingCount s.queue = es'.pendingCount s.queue + 1 := by
      refine countP_flip hq.nodup hcur ?_ (by simp [hf, hnew]) fun e he => by rw [hother e he]
      rw [hself]
      simp
    have hpos : 0 < s.pending_favored.toNat := by
      rw [he.pending, hcount]
      omega
    have hpending : (s.fuzzed queue_cur).pending_favored = s.pending_favored - 1 := by
      rw [fuzzed, hf]
      rfl
    refine ⟨⟨he.queued.trans hfav.symm, ?_⟩, fun _ h0 => ?_⟩
    · rw [hpending, Entries.toNat_pred hpos, he.pending, hcount]
      rfl
    · rw [h0] at hpos
      exact absurd hpos (Nat.lt_irrefl 0)
  | false =>
    have hpending : (s.fuzzed queue_cur).pending_favored = s.pending_favored := by
      rw [fuzzed, hf]
      rfl
    refine ⟨⟨he.queued.trans hfav.symm, ?_⟩, fun h => absurd hpending h⟩
    rw [hpending, he.pending]
    refine List.countP_congr fun e _ => ?_
    show _ ↔ ((es' e).favored && !(es' e).was_fuzzed) = true
    by_cases heq : e = queue_cur
    · rw [heq, hself]
      simp [hf]
    · rw [hother e heq]

/-- **One call** counts exactly if and only if it meets no entry twice. -/
theorem call_exact_iff {dumb_mode : Bool} {s : Hybrid} (hq : s.Queued) (he : s.Exact) {ev : Call}
    (hv : s.CallValid dumb_mode ev) : s.CountsExactly dumb_mode ev ↔ s.MeetsOnce dumb_mode ev := by
  cases ev with
  | cull_queue => exact cull_exact_iff hq he
  | update_bitmap_score q trace_bits hybrid_bits =>
    refine iff_of_true (fun s' hstep => ?_) trivial
    cases hstep
    have hquiet := s.update_bitmap_score_quiet q trace_bits hybrid_bits
    obtain ⟨h1, h2⟩ := counts_congr hquiet.flags s.queue
    refine ⟨⟨?_, ?_⟩, trivial⟩
    · rw [hquiet.queued_favored, hquiet.queue, h1]
      exact he.queued
    · rw [hquiet.pending_favored, hquiet.queue, h2]
      exact he.pending
  | abandon_entry queue_cur stop_soon cal_failed =>
    refine iff_of_true (fun s' hstep => ?_) trivial
    cases hstep
    cases s.abandon_entry_cases queue_cur stop_soon cal_failed with
    | inl h =>
      rw [h]
      exact ⟨he, fun h => absurd rfl h⟩
    | inr h =>
      rw [h.2]
      exact fuzzed_exact hq he hv h.1
  | other measures added TF_top_null =>
    refine iff_of_true (fun s' hstep => ?_) trivial
    cases hstep
    -- what is added is not favored
    have hadded : ∀ e ∈ added, (s.entries e).favored = false := fun e hm => by
      refine Bool.eq_false_iff.mpr fun hf => ?_
      exact (List.nodup_append.mp hv).2.2 e (hq.favored e hf) e hm rfl
    have hsame : s.entries.SameFlags (s.entries.measure measures) := fun _ => ⟨rfl, rfl⟩
    obtain ⟨h1, h2⟩ := counts_congr hsame (s.queue ++ added)
    obtain ⟨h3, h4⟩ := counts_append s.queue hadded
    exact ⟨⟨he.queued.trans (h1.trans h3).symm, he.pending.trans (h2.trans h4).symm⟩, trivial⟩

/-- **The favored counters** are exact in all of a run, and `pending_favored` is never decremented below zero,
exactly when each cull that goes over `top_rated_orig` meets no entry twice. -/
theorem favored_counts_iff (dumb_mode : Bool) {s : Hybrid} (hs : s.Starts) {evs : List Call}
    (hv : Each (call dumb_mode) (CallValid dumb_mode) s evs) :
    Each (call dumb_mode) (CountsExactly dumb_mode) s evs ↔ Each (call dumb_mode) (MeetsOnce dumb_mode) s evs := by
  refine each_iff (I := fun s => s.Queued ∧ s.Exact) (fun s ev hs hev => call_exact_iff hs.1 hs.2 hev)
    (fun s ev s' hs hev honce hstep => ⟨call_queued hs.1 hev hstep, ?_⟩) ⟨hs.queued, hs.exact⟩ hv
  exact ((call_exact_iff hs.1 hs.2 hev).mpr honce s' hstep).1

theorem bytesOneTwo_eq_zero {i : ℕ} (hi : 3 ≤ i) : bytesOneTwo i = 0 := if_neg (by omega)

/-- What `other` makes of a fuzzer when `TF_top_null` is set. -/
def afterCycle (s : Hybrid) (measures : ℕ → Measure) : Hybrid :=
  { s with entries := s.entries.measure measures, queue := s.queue ++ [], TF_top_null := true }

/-- Two entries take slots of their own, and their `trace_mini` has them. -/
theorem scored_apart :
    let s := ((init (fun _ => added true) [0, 1]).update_bitmap_score true 0 byteZero fun _ => 0).update_bitmap_score
      true 1 bytesOneTwo fun _ => 0
    s.top_rated_orig =
        Function.update (Function.update (Function.update (fun _ => none) 0 (some 0)) 1 (some 1)) 2 (some 1) ∧
      (s.entries 0).trace_mini = some (minimize_bits byteZero) ∧
      (s.entries 1).trace_mini = some (minimize_bits bytesOneTwo) := by
  have hthree : 3 ≤ MAP_SIZE := by
    rw [MAP_SIZE_eq]
    decide
  intro s
  rw [show s = _ from update_bitmap_score_first _ true 1 _ hthree fun _ => bytesOneTwo_eq_zero,
    update_bitmap_score_byteZero]
  exact ⟨rfl, rfl, rfl⟩

/-- A cull over the three slots meets no entry twice. -/
theorem meetsOnce_of_apart {s : Hybrid} (measures : ℕ → Measure)
    (htop : s.top_rated_orig =
      Function.update (Function.update (Function.update (fun _ => none) 0 (some 0)) 1 (some 1)) 2 (some 1))
    (hzero : (s.entries 0).trace_mini = some (minimize_bits byteZero))
    (hone : (s.entries 1).trace_mini = some (minimize_bits bytesOneTwo)) :
    (s.afterCycle measures).MeetsOnce false .cull_queue := by
  refine fun _ _ _ => metOnce_of_covers fun i _ j _ hi hij => ?_
  -- the winner of slot `j` has it in its `trace_mini`
  have hown : ∀ w, s.top_rated_orig j = some w → ∃ mini, (s.entries w).trace_mini = some mini ∧ mini j = true := by
    intro w hw
    rw [htop] at hw
    by_cases h2 : j = 2
    · subst h2
      obtain rfl : 1 = w := Option.some_inj.mp hw
      exact ⟨_, hone, by decide⟩
    · rw [Function.update_of_ne h2] at hw
      by_cases h1 : j = 1
      · subst h1
        obtain rfl : 1 = w := Option.some_inj.mp hw
        exact ⟨_, hone, by decide⟩
      · rw [Function.update_of_ne h1] at hw
        by_cases h0 : j = 0
        · subst h0
          obtain rfl : 0 = w := Option.some_inj.mp hw
          exact ⟨_, hzero, by decide⟩
        · rw [Function.update_of_ne h0] at hw
          cases hw
  obtain ⟨w, hw⟩ := Option.ne_none_iff_exists'.mp hi
  obtain ⟨mini, hmini, hbit⟩ := hown w (hij.symm.trans hw)
  exact ⟨w, mini, hw, hmini, hbit⟩

/-- Two entries hold three slots, and a cull over `top_rated_orig` counts each once. -/
theorem favored_counts_two :
    Each (call false) (CountsExactly false) (init (fun _ => added true) [0, 1])
      [.update_bitmap_score 0 byteZero fun _ => 0, .update_bitmap_score 1 bytesOneTwo fun _ => 0,
        .other (fun _ => ⟨1, true, 1⟩) [] true, .cull_queue] := by
  obtain ⟨htop, hzero, hone⟩ := scored_apart
  set s₀ := init (fun _ => added true) [0, 1] with hs₀
  have hstep₀ : s₀.call false (.update_bitmap_score 0 byteZero fun _ => 0) =
    some (s₀.update_bitmap_score true 0 byteZero fun _ => 0) := rfl
  have hquiet₁ := s₀.update_bitmap_score_quiet 0 byteZero fun _ => 0
  generalize s₀.update_bitmap_score true 0 byteZero (fun _ => 0) = s₁ at *
  have hstep₁ : s₁.call false (.update_bitmap_score 1 bytesOneTwo fun _ => 0) =
    some (s₁.update_bitmap_score true 1 bytesOneTwo fun _ => 0) := rfl
  have hquiet₂ := s₁.update_bitmap_score_quiet 1 bytesOneTwo fun _ => 0
  generalize s₁.update_bitmap_score true 1 bytesOneTwo (fun _ => 0) = s₂ at *
  have hstep₂ : s₂.call false (.other (fun _ => ⟨1, true, 1⟩) [] true) = some (s₂.afterCycle fun _ => ⟨1, true, 1⟩) :=
    rfl
  have hqueue : s₂.queue = [0, 1] := hquiet₂.queue.trans hquiet₁.queue
  refine (favored_counts_iff false (init_starts (fun _ => true) (by decide)) ?_).mpr ?_
  · rw [each_cons_some hstep₀, each_cons_some hstep₁, each_cons_some hstep₂, each_singleton]
    refine ⟨⟨by decide, nofun⟩, ⟨?_, nofun⟩, ?_, trivial⟩
    · rw [hquiet₁.queue]
      decide
    · show (s₂.queue ++ []).Nodup
      rw [hqueue]
      decide
  · rw [each_cons_some hstep₀, each_cons_some hstep₁, each_cons_some hstep₂, each_singleton]
    exact ⟨trivial, trivial, trivial, meetsOnce_of_apart (fun _ => ⟨1, true, 1⟩) htop hzero hone⟩

/-- An entry that is scored again, with another trace, keeps the `trace_mini` of the first one. -/
theorem scored_again :
    let s := ((init (fun _ => added true) [0]).update_bitmap_score true 0 byteZero fun _ => 0).update_bitmap_score
      true 0 bytesOneTwo fun _ => 0
    s.score_changed = false ∧ (s.entries 0).trace_mini = some (minimize_bits byteZero) ∧
      s.top_rated_orig 1 = some 0 ∧ s.top_rated_orig 2 = some 0 := by
  have hthree : 3 ≤ MAP_SIZE := by
    rw [MAP_SIZE_eq]
    decide
  intro s
  rw [show s = _ from update_bitmap_score_first _ true 0 _ hthree fun _ => bytesOneTwo_eq_zero,
    update_bitmap_score_byteZero]
  exact ⟨rfl, rfl, rfl, rfl⟩

/-- An entry that holds the slots 1 and 2 and has neither in its `trace_mini` is counted twice. -/
theorem not_countsExactly_of_uncovered {s : Hybrid} (measures : ℕ → Measure) (hq : (s.afterCycle measures).Queued)
    (he : (s.afterCycle measures).Exact) (hclean : s.score_changed = false)
    (hmini : (s.entries 0).trace_mini = some (minimize_bits byteZero)) (hone : s.top_rated_orig 1 = some 0)
    (htwo : s.top_rated_orig 2 = some 0) (honly : ∀ i w, s.top_rated_orig i = some w → w = 0) :
    ¬ (s.afterCycle measures).CountsExactly false .cull_queue := by
  intro hcounts
  set es := s.entries.measure measures with hes
  have hmini' : (es 0).trace_mini = some (minimize_bits byteZero) := hmini
  have hnotcov : ∀ j i, i ≠ 0 → ¬ Covers es s.top_rated_orig j i := by
    rintro j i hi ⟨w, mini, hw, hm, hb⟩
    rw [honly j w hw, hmini'] at hm
    rw [← Option.some_inj.mp hm, minimize_bits, byteZero, if_neg hi] at hb
    exact absurd hb (by decide)
  have hmet : ∀ i, i ≠ 0 → s.top_rated_orig i = some 0 → Met es s.top_rated_orig i := fun i hi h => by
    rw [Met]
    exact ⟨h ▸ Option.some_ne_none 0, fun j _ _ => hnotcov j i hi⟩
  have hkept : MetKept es s.top_rated_orig MAP_SIZE := fun i _ _ w hw h => by
    rw [honly i w hw, hmini'] at h
    exact absurd h (Option.some_ne_none _)
  have hsize := MAP_SIZE_eq
  have honce := (cull_exact_iff hq he).mp hcounts rfl (.inr hclean) hkept
  exact absurd (honce 1 (by omega) 2 (by omega) (hmet 1 (by decide) hone) (hmet 2 (by decide) htwo)
    (hone.trans htwo.symm)) (by decide)

/-- The entry that is scored again is counted twice at the next cull over `top_rated_orig`. -/
theorem not_favored_counts : ¬ ∀ (dumb_mode : Bool) (s : Hybrid), s.Starts → ∀ evs : List Call,
    Each (call dumb_mode) (CallValid dumb_mode) s evs → Each (call dumb_mode) (CountsExactly dumb_mode) s evs := by
  intro hall
  obtain ⟨hclean, hmini, hone, htwo⟩ := scored_again
  set s₀ := init (fun _ => added true) [0] with hs₀
  have hstarts : s₀.Starts := init_starts (fun _ => true) (by decide)
  have hstep₀ : s₀.call false (.update_bitmap_score 0 byteZero fun _ => 0) =
    some (s₀.update_bitmap_score true 0 byteZero fun _ => 0) := rfl
  have hquiet₁ := s₀.update_bitmap_score_quiet 0 byteZero fun _ => 0
  generalize s₀.update_bitmap_score true 0 byteZero (fun _ => 0) = s₁ at *
  have hstep₁ : s₁.call false (.update_bitmap_score 0 bytesOneTwo fun _ => 0) =
    some (s₁.update_bitmap_score true 0 bytesOneTwo fun _ => 0) := rfl
  have hquiet₂ := s₁.update_bitmap_score_quiet 0 bytesOneTwo fun _ => 0
  generalize s₁.update_bitmap_score true 0 bytesOneTwo (fun _ => 0) = s₂ at *
  have hstep₂ : s₂.call false (.other (fun _ => ⟨1, true, 1⟩) [] true) = some (s₂.afterCycle fun _ => ⟨1, true, 1⟩) :=
    rfl
  have hv₀ : s₀.CallValid false (.update_bitmap_score 0 byteZero fun _ => 0) := ⟨List.mem_singleton.mpr rfl, nofun⟩
  have hv₁ : s₁.CallValid false (.update_bitmap_score 0 bytesOneTwo fun _ => 0) := ⟨hquiet₁.queue ▸ hv₀.1, nofun⟩
  have hq₁ : s₁.Queued := call_queued hstarts.queued hv₀ hstep₀
  have he₁ : s₁.Exact := ((call_exact_iff hstarts.queued hstarts.exact hv₀).mpr trivial _ hstep₀).1
  have hq₂ : s₂.Queued := call_queued hq₁ hv₁ hstep₁
  have he₂ : s₂.Exact := ((call_exact_iff hq₁ he₁ hv₁).mpr trivial _ hstep₁).1
  have hv₂ : s₂.CallValid false (.other (fun _ => ⟨1, true, 1⟩) [] true) := by
    show (s₂.queue ++ []).Nodup
    rw [List.append_nil]
    exact hq₂.nodup
  have hrun := hall false s₀ hstarts [.update_bitmap_score 0 byteZero fun _ => 0,
    .update_bitmap_score 0 bytesOneTwo fun _ => 0, .other (fun _ => ⟨1, true, 1⟩) [] true, .cull_queue] (by
      rw [each_cons_some hstep₀, each_cons_some hstep₁, each_cons_some hstep₂, each_singleton]
      exact ⟨hv₀, hv₁, hv₂, trivial⟩)
  rw [each_cons_some hstep₀, each_cons_some hstep₁, each_cons_some hstep₂, each_singleton] at hrun
  obtain ⟨-, -, -, hlast⟩ := hrun
  refine not_countsExactly_of_uncovered _ (call_queued hq₂ hv₂ hstep₂)
    ((call_exact_iff hq₂ he₂ hv₂).mpr trivial _ hstep₂).1 hclean hmini hone htwo (fun i w hw => ?_) hlast
  -- nobody else was scored
  rcases hquiet₂.holds w i (.inr hw) with h | h
  · exact h
  · rcases hquiet₁.holds w i h with h | h
    · exact h
    · cases h <;> contradiction

end Hybrid

end SEDiff.Afl
