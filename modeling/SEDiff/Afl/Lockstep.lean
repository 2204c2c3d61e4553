import SEDiff.Afl.Runs

/-!
# The hybrid fuzzer with `TF_switch` off

The hybrid fuzzer keeps the "original mode" of `update_bitmap_score` under `TF_switch`, but only
the code for `TF_switch` on gives a slot of `top_rated` to an entry.

## What is proved

* `lockstep_iff` — with `TF_switch` off, the hybrid fuzzer agrees with the base fuzzer after a run
  exactly when every trace map that was scored in it is empty.
-/

namespace SEDiff.Afl

open Foundation

namespace Fuzzer

/-- The slots of the base fuzzer are what the hybrid fuzzer records in `top_rated_orig`. -/
def recorded (s : Fuzzer) : Hybrid :=
  { s with
    top_rated := fun _ => none
    top_rated_orig := s.top_rated
    max_hybrid := fun _ => 0
    TF_top_null := false }

/-- The base fuzzer decides a slot as `record_orig` does. -/
theorem update_slot_recorded (q : ℕ) (fav_factor : UInt64) {trace_bits : ℕ → UInt8} (s : Fuzzer) {i : ℕ}
    (htr : trace_bits i ≠ 0) :
    (update_slot q fav_factor trace_bits s i).top_rated =
        (Hybrid.record_orig q fav_factor trace_bits s.recorded i).top_rated_orig ∧
      (update_slot q fav_factor trace_bits s i).entries =
        (Hybrid.record_orig q fav_factor trace_bits s.recorded i).entries := by
  have ho : s.recorded.top_rated_orig i = s.top_rated i := rfl
  rw [update_slot, if_neg htr, Hybrid.record_orig, ho]
  cases s.top_rated i with
  | none => exact ⟨rfl, rfl⟩
  | some w =>
    by_cases hgt : fav_factor > (s.entries w).fav_factor
    · have hgt' : fav_factor > (s.recorded.entries w).fav_factor := hgt
      simp only [if_pos hgt, if_pos hgt']
      exact ⟨rfl, rfl⟩
    · have hgt' : ¬ fav_factor > (s.recorded.entries w).fav_factor := hgt
      simp only [if_neg hgt, if_neg hgt']
      exact ⟨rfl, rfl⟩

/-- One slot of the base fuzzer keeps the counts right. -/
theorem update_slot_refInv {s : Fuzzer} (hs : s.recorded.RefInv) {q i : ℕ} (hi : i < MAP_SIZE)
    (trace_bits : ℕ → UInt8) :
    (update_slot q (s.entries q).fav_factor trace_bits s i).recorded.RefInv ∧
      s.entries.SameScore (update_slot q (s.entries q).fav_factor trace_bits s i).entries := by
  by_cases htr : trace_bits i = 0
  · rw [update_slot, if_pos htr]
    exact ⟨hs, .refl _⟩
  obtain ⟨htop, hent⟩ := update_slot_recorded q (s.entries q).fav_factor s htr
  let r := Hybrid.record_orig q (s.entries q).fav_factor trace_bits s.recorded i
  have hr : r.RefInv ∧ r.top_rated = s.recorded.top_rated ∧ s.entries.SameScore r.entries := by
    have hfav : (s.recorded.entries q).fav_factor = (s.entries q).fav_factor := rfl
    by_cases hb : s.recorded.Beaten q i
    · have hrec : r = s.recorded := by
        have := Hybrid.record_orig_of_beaten hb trace_bits
        rwa [hfav] at this
      rw [hrec]
      exact ⟨hs, rfl, .refl _⟩
    · obtain ⟨he, -, hmini⟩ := Hybrid.record_orig_effect hi hb trace_bits
      rw [hfav] at he hmini
      have hsd : r.Sound q := he.sound ⟨hs.counted, hs.freed, fun e _ => hs.kept e⟩
      refine ⟨⟨hsd.counted, fun e => ?_, hsd.freed⟩, ?_, he.score⟩
      · by_cases heq : e = q
        · exact heq ▸ fun _ => hmini
        · exact hsd.kept e heq
      · rcases Hybrid.record_orig_of_not_beaten hb trace_bits with ⟨-, hrec⟩ | ⟨w, -, hrec⟩
        · rw [hfav] at hrec
          simp only [r, hrec]
          rfl
        · rw [hfav] at hrec
          simp only [r, hrec]
          rfl
  refine ⟨hr.1.congr hr.2.1.symm htop ?_, ?_⟩
  · show r.entries.SameRefs (update_slot q (s.entries q).fav_factor trace_bits s i).entries
    rw [hent]
    exact .refl _
  · rw [hent]
    exact hr.2.2

/-- The base fuzzer keeps the counts right. -/
theorem update_bitmap_score_refInv {s : Fuzzer} (hs : s.recorded.RefInv) (q : ℕ)
    (trace_bits : ℕ → UInt8) : (s.update_bitmap_score q trace_bits).recorded.RefInv := by
  have hloop : ∀ k ≤ MAP_SIZE,
      let s' := (List.range k).foldl (update_slot q (s.entries q).fav_factor trace_bits) s
      s'.recorded.RefInv ∧ s.entries.SameScore s'.entries := by
    intro k
    induction k with
    | zero => exact fun _ => ⟨hs, .refl _⟩
    | succ k ih =>
      intro hk
      obtain ⟨hinv, hscore⟩ := ih (by omega)
      rw [List.range_succ, List.foldl_append, List.foldl_cons, List.foldl_nil]
      have hstep := update_slot_refInv hinv (q := q) (show k < MAP_SIZE from hk) trace_bits
      rw [(hscore q).1] at hstep
      exact ⟨hstep.1, hscore.trans hstep.2⟩
  exact (hloop MAP_SIZE le_rfl).1

/-- A slot that is taken stays taken, and slot `i` is taken where the trace map has a byte. -/
theorem update_slot_taken {s : Fuzzer} {q : ℕ} {fav_factor : UInt64} {trace_bits : ℕ → UInt8} {i j : ℕ}
    (hj : s.top_rated j ≠ none ∨ (j = i ∧ trace_bits i ≠ 0)) :
    (update_slot q fav_factor trace_bits s i).top_rated j ≠ none := by
  by_cases htr : trace_bits i = 0
  · rw [update_slot, if_pos htr]
    exact hj.resolve_right fun h => h.2 htr
  rw [update_slot, if_neg htr]
  have hwin : Function.update s.top_rated i (some q) j ≠ none := by
    by_cases hji : j = i
    · rw [hji, Function.update_self]
      exact Option.some_ne_none q
    · rw [Function.update_of_ne hji]
      exact hj.resolve_right fun h => hji h.1
  cases hw : s.top_rated i with
  | none => exact hwin
  | some w =>
    simp only
    split_ifs
    · rcases hj with hj | ⟨rfl, -⟩
      · exact hj
      · rw [hw]
        exact Option.some_ne_none w
    · exact hwin

theorem foldl_update_slot_taken {s : Fuzzer} {q : ℕ} {fav_factor : UInt64} {trace_bits : ℕ → UInt8}
    (is : List ℕ) {j : ℕ} (hj : s.top_rated j ≠ none ∨ (j ∈ is ∧ trace_bits j ≠ 0)) :
    (is.foldl (update_slot q fav_factor trace_bits) s).top_rated j ≠ none := by
  induction is generalizing s with
  | nil => exact hj.resolve_right fun h => List.not_mem_nil h.1
  | cons i is ih =>
    refine ih ?_
    rcases hj with hj | ⟨hm, htr⟩
    · exact .inl (update_slot_taken (.inl hj))
    · rcases List.mem_cons.mp hm with rfl | hm
      · exact .inl (update_slot_taken (.inr ⟨rfl, htr⟩))
      · exact .inr ⟨hm, htr⟩

/-- A trace map without a byte changes nothing. -/
theorem update_bitmap_score_zero (s : Fuzzer) (q : ℕ) {trace_bits : ℕ → UInt8}
    (hz : ∀ i < MAP_SIZE, trace_bits i = 0) : s.update_bitmap_score q trace_bits = s := by
  have hfold : ∀ is : List ℕ, (∀ i ∈ is, i < MAP_SIZE) →
      is.foldl (update_slot q (s.entries q).fav_factor trace_bits) s = s := by
    intro is his
    induction is with
    | nil => rfl
    | cons i is ih =>
      rw [List.foldl_cons, update_slot, if_pos (hz i (his i List.mem_cons_self))]
      exact ih fun j hj => his j (List.mem_cons_of_mem _ hj)
  exact hfold _ fun i hi => List.mem_range.mp hi

/-- Culling succeeds when every winner has a `trace_mini`. -/
theorem cull_queue_ok {s : Fuzzer} (dumb_mode : Bool)
    (hw : ∀ i < MAP_SIZE, ∀ w, s.top_rated i = some w → (s.entries w).trace_mini ≠ none) :
    ∃ s', s.cull_queue dumb_mode = some s' ∧ s'.top_rated = s.top_rated ∧
      s.entries.SameRefs s'.entries := by
  unfold cull_queue
  split_ifs
  · exact ⟨s, rfl, rfl, .refl _⟩
  · obtain ⟨c, hrun, hsame⟩ := pick_all_ok s.queue hw
    rw [hrun]
    exact ⟨_, rfl, rfl, hsame.trans (Entries.sameRefs_mark _ _)⟩

end Fuzzer

namespace Hybrid

/-- With `TF_switch` off no empty slot is ever taken. -/
theorem update_slot_off {s : Hybrid} {i : ℕ} (hs : s.top_rated i = none) (q : ℕ) (fav_factor : UInt64)
    (trace_bits : ℕ → UInt8) (hybrid_bits : ℕ → UInt32) :
    update_slot false q fav_factor trace_bits hybrid_bits s i = s := by
  by_cases htr : trace_bits i = 0
  · rw [update_slot, if_pos htr]
  · rw [update_slot, if_neg htr, hs]
    rfl

theorem update_bitmap_score_off {s : Hybrid} (hs : ∀ i, s.top_rated i = none) (q : ℕ)
    (trace_bits : ℕ → UInt8) (hybrid_bits : ℕ → UInt32) :
    s.update_bitmap_score false q trace_bits hybrid_bits = s := by
  unfold update_bitmap_score
  induction List.range MAP_SIZE with
  | nil => rfl
  | cons i is ih =>
    rw [List.foldl_cons, update_slot_off (hs i)]
    exact ih

/-- With `TF_switch` off culling is that of the base fuzzer. -/
theorem cull_queue_off (s : Hybrid) (dumb_mode : Bool) :
    (s.cull_queue false dumb_mode).map Hybrid.toFuzzer = s.toFuzzer.cull_queue dumb_mode := by
  have haltern : ∀ t : Hybrid, t.altern false = some t := fun _ => rfl
  unfold cull_queue Fuzzer.cull_queue
  by_cases hskip : (dumb_mode || !s.score_changed) = true
  · rw [if_pos hskip, if_pos hskip, haltern]
    rfl
  · rw [if_neg hskip, if_neg hskip, if_neg Bool.false_ne_true]
    show ((pick_all s.entries s.queue s.top_rated).bind fun c => _).map Hybrid.toFuzzer =
      (pick_all s.entries s.queue s.top_rated).bind fun c => _
    cases pick_all s.entries s.queue s.top_rated with
    | none => rfl
    | some c => rfl

end Hybrid

/-! ### Runs -/

/-- The hybrid fuzzer shows what the base fuzzer shows. -/
structure Agree (b : Fuzzer) (h : Hybrid) : Prop where
  /-- The winners. -/
  top_rated : ∀ i < MAP_SIZE, h.top_rated i = b.top_rated i
  /-- The reference counts. -/
  tc_ref : ∀ e, (h.entries e).tc_ref = (b.entries e).tc_ref
  /-- The traces. -/
  trace_mini : ∀ e, (h.entries e).trace_mini = (b.entries e).trace_mini
  /-- The favored entries. -/
  favored : ∀ e, (h.entries e).favored = (b.entries e).favored
  /-- Whether scores changed. -/
  score_changed : h.score_changed = b.score_changed
  /-- The number of favored entries. -/
  queued_favored : h.queued_favored = b.queued_favored
  /-- The number of pending ones. -/
  pending_favored : h.pending_favored = b.pending_favored

/-- The event scores no byte. -/
def Event.Blank : Event → Prop
  | .update _ trace_bits _ => ∀ i < MAP_SIZE, trace_bits i = 0
  | _ => True

/-- Two fuzzers in the same run. -/
structure Lock (b : Fuzzer) (h : Hybrid) : Prop where
  /-- The counts of the base fuzzer are right. -/
  refInv : b.recorded.RefInv
  /-- The hybrid fuzzer has no winners. -/
  empty : ∀ i, h.top_rated i = none

/-- The base fuzzer has a winner. -/
def Taken (b : Fuzzer) : Prop := ∃ i < MAP_SIZE, b.top_rated i ≠ none

/-- What happens to both fuzzers while `blank` says whether the events score no byte. -/
structure Stride (blank : Prop) (b : Fuzzer) (h : Hybrid) (b' : Fuzzer) (h' : Hybrid) : Prop where
  /-- They stay locked. -/
  lock : Lock b' h'
  /-- A winner stays. -/
  taken : Taken b → Taken b'
  /-- A byte makes a winner. -/
  scored : ¬ blank → Taken b'
  /-- Without a byte they do the same. -/
  same : h.toFuzzer = b → blank → h'.toFuzzer = b'

/-- One event of both fuzzers. -/
theorem step_lock {b : Fuzzer} {h : Hybrid} (hl : Lock b h) (dumb_mode : Bool) (ev : Event) :
    ∃ b' h', b.step dumb_mode ev = some b' ∧ h.step false dumb_mode ev = some h' ∧
      Stride ev.Blank b h b' h' := by
  cases ev with
  | update q trace_bits hybrid_bits =>
    refine ⟨_, h, rfl, ?_, ⟨Fuzzer.update_bitmap_score_refInv hl.refInv q trace_bits, hl.empty⟩, ?_, ?_, ?_⟩
    · rw [Hybrid.step, Hybrid.update_bitmap_score_off hl.empty]
    · rintro ⟨i, hi, ht⟩
      exact ⟨i, hi, Fuzzer.foldl_update_slot_taken _ (.inl ht)⟩
    · intro hb
      simp only [Event.Blank, not_forall] at hb
      obtain ⟨i, hi, htr⟩ := hb
      exact ⟨i, hi, Fuzzer.foldl_update_slot_taken _ (.inr ⟨List.mem_range.mpr hi, htr⟩)⟩
    · intro heq hb
      rw [Fuzzer.update_bitmap_score_zero b q hb, heq]
  | cull =>
    obtain ⟨b', hrun, htop, hsame⟩ := Fuzzer.cull_queue_ok (s := b) dumb_mode fun i hi w hw =>
      hl.refInv.trace_mini hi (.inr hw)
    obtain ⟨f, hrun_f, htop_f, -⟩ := Fuzzer.cull_queue_ok (s := h.toFuzzer) dumb_mode fun i _ w hw =>
      absurd ((hl.empty i).symm.trans hw) (Option.some_ne_none w).symm
    have hoff := Hybrid.cull_queue_off h dumb_mode
    rw [hrun_f] at hoff
    obtain ⟨h', hrun_h, rfl⟩ := Option.map_eq_some_iff.mp hoff
    refine ⟨b', h', hrun, hrun_h, ⟨hl.refInv.congr rfl htop hsame, fun i => ?_⟩, ?_, ?_, ?_⟩
    · rw [htop_f]
      exact hl.empty i
    · rintro ⟨i, hi, ht⟩
      exact ⟨i, hi, htop ▸ ht⟩
    · exact fun hb => absurd trivial hb
    · intro heq _
      rw [heq, hrun] at hrun_f
      exact (Option.some_inj.mp hrun_f).symm
  | other attrs queue TF_top_null pending =>
    refine ⟨_, _, rfl, rfl, ⟨hl.refInv.congr rfl rfl (Entries.sameRefs_assign _ _), hl.empty⟩, id,
      fun hb => absurd trivial hb, fun heq _ => ?_⟩
    subst heq
    rfl

/-- A run of both fuzzers. -/
theorem run_lock {b : Fuzzer} {h : Hybrid} (hl : Lock b h) (dumb_mode : Bool) (evs : List Event) :
    ∃ b' h', b.run dumb_mode evs = some b' ∧ h.run false dumb_mode evs = some h' ∧
      Stride (∀ ev ∈ evs, ev.Blank) b h b' h' := by
  induction evs generalizing b h with
  | nil => exact ⟨b, h, rfl, rfl, hl, id, fun hb => absurd (List.forall_mem_nil _) hb, fun heq _ => heq⟩
  | cons ev evs ih =>
    obtain ⟨b₁, h₁, hstep_b, hstep_h, h₀₁⟩ := step_lock hl dumb_mode ev
    obtain ⟨b', h', hrun_b, hrun_h, h₁'⟩ := ih h₀₁.lock
    refine ⟨b', h', ?_, ?_, h₁'.lock, fun ht => h₁'.taken (h₀₁.taken ht), fun hb => ?_, fun heq hb => ?_⟩
    · rw [Fuzzer.run, List.foldlM_cons, hstep_b]
      exact hrun_b
    · rw [Hybrid.run, List.foldlM_cons, hstep_h]
      exact hrun_h
    · rw [List.forall_mem_cons, not_and_or] at hb
      cases hb with
      | inl hev => exact h₁'.taken (h₀₁.scored hev)
      | inr hevs => exact h₁'.scored hevs
    · rw [List.forall_mem_cons] at hb
      exact h₁'.same (h₀₁.same heq hb.1) hb.2

theorem lock_init {entries : Entries} (hf : entries.Fresh) (queue : List ℕ) :
    Lock (Fuzzer.init entries queue) (Hybrid.init entries queue) :=
  ⟨Hybrid.refInv_init hf queue, fun _ => rfl⟩

/-- **The switch off**: after any run the hybrid fuzzer agrees with the base fuzzer exactly when no
trace map scored in the run had a byte set. -/
theorem lockstep_iff (dumb_mode : Bool) {entries : Entries} (hf : entries.Fresh) (queue : List ℕ)
    (evs : List Event) :
    ∃ b h, (Fuzzer.init entries queue).run dumb_mode evs = some b ∧
      (Hybrid.init entries queue).run false dumb_mode evs = some h ∧
      (Agree b h ↔ ∀ ev ∈ evs, ev.Blank) := by
  obtain ⟨b, h, hrun_b, hrun_h, hs⟩ := run_lock (lock_init hf queue) dumb_mode evs
  refine ⟨b, h, hrun_b, hrun_h, fun ha => ?_, fun hb => ?_⟩
  · by_contra hb
    obtain ⟨i, hi, ht⟩ := hs.scored hb
    exact ht ((ha.top_rated i hi).symm.trans (hs.lock.empty i))
  · have heq : h.toFuzzer = b := hs.same rfl hb
    subst heq
    exact ⟨fun _ _ => rfl, fun _ => rfl, fun _ => rfl, fun _ => rfl, rfl, rfl, rfl⟩

theorem lockstep_iff_cull_only : ∃ b h,
    (Fuzzer.init (fun _ => added false) [0, 1]).run false [.cull, .update 1 (fun _ => 0) (fun _ => 7), .cull] =
      some b ∧
    (Hybrid.init (fun _ => added false) [0, 1]).run false false
      [.cull, .update 1 (fun _ => 0) (fun _ => 7), .cull] = some h ∧ Agree b h := by
  obtain ⟨b, h, hrun_b, hrun_h, hiff⟩ := @lockstep_iff false (fun _ => added false)
    (fun _ => ⟨rfl, rfl⟩) [0, 1] [.cull, .update 1 (fun _ => 0) (fun _ => 7), .cull]
  refine ⟨b, h, hrun_b, hrun_h, hiff.mpr ?_⟩
  simp [Event.Blank]

/-- With one byte set the base fuzzer has a winner, and the hybrid fuzzer has none. -/
theorem not_lockstep : ¬ ∀ (dumb_mode : Bool) (entries : Entries), entries.Fresh →
    ∀ (queue : List ℕ) (evs : List Event), ∃ b h,
      (Fuzzer.init entries queue).run dumb_mode evs = some b ∧
      (Hybrid.init entries queue).run false dumb_mode evs = some h ∧ Agree b h := by
  intro hall
  obtain ⟨b, h, hrun_b, hrun_h, ha⟩ := hall false (fun _ => added false) (fun _ => ⟨rfl, rfl⟩) [0]
    [.update 0 byteZero fun _ => 0]
  have hb : (Fuzzer.init (fun _ => added false) [0]).update_bitmap_score 0 byteZero = b :=
    Option.some_inj.mp hrun_b
  have hh : (Hybrid.init (fun _ => added false) [0]).update_bitmap_score false 0 byteZero (fun _ => 0) = h :=
    Option.some_inj.mp hrun_h
  rw [Hybrid.update_bitmap_score_off fun _ => rfl] at hh
  have hpos : 0 < MAP_SIZE := by
    rw [MAP_SIZE_eq]
    decide
  have htaken : b.top_rated 0 ≠ none := by
    rw [← hb]
    exact Fuzzer.foldl_update_slot_taken _ (.inr ⟨List.mem_range.mpr hpos, by decide⟩)
  refine htaken ?_
  rw [← ha.top_rated 0 hpos, ← hh]
  rfl

end SEDiff.Afl
