import SEDiff.Foundation.Slots
import SEDiff.Afl.Hybrid
import Mathlib.Tactic.Push

/-!
# Reference counts of queue entries

An entry's `tc_ref` is meant to count the slots that hold it, and its `trace_mini` to be there
exactly while some slot does.

## What is proved

* `Entries.Counted.release`, `Entries.Counted.count` — what the updates of an entry do to a
  count of the slots.
* `Hybrid.update_bitmap_score_refInv` — a call that takes and gives up slots in balance keeps every count right.
-/

namespace SEDiff.Afl

open Foundation

namespace Entries

/-- `tc_ref` counts `refs`. -/
def Counted (es : Entries) (refs : ℕ → ℕ) : Prop := ∀ e, (es e).tc_ref.toNat = refs e

/-- `trace_mini` is there when the entry is held. -/
def Kept (es : Entries) (refs : ℕ → ℕ) (e : ℕ) : Prop := 0 < refs e → (es e).trace_mini ≠ none

/-- `trace_mini` is freed when the entry is not held. -/
def Freed (es : Entries) (refs : ℕ → ℕ) : Prop := ∀ e, refs e = 0 → (es e).trace_mini = none

/-- What scoring reads of an entry. -/
def SameScore (es es' : Entries) : Prop :=
  ∀ e, (es' e).fav_factor = (es e).fav_factor ∧ (es' e).has_new_incorrect = (es e).has_new_incorrect

theorem SameScore.refl (es : Entries) : SameScore es es := fun _ => ⟨rfl, rfl⟩

theorem SameScore.trans {es₁ es₂ es₃ : Entries} (h₁₂ : SameScore es₁ es₂) (h₂₃ : SameScore es₂ es₃) :
    SameScore es₁ es₃ :=
  fun e => ⟨(h₂₃ e).1.trans (h₁₂ e).1, (h₂₃ e).2.trans (h₁₂ e).2⟩

/-- An update of one entry that keeps its score. -/
theorem sameScore_update (es : Entries) (w : ℕ) {v : QueueEntry} (hf : v.fav_factor = (es w).fav_factor)
    (hi : v.has_new_incorrect = (es w).has_new_incorrect) : SameScore es (Function.update es w v) := by
  intro e
  by_cases he : e = w
  · subst he
    rw [Function.update_self]
    exact ⟨hf, hi⟩
  · rw [Function.update_of_ne he]
    exact ⟨rfl, rfl⟩

theorem sameScore_release (es : Entries) (w : ℕ) : SameScore es (es.release w) :=
  sameScore_update es w rfl rfl

theorem sameScore_count (es : Entries) (q : ℕ) : SameScore es (es.count q) :=
  sameScore_update es q rfl rfl

theorem sameScore_keep (es : Entries) (q : ℕ) (trace_bits : ℕ → UInt8) :
    SameScore es (es.keep q trace_bits) :=
  sameScore_update es q rfl rfl

@[simp] theorem release_of_ne (es : Entries) {w e : ℕ} (he : e ≠ w) : es.release w e = es e :=
  Function.update_of_ne he ..

@[simp] theorem count_of_ne (es : Entries) {q e : ℕ} (he : e ≠ q) : es.count q e = es e :=
  Function.update_of_ne he ..

@[simp] theorem keep_of_ne (es : Entries) {q e : ℕ} (trace_bits : ℕ → UInt8) (he : e ≠ q) :
    es.keep q trace_bits e = es e :=
  Function.update_of_ne he ..

theorem release_self (es : Entries) (w : ℕ) : es.release w w =
    { es w with
      tc_ref := (es w).tc_ref - 1
      trace_mini := if (es w).tc_ref - 1 = 0 then none else (es w).trace_mini } :=
  Function.update_self ..

theorem count_self (es : Entries) (q : ℕ) : es.count q q = { es q with tc_ref := (es q).tc_ref + 1 } :=
  Function.update_self ..

theorem keep_self (es : Entries) (q : ℕ) (trace_bits : ℕ → UInt8) : es.keep q trace_bits q =
    { es q with trace_mini := some ((es q).trace_mini.getD (minimize_bits trace_bits)) } :=
  Function.update_self ..

/-- Counting down. -/
theorem toNat_pred {x : UInt32} (h : 0 < x.toNat) : (x - 1).toNat = x.toNat - 1 := by
  rw [UInt32.toNat_sub_of_le _ _ (by rw [UInt32.le_iff_toNat_le]; exact h)]
  rfl

theorem toNat_succ {x : UInt32} (h : x.toNat + 1 < 2 ^ 32) : (x + 1).toNat = x.toNat + 1 := by
  rw [UInt32.toNat_add]
  exact Nat.mod_eq_of_lt h

/-- Losing a slot takes one from the count. -/
theorem Counted.release {es : Entries} {refs refs' : ℕ → ℕ} (hc : es.Counted refs) {w : ℕ}
    (hr : ∀ e, refs' e + holds (some w) e = refs e) : (es.release w).Counted refs' := by
  intro e
  have hre := hr e
  by_cases he : e = w
  · subst he
    rw [holds_self] at hre
    rw [release_self]
    show ((es e).tc_ref - 1).toNat = refs' e
    rw [toNat_pred (by rw [hc e]; omega), hc e]
    omega
  · rw [release_of_ne es he, hc e]
    rw [holds_of_ne (Ne.symm he)] at hre
    omega

/-- Gaining a slot adds one to the count. -/
theorem Counted.count {es : Entries} {refs refs' : ℕ → ℕ} (hc : es.Counted refs) {q : ℕ}
    (hr : ∀ e, refs' e = refs e + holds (some q) e) (hlt : refs' q < 2 ^ 32) :
    (es.count q).Counted refs' := by
  intro e
  have hre := hr e
  by_cases he : e = q
  · subst he
    rw [holds_self] at hre
    rw [count_self]
    show ((es e).tc_ref + 1).toNat = refs' e
    rw [toNat_succ (by rw [hc e]; omega), hc e, hre]
  · rw [count_of_ne es he, hc e]
    rw [holds_of_ne (Ne.symm he)] at hre
    omega

theorem Counted.keep {es : Entries} {refs : ℕ → ℕ} (hc : es.Counted refs) (q : ℕ)
    (trace_bits : ℕ → UInt8) : (es.keep q trace_bits).Counted refs := by
  intro e
  by_cases he : e = q
  · subst he
    rw [keep_self]
    exact hc e
  · rw [keep_of_ne es trace_bits he]
    exact hc e

/-- Whoever still has a slot keeps its `trace_mini`. -/
theorem trace_mini_release {es : Entries} {refs refs' : ℕ → ℕ} (hc : es.Counted refs) {w e : ℕ}
    (hr : ∀ e, refs' e + holds (some w) e = refs e) (hpos : 0 < refs' e) :
    (es.release w e).trace_mini = (es e).trace_mini := by
  by_cases he : e = w
  · subst he
    have hce : (es.release e e).tc_ref.toNat = refs' e := hc.release hr e
    rw [release_self] at hce ⊢
    show (if (es e).tc_ref - 1 = 0 then none else (es e).trace_mini) = (es e).trace_mini
    refine if_neg fun h0 => ?_
    simp only [h0, UInt32.toNat_zero] at hce
    omega
  · rw [release_of_ne es he]

/-- Whoever lost its last slot has its `trace_mini` freed. -/
theorem Freed.release {es : Entries} {refs refs' : ℕ → ℕ} (hf : es.Freed refs) (hc : es.Counted refs)
    {w : ℕ} (hr : ∀ e, refs' e + holds (some w) e = refs e) : (es.release w).Freed refs' := by
  intro e h0
  by_cases he : e = w
  · subst he
    have hce : (es.release e e).tc_ref.toNat = refs' e := hc.release hr e
    rw [release_self] at hce ⊢
    refine if_pos (UInt32.toNat_inj.mp ?_)
    rw [h0] at hce
    exact hce
  · rw [release_of_ne es he]
    have hre := hr e
    rw [holds_of_ne (Ne.symm he)] at hre
    exact hf e (by omega)

theorem Kept.release {es : Entries} {refs refs' : ℕ → ℕ} {e w : ℕ} (hk : es.Kept refs e)
    (hc : es.Counted refs) (hr : ∀ e, refs' e + holds (some w) e = refs e) :
    (es.release w).Kept refs' e := by
  intro hpos
  rw [trace_mini_release hc hr hpos]
  have := hr e
  exact hk (by omega)

theorem trace_mini_count (es : Entries) (q e : ℕ) : (es.count q e).trace_mini = (es e).trace_mini := by
  by_cases he : e = q
  · subst he
    rw [count_self]
  · rw [count_of_ne es he]

theorem trace_mini_keep_self (es : Entries) (q : ℕ) (trace_bits : ℕ → UInt8) :
    (es.keep q trace_bits q).trace_mini ≠ none := by
  rw [keep_self]
  exact Option.some_ne_none _

end Entries

namespace Hybrid

/-- How many slots hold `e`. -/
def refs (s : Hybrid) (e : ℕ) : ℕ := slots MAP_SIZE s.top_rated e + slots MAP_SIZE s.top_rated_orig e

theorem refs_lt (s : Hybrid) (e : ℕ) : s.refs e < 2 ^ 32 := by
  have h1 := slots_le MAP_SIZE s.top_rated e
  have h2 := slots_le MAP_SIZE s.top_rated_orig e
  have h3 := MAP_SIZE_eq
  unfold refs
  omega

/-- An entry is held by a slot. -/
def Holds (s : Hybrid) (e i : ℕ) : Prop := s.top_rated i = some e ∨ s.top_rated_orig i = some e

theorem refs_pos_iff {s : Hybrid} {e : ℕ} : 0 < s.refs e ↔ ∃ i < MAP_SIZE, s.Holds e i := by
  have h1 := slots_pos_iff (n := MAP_SIZE) (f := s.top_rated) (e := e)
  have h2 := slots_pos_iff (n := MAP_SIZE) (f := s.top_rated_orig) (e := e)
  rw [refs, Nat.add_pos_iff_pos_or_pos, h1, h2]
  constructor
  · rintro (⟨i, hi, h⟩ | ⟨i, hi, h⟩)
    · exact ⟨i, hi, .inl h⟩
    · exact ⟨i, hi, .inr h⟩
  · rintro ⟨i, hi, h | h⟩
    · exact .inl ⟨i, hi, h⟩
    · exact .inr ⟨i, hi, h⟩

/-- The counts are right, and every entry but `q` has its `trace_mini` exactly while it is held. -/
structure Sound (s : Hybrid) (q : ℕ) : Prop where
  /-- `tc_ref` counts the slots. -/
  counted : s.entries.Counted s.refs
  /-- Entries that are not held are freed. -/
  freed : s.entries.Freed s.refs
  /-- Entries that are held are kept. -/
  kept : ∀ e, e ≠ q → s.entries.Kept s.refs e

/-- The `trace_mini` of `q` is there. -/
def HasMini (s : Hybrid) (q : ℕ) : Prop := (s.entries q).trace_mini ≠ none

/-- What an iteration for slot `k` may do. -/
structure Effect (s : Hybrid) (q k : ℕ) (s' : Hybrid) : Prop where
  /-- Scores stay. -/
  score : s.entries.SameScore s'.entries
  /-- No other slot of `top_rated` changes. -/
  top : ∀ i, i ≠ k → s'.top_rated i = s.top_rated i
  /-- No other slot of `top_rated_orig` changes. -/
  orig : ∀ i, i ≠ k → s'.top_rated_orig i = s.top_rated_orig i
  /-- No other maximum changes. -/
  max : ∀ i, i ≠ k → s'.max_hybrid i = s.max_hybrid i
  /-- The counts stay right. -/
  sound : s.Sound q → s'.Sound q
  /-- An entry that another slot holds is not freed. -/
  anchored : s.Sound q → s.HasMini q → (∃ j < MAP_SIZE, j ≠ k ∧ s.Holds q j) → s'.HasMini q

theorem Effect.refl (s : Hybrid) (q k : ℕ) : s.Effect q k s :=
  ⟨.refl _, fun _ _ => rfl, fun _ _ => rfl, fun _ _ => rfl, id, fun _ hm _ => hm⟩

/-- What another slot holds stays. -/
theorem Effect.holds {s s' : Hybrid} {q k : ℕ} (he : s.Effect q k s') {j : ℕ} (hj : j ≠ k) {e : ℕ} :
    s'.Holds e j ↔ s.Holds e j := by
  rw [Holds, Holds, he.top j hj, he.orig j hj]

theorem Effect.trans {s₁ s₂ s₃ : Hybrid} {q k : ℕ} (h₁₂ : s₁.Effect q k s₂) (h₂₃ : s₂.Effect q k s₃) :
    s₁.Effect q k s₃ := by
  refine ⟨h₁₂.score.trans h₂₃.score, fun i hi => (h₂₃.top i hi).trans (h₁₂.top i hi),
    fun i hi => (h₂₃.orig i hi).trans (h₁₂.orig i hi), fun i hi => (h₂₃.max i hi).trans (h₁₂.max i hi),
    fun hs => h₂₃.sound (h₁₂.sound hs), fun hs hm hj => ?_⟩
  refine h₂₃.anchored (h₁₂.sound hs) (h₁₂.anchored hs hm hj) ?_
  obtain ⟨j, hjn, hjk, hjq⟩ := hj
  exact ⟨j, hjn, hjk, (h₁₂.holds hjk).mpr hjq⟩

/-! ### The moves of an iteration -/

theorem refs_rate {s : Hybrid} {k : ℕ} (hk : k < MAP_SIZE) (v : Option ℕ) (e : ℕ) :
    (s.rate k v).refs e + holds (s.top_rated k) e = s.refs e + holds v e := by
  have := slots_update hk s.top_rated v e
  unfold refs rate
  simp only
  omega

/-- The winner of a slot of `top_rated` is thrown out. -/
def evict (s : Hybrid) (k w : ℕ) : Hybrid := (s.release w).rate k none

theorem refs_evict {s : Hybrid} {k w : ℕ} (hk : k < MAP_SIZE) (hw : s.top_rated k = some w) (e : ℕ) :
    (s.evict k w).refs e + holds (some w) e = s.refs e := by
  have hr : (s.rate k none).refs e + holds (some w) e = s.refs e + 0 := by
    rw [← hw, refs_rate hk, holds_none]
  exact hr

theorem evict_effect {s : Hybrid} {q k w : ℕ} (hk : k < MAP_SIZE) (hw : s.top_rated k = some w) :
    s.Effect q k (s.evict k w) ∧
      (s.Sound q → s.entries.Kept s.refs q → (s.evict k w).entries.Kept (s.evict k w).refs q) := by
  have hr := refs_evict hk hw
  have htop : ∀ i, i ≠ k → (s.evict k w).top_rated i = s.top_rated i := fun i hi =>
    Function.update_of_ne hi ..
  refine ⟨⟨Entries.sameScore_release _ _, htop, fun _ _ => rfl, fun _ _ => rfl, fun hs => ?_,
    fun hs hm hj => ?_⟩, fun hs hk => hk.release hs.counted hr⟩
  · exact ⟨hs.counted.release hr, hs.freed.release hs.counted hr, fun e he =>
      (hs.kept e he).release hs.counted hr⟩
  · obtain ⟨j, hjn, hjk, hjq⟩ := hj
    have hpos : 0 < (s.evict k w).refs q := by
      refine refs_pos_iff.mpr ⟨j, hjn, ?_⟩
      rw [Holds, htop j hjk]
      exact hjq
    have hsame := Entries.trace_mini_release hs.counted hr hpos
    exact fun hnone => hm (hsame.symm.trans hnone)

/-- `judge` writes slot `k` of `top_rated` without reading it. -/
theorem judge_rate (q : ℕ) (trace_bits : ℕ → UInt8) (hybrid_bits : ℕ → UInt32) (s : Hybrid) (k : ℕ)
    (v : Option ℕ) : judge q trace_bits hybrid_bits (s.rate k v) k = judge q trace_bits hybrid_bits s k := by
  simp only [judge, rate, Function.update_idem]

/-- `judge` gives an empty slot to `q`. -/
theorem judge_effect {s : Hybrid} {q k : ℕ} (hk : k < MAP_SIZE) (hnone : s.top_rated k = none)
    (trace_bits : ℕ → UInt8) (hybrid_bits : ℕ → UInt32) :
    let s' := judge q trace_bits hybrid_bits s k
    s.Effect q k s' ∧ s'.top_rated k = some q ∧ s'.top_rated_orig = s.top_rated_orig ∧
      (s.HasMini q → s'.HasMini q) ∧
      (s.max_hybrid k < hybrid_bits k ∨ (s.entries q).has_new_incorrect = false → s'.HasMini q) := by
  intro s'
  have hother : ∀ e, e ≠ q → s'.entries e = s.entries e := by
    intro e he
    simp only [s', judge]
    split_ifs <;> simp [he]
  have href : ∀ e, s'.refs e = s.refs e + holds (some q) e := by
    intro e
    have hr := refs_rate (s := s) hk (some q) e
    rw [hnone, holds_none, add_zero] at hr
    rw [← hr]
    simp only [s', judge]
    split_ifs <;> rfl
  have hcount : s.entries.Counted s.refs → s'.entries.Counted s'.refs := by
    intro hc
    have hc' : (s.entries.count q).Counted s'.refs := hc.count href (refs_lt s' q)
    simp only [s', judge] at hc' ⊢
    split_ifs at hc' ⊢
    · exact hc'.keep q trace_bits
    · exact hc'
    · exact hc'.keep q trace_bits
  have hscore : s.entries.SameScore s'.entries := by
    simp only [s', judge]
    split_ifs
    · exact (Entries.sameScore_count _ _).trans (Entries.sameScore_keep _ _ _)
    · exact Entries.sameScore_count _ _
    · exact (Entries.sameScore_count _ _).trans (Entries.sameScore_keep _ _ _)
  have hmini : s.HasMini q → s'.HasMini q := by
    intro hm
    simp only [s', judge, HasMini]
    split_ifs
    · exact Entries.trace_mini_keep_self _ _ _
    · rw [Entries.trace_mini_count]
      exact hm
    · exact Entries.trace_mini_keep_self _ _ _
  refine ⟨⟨hscore, fun i hi => ?_, fun i hi => ?_, fun i hi => ?_, fun hs => ?_, fun _ hm _ => hmini hm⟩,
    ?_, ?_, hmini, ?_⟩
  · simp only [s', judge]
    split_ifs <;> exact Function.update_of_ne hi ..
  · simp only [s', judge]
    split_ifs <;> rfl
  · simp only [s', judge]
    split_ifs
    · exact Function.update_of_ne hi ..
    · rfl
    · rfl
  · refine ⟨hcount hs.counted, fun e h0 => ?_, fun e he hpos => ?_⟩
    · have hre := href e
      have he : e ≠ q := by
        rintro rfl
        rw [holds_self] at hre
        omega
      rw [hother e he]
      exact hs.freed e (by omega)
    · have hre := href e
      rw [holds_of_ne (Ne.symm he)] at hre
      rw [hother e he]
      exact hs.kept e he (by omega)
  · simp only [s', judge]
    split_ifs <;> exact Function.update_self ..
  · simp only [s', judge]
    split_ifs <;> rfl
  · intro hsave
    simp only [s', judge, HasMini]
    split_ifs with h1 h2
    · exact Entries.trace_mini_keep_self _ _ _
    · exfalso
      rcases hsave with hlt | hinc
      · refine h1 ⟨fun h0 => ?_, hlt⟩
        rw [h0] at hlt
        exact absurd hlt (UInt32.not_lt_zero)
      · rw [hinc] at h2
        exact absurd h2 Bool.false_ne_true
    · exact Entries.trace_mini_keep_self _ _ _

/-- Slot `i` of `top_rated_orig` has a better winner than `q`. -/
def Beaten (s : Hybrid) (q i : ℕ) : Prop :=
  ∃ w, s.top_rated_orig i = some w ∧ (s.entries q).fav_factor > (s.entries w).fav_factor

/-- The slot of `top_rated_orig` goes to `q`. -/
def takeOrig (s : Hybrid) (q k : ℕ) (trace_bits : ℕ → UInt8) : Hybrid :=
  { s with
    top_rated_orig := Function.update s.top_rated_orig k (some q)
    entries := (s.entries.count q).keep q trace_bits }

theorem record_orig_of_beaten {s : Hybrid} {q k : ℕ} (hb : s.Beaten q k) (trace_bits : ℕ → UInt8) :
    record_orig q (s.entries q).fav_factor trace_bits s k = s := by
  obtain ⟨w, hw, hlt⟩ := hb
  rw [record_orig, hw]
  exact if_pos hlt

/-- `q` takes an empty slot of `top_rated_orig`, after a loser was thrown out. -/
theorem record_orig_of_not_beaten {s : Hybrid} {q k : ℕ} (hb : ¬ s.Beaten q k) (trace_bits : ℕ → UInt8) :
    (s.top_rated_orig k = none ∧
      record_orig q (s.entries q).fav_factor trace_bits s k = s.takeOrig q k trace_bits) ∨
    ∃ w, s.top_rated_orig k = some w ∧
      record_orig q (s.entries q).fav_factor trace_bits s k = (s.release w).takeOrig q k trace_bits := by
  cases hw : s.top_rated_orig k with
  | none =>
    refine .inl ⟨rfl, ?_⟩
    rw [record_orig, hw]
    rfl
  | some w =>
    refine .inr ⟨w, rfl, ?_⟩
    rw [record_orig, hw]
    exact if_neg fun hlt => hb ⟨w, hw, hlt⟩

/-- `record_orig` for a slot that `q` wins. -/
theorem record_orig_effect {s : Hybrid} {q k : ℕ} (hk : k < MAP_SIZE) (hb : ¬ s.Beaten q k)
    (trace_bits : ℕ → UInt8) :
    let s' := record_orig q (s.entries q).fav_factor trace_bits s k
    s.Effect q k s' ∧ s'.top_rated_orig k = some q ∧ s'.HasMini q := by
  intro s'
  -- the state between the loss of the old winner and the gain of the new one
  obtain ⟨es, hs', hcounted, hfreed, hkept, hscore⟩ : ∃ es : Entries,
      s' = { s with
        top_rated_orig := Function.update s.top_rated_orig k (some q)
        entries := (es.count q).keep q trace_bits } ∧
      (s.entries.Counted s.refs → es.Counted fun e => s.refs e - holds (s.top_rated_orig k) e) ∧
      (s.entries.Counted s.refs → s.entries.Freed s.refs →
        es.Freed fun e => s.refs e - holds (s.top_rated_orig k) e) ∧
      (s.entries.Counted s.refs → ∀ e, s.entries.Kept s.refs e →
        es.Kept (fun e => s.refs e - holds (s.top_rated_orig k) e) e) ∧
      s.entries.SameScore es := by
    rcases record_orig_of_not_beaten hb trace_bits with ⟨hnone, hrec⟩ | ⟨w, hw, hrec⟩
    · refine ⟨s.entries, hrec, ?_, ?_, ?_, .refl _⟩ <;> simp [hnone]
    · have hr : ∀ e, s.refs e - holds (some w) e + holds (some w) e = s.refs e := by
        intro e
        have := slots_update hk s.top_rated_orig none e
        rw [hw, holds_none] at this
        unfold refs
        omega
      refine ⟨s.entries.release w, hrec, ?_, ?_, ?_, Entries.sameScore_release _ _⟩
      · rw [hw]
        exact fun hc => hc.release hr
      · rw [hw]
        exact fun hc hf => hf.release hc hr
      · rw [hw]
        exact fun hc e hke => hke.release hc hr
  have href : ∀ e, s'.refs e = s.refs e - holds (s.top_rated_orig k) e + holds (some q) e := by
    intro e
    have := slots_update hk s.top_rated_orig (some q) e
    have hle := slots_update hk s.top_rated_orig none e
    rw [holds_none] at hle
    rw [hs']
    unfold refs
    simp only
    omega
  have hq : ∀ e, e ≠ q → s'.entries e = es e := by
    intro e he
    rw [hs']
    show (es.count q).keep q trace_bits e = es e
    rw [Entries.keep_of_ne _ _ he, Entries.count_of_ne _ he]
  have hmini : s'.HasMini q := by
    rw [hs']
    exact Entries.trace_mini_keep_self _ _ _
  refine ⟨⟨?_, fun i _ => ?_, fun i hi => ?_, fun i _ => ?_, fun hs => ?_, fun _ _ _ => hmini⟩, ?_, hmini⟩
  · rw [hs']
    exact (hscore.trans (Entries.sameScore_count _ _)).trans (Entries.sameScore_keep _ _ _)
  · rw [hs']
  · rw [hs']
    exact Function.update_of_ne hi ..
  · rw [hs']
  · refine ⟨?_, fun e h0 => ?_, fun e he hpos => ?_⟩
    · have hc : (es.count q).Counted s'.refs := (hcounted hs.counted).count href (refs_lt s' q)
      have hc' := hc.keep q trace_bits
      rw [hs'] at hc' ⊢
      exact hc'
    · have hre := href e
      have he : e ≠ q := by
        rintro rfl
        rw [holds_self] at hre
        omega
      rw [hq e he]
      exact hfreed hs.counted hs.freed e (show s.refs e - holds (s.top_rated_orig k) e = 0 by omega)
    · have hre := href e
      rw [holds_of_ne (Ne.symm he)] at hre
      rw [hq e he]
      exact hkept hs.counted e (hs.kept e he) (show 0 < s.refs e - holds (s.top_rated_orig k) e by omega)
  · rw [hs']
    exact Function.update_self ..

/-! ### One iteration -/

/-- The slot has a winner whose hybrid count is beyond the new one: nothing is recorded. -/
def Frozen (s : Hybrid) (hybrid_bits : ℕ → UInt32) (i : ℕ) : Prop :=
  s.top_rated i ≠ none ∧ hybrid_bits i < s.max_hybrid i

/-- The iteration makes sure that the `trace_mini` of `q` is there. -/
def Saves (s : Hybrid) (q : ℕ) (trace_bits : ℕ → UInt8) (hybrid_bits : ℕ → UInt32) (i : ℕ) : Prop :=
  trace_bits i ≠ 0 ∧ ¬ s.Frozen hybrid_bits i ∧
    (¬ s.Beaten q i ∨ s.max_hybrid i < hybrid_bits i ∨
      (s.top_rated i = none ∧ (s.entries q).has_new_incorrect = false))

/-- The iteration gives an empty slot to an incorrect `q` without keeping its `trace_mini`. -/
def Unsaved (s : Hybrid) (q : ℕ) (trace_bits : ℕ → UInt8) (hybrid_bits : ℕ → UInt32) (i : ℕ) : Prop :=
  (s.entries q).has_new_incorrect = true ∧ trace_bits i ≠ 0 ∧ s.top_rated i = none ∧
    hybrid_bits i ≤ s.max_hybrid i

/-- The iteration takes the slot of `top_rated` from its winner and gives it to nobody. -/
def Vacates (s : Hybrid) (trace_bits : ℕ → UInt8) (hybrid_bits : ℕ → UInt32) (i : ℕ) : Prop :=
  trace_bits i ≠ 0 ∧ s.max_hybrid i = hybrid_bits i

/-- An incorrect `q` takes the slot of another entry without any counting. -/
def Steals (s : Hybrid) (q : ℕ) (trace_bits : ℕ → UInt8) (hybrid_bits : ℕ → UInt32) (i : ℕ) : Prop :=
  (s.entries q).has_new_incorrect = true ∧ trace_bits i ≠ 0 ∧ s.Frozen hybrid_bits i ∧
    s.top_rated i ≠ some q

/-- What an iteration for slot `k` does, whatever branch it takes. -/
structure Iteration (s : Hybrid) (q : ℕ) (trace_bits : ℕ → UInt8) (hybrid_bits : ℕ → UInt32) (k : ℕ)
    (s' : Hybrid) : Prop where
  /-- It touches its own slot and the entries only. -/
  effect : s.Effect q k s'
  /-- Where it saves, `q` holds the slot and is kept. -/
  saves : s.Saves q trace_bits hybrid_bits k → s'.HasMini q ∧ s'.Holds q k
  /-- Where it does not save and gives an empty slot away, `q` is kept if it was. -/
  unsaved : s.Unsaved q trace_bits hybrid_bits k → s.HasMini q → s'.HasMini q ∧ s'.Holds q k
  /-- Elsewhere `q` gains nothing and stays kept. -/
  idle : ¬ s.Saves q trace_bits hybrid_bits k → ¬ s.Unsaved q trace_bits hybrid_bits k → s.Sound q →
    s.entries.Kept s.refs q → s'.entries.Kept s'.refs q ∧
      (∀ i, s.top_rated_orig i = some q → s'.top_rated_orig i = some q) ∧
      ∀ i, s.top_rated i = some q → ¬ (i = k ∧ s.Vacates trace_bits hybrid_bits k) →
        s'.top_rated i = some q

/-- An iteration that changes no slot and no entry. -/
theorem Iteration.of_idle {s s' : Hybrid} {q k : ℕ} {trace_bits : ℕ → UInt8} {hybrid_bits : ℕ → UInt32}
    (he : s'.entries = s.entries) (ht : s'.top_rated = s.top_rated)
    (ho : s'.top_rated_orig = s.top_rated_orig) (hm : s'.max_hybrid = s.max_hybrid)
    (hs : ¬ s.Saves q trace_bits hybrid_bits k) (hu : ¬ s.Unsaved q trace_bits hybrid_bits k) :
    s.Iteration q trace_bits hybrid_bits k s' := by
  have hr : s'.refs = s.refs := by
    funext e
    rw [refs, refs, ht, ho]
  refine ⟨⟨?_, fun i _ => ?_, fun i _ => ?_, fun i _ => ?_, fun hsd => ?_, fun _ hmi _ => ?_⟩, fun h => absurd h hs,
    fun h => absurd h hu, fun _ _ _ hk => ⟨?_, fun i hi => ?_, fun i hi _ => ?_⟩⟩
  · rw [he]
    exact .refl _
  · rw [ht]
  · rw [ho]
  · rw [hm]
  · obtain ⟨h1, h2, h3⟩ := hsd
    rw [← he, ← hr] at h1 h2 h3
    exact ⟨h1, h2, h3⟩
  · rw [HasMini, he]
    exact hmi
  · rw [he, hr]
    exact hk
  · rw [ho]
    exact hi
  · rw [ht]
    exact hi

/-- The score of `q` is read once, before the loop. -/
theorem Beaten.congr {s s' : Hybrid} {q k : ℕ} (hs : s.entries.SameScore s'.entries)
    (ho : s'.top_rated_orig k = s.top_rated_orig k) : s'.Beaten q k ↔ s.Beaten q k := by
  unfold Beaten
  rw [ho]
  refine exists_congr fun w => and_congr_right fun _ => ?_
  rw [(hs q).1, (hs w).1]

/-- `record_orig` after the moves on `top_rated`: it does nothing when `q` is beaten, and keeps `q`
otherwise. -/
theorem record_orig_after {s s₁ : Hybrid} {q k : ℕ} (hk : k < MAP_SIZE) (he : s.Effect q k s₁)
    (ho : s₁.top_rated_orig = s.top_rated_orig) (trace_bits : ℕ → UInt8) :
    let s' := record_orig q (s.entries q).fav_factor trace_bits s₁ k
    s.Effect q k s' ∧ (s.Beaten q k → s' = s₁) ∧ (¬ s.Beaten q k → s'.HasMini q ∧ s'.Holds q k) := by
  have hb : s₁.Beaten q k ↔ s.Beaten q k := Beaten.congr he.score (by rw [ho])
  rw [← (he.score q).1]
  by_cases hbeat : s.Beaten q k
  · have hrec := record_orig_of_beaten (hb.mpr hbeat) trace_bits
    simp only [hrec]
    exact ⟨he, fun _ => trivial, fun h => absurd hbeat h⟩
  · obtain ⟨he', horig, hmini⟩ := record_orig_effect hk (fun h => hbeat (hb.mp h)) trace_bits
    exact ⟨he.trans he', fun h => absurd h hbeat, fun _ => ⟨hmini, .inr horig⟩⟩

/-- **One iteration** of `update_bitmap_score` with `TF_switch` on that steals no slot. -/
theorem update_slot_iteration {s : Hybrid} {q k : ℕ} (hk : k < MAP_SIZE) (trace_bits : ℕ → UInt8)
    (hybrid_bits : ℕ → UInt32) (hsteal : ¬ s.Steals q trace_bits hybrid_bits k) :
    s.Iteration q trace_bits hybrid_bits k
      (update_slot true q (s.entries q).fav_factor trace_bits hybrid_bits s k) := by
  by_cases htr : trace_bits k = 0
  · rw [update_slot, if_pos htr]
    exact .of_idle rfl rfl rfl rfl (fun h => h.1 htr) fun h => h.2.1 htr
  rw [update_slot, if_neg htr]
  cases hw : s.top_rated k with
  | none =>
    -- an empty slot is given to `q`
    have hfrozen : ¬ s.Frozen hybrid_bits k := fun h => h.1 hw
    obtain ⟨he₁, htop, ho, hmini, hsave⟩ := judge_effect hk hw trace_bits hybrid_bits (q := q)
    obtain ⟨he, hbeat, hwin⟩ := record_orig_after hk he₁ ho trace_bits
    refine ⟨he, fun hs => ?_, fun hu hm => ?_, fun hs hu => ?_⟩
    · by_cases hb : s.Beaten q k
      · have hs' := hs.2.2.resolve_left (not_not.mpr hb)
        simp only [if_true, hbeat hb]
        exact ⟨hsave (hs'.imp_right And.right), .inl htop⟩
      · exact hwin hb
    · by_cases hb : s.Beaten q k
      · simp only [if_true, hbeat hb]
        exact ⟨hmini hm, .inl htop⟩
      · exact hwin hb
    · -- an iteration on an empty slot saves or does not
      exfalso
      by_cases hinc : (s.entries q).has_new_incorrect = true
      · refine hu ⟨hinc, htr, hw, ?_⟩
        by_contra hlt
        exact hs ⟨htr, hfrozen, .inr (.inl (UInt32.not_le.mp hlt))⟩
      · exact hs ⟨htr, hfrozen, .inr (.inr ⟨hw, by simpa using hinc⟩)⟩
  | some w =>
    have hunsaved : ¬ s.Unsaved q trace_bits hybrid_bits k := fun h => by
      have hnone := h.2.2.1
      rw [hw] at hnone
      cases hnone
    simp only [if_true]
    split_ifs with hgt hinc hge
    · -- stealing from itself
      have hfrozen : s.Frozen hybrid_bits k := ⟨by rw [hw]; exact Option.some_ne_none w, hgt⟩
      have hself : s.top_rated k = some q := by
        by_contra hne
        exact hsteal ⟨hinc, htr, hfrozen, hne⟩
      refine .of_idle rfl ?_ rfl rfl (fun h => h.2.1 hfrozen) hunsaved
      show Function.update s.top_rated k (some q) = s.top_rated
      rw [← hself, Function.update_eq_self]
    · have hfrozen : s.Frozen hybrid_bits k := ⟨by rw [hw]; exact Option.some_ne_none w, hgt⟩
      exact .of_idle rfl rfl rfl rfl (fun h => h.2.1 hfrozen) hunsaved
    · -- the slot is vacated
      have heq : s.max_hybrid k = hybrid_bits k := UInt32.le_antisymm (UInt32.not_lt.mp hgt) hge
      obtain ⟨he₁, hkept⟩ := evict_effect (q := q) hk hw
      obtain ⟨he, hbeat, hwin⟩ := record_orig_after hk he₁ rfl trace_bits
      have hfrozen : ¬ s.Frozen hybrid_bits k := fun h => hgt h.2
      refine ⟨he, fun hs => ?_, fun hu => absurd hu hunsaved, fun hs _ hsd hkq => ?_⟩
      · refine hwin fun hb => ?_
        rcases hs.2.2 with h1 | h1 | h1
        · exact h1 hb
        · rw [heq] at h1
          exact UInt32.lt_irrefl _ h1
        · rw [hw] at h1
          cases h1.1
      · have hb : s.Beaten q k := by
          by_contra hb
          exact hs ⟨htr, hfrozen, .inl hb⟩
        have hrec := hbeat hb
        unfold evict at hrec
        rw [hrec]
        refine ⟨hkept hsd hkq, fun i hi => hi, fun i hi hv => ?_⟩
        by_cases hik : i = k
        · exact absurd ⟨hik, htr, heq⟩ hv
        · exact (Function.update_of_ne hik ..).trans hi
    · -- the slot is won by the hybrid metric
      have hlt : s.max_hybrid k < hybrid_bits k := UInt32.not_le.mp hge
      obtain ⟨he₁, -⟩ := evict_effect (q := q) hk hw
      obtain ⟨he₂, htop, ho, -, hsave⟩ := judge_effect (s := s.evict k w) (q := q) hk
        (Function.update_self ..) trace_bits hybrid_bits
      have hjudge : judge q trace_bits hybrid_bits (s.evict k w) k =
          judge q trace_bits hybrid_bits (s.release w) k := judge_rate _ _ _ _ _ _
      rw [hjudge] at he₂ htop ho hsave
      obtain ⟨he, hbeat, hwin⟩ := record_orig_after hk (he₁.trans he₂) ho trace_bits
      have hall : (record_orig q (s.entries q).fav_factor trace_bits
          (judge q trace_bits hybrid_bits (s.release w) k) k).HasMini q ∧
          (record_orig q (s.entries q).fav_factor trace_bits
          (judge q trace_bits hybrid_bits (s.release w) k) k).Holds q k := by
        by_cases hb : s.Beaten q k
        · rw [hbeat hb]
          exact ⟨hsave (.inl hlt), .inl htop⟩
        · exact hwin hb
      refine ⟨he, fun _ => hall, fun _ _ => hall, fun hs => absurd ⟨htr, fun h => hgt h.2, .inr (.inl hlt)⟩ hs⟩

/-! ### The loop -/

/-- The state before slot `k`: the slots from `k` on are as they were before the loop. -/
structure Ahead (s₀ s : Hybrid) (q k : ℕ) : Prop where
  /-- Scores stay. -/
  score : s₀.entries.SameScore s.entries
  /-- `top_rated` from slot `k` on. -/
  top : ∀ i, k ≤ i → s.top_rated i = s₀.top_rated i
  /-- `top_rated_orig` from slot `k` on. -/
  orig : ∀ i, k ≤ i → s.top_rated_orig i = s₀.top_rated_orig i
  /-- `max_hybrid` from slot `k` on. -/
  max : ∀ i, k ≤ i → s.max_hybrid i = s₀.max_hybrid i
  /-- The counts are right. -/
  sound : s.Sound q

theorem Ahead.step {s₀ s s' : Hybrid} {q k : ℕ} (ha : Ahead s₀ s q k) (he : s.Effect q k s') :
    Ahead s₀ s' q (k + 1) :=
  ⟨ha.score.trans he.score, fun i hi => (he.top i (by omega)).trans (ha.top i (by omega)),
    fun i hi => (he.orig i (by omega)).trans (ha.orig i (by omega)),
    fun i hi => (he.max i (by omega)).trans (ha.max i (by omega)), he.sound ha.sound⟩

section

variable {s₀ s : Hybrid} {q k : ℕ} (trace_bits : ℕ → UInt8) (hybrid_bits : ℕ → UInt32)

/-- What an iteration does is decided by the state before the loop. -/
theorem Ahead.frozen (ha : Ahead s₀ s q k) : s.Frozen hybrid_bits k ↔ s₀.Frozen hybrid_bits k := by
  rw [Frozen, Frozen, ha.top k le_rfl, ha.max k le_rfl]

theorem Ahead.saves (ha : Ahead s₀ s q k) :
    s.Saves q trace_bits hybrid_bits k ↔ s₀.Saves q trace_bits hybrid_bits k := by
  rw [Saves, Saves, ha.frozen, Beaten.congr ha.score (ha.orig k le_rfl), ha.top k le_rfl, ha.max k le_rfl,
    (ha.score q).2]

theorem Ahead.unsaved (ha : Ahead s₀ s q k) :
    s.Unsaved q trace_bits hybrid_bits k ↔ s₀.Unsaved q trace_bits hybrid_bits k := by
  rw [Unsaved, Unsaved, ha.top k le_rfl, ha.max k le_rfl, (ha.score q).2]

theorem Ahead.steals (ha : Ahead s₀ s q k) :
    s.Steals q trace_bits hybrid_bits k ↔ s₀.Steals q trace_bits hybrid_bits k := by
  rw [Steals, Steals, ha.frozen, ha.top k le_rfl, (ha.score q).2]

theorem Ahead.vacates (ha : Ahead s₀ s q k) :
    s.Vacates trace_bits hybrid_bits k ↔ s₀.Vacates trace_bits hybrid_bits k := by
  rw [Vacates, Vacates, ha.max k le_rfl]

/-- **When a call keeps the counts right**: it steals no slot, and when it gives an empty slot
to `q` without keeping its `trace_mini`, then some iteration of the call keeps it, or `q` holds
a slot that is not vacated before. -/
structure Balanced (s : Hybrid) (q : ℕ) (trace_bits : ℕ → UInt8) (hybrid_bits : ℕ → UInt32) : Prop where
  /-- No slot is stolen. -/
  steals : ∀ i < MAP_SIZE, ¬ s.Steals q trace_bits hybrid_bits i
  /-- The first slot given to `q` unsaved. -/
  unsaved : ∀ i < MAP_SIZE, s.Unsaved q trace_bits hybrid_bits i →
    (∀ j < i, ¬ s.Unsaved q trace_bits hybrid_bits j) →
    (∃ j < MAP_SIZE, s.Saves q trace_bits hybrid_bits j) ∨
      (∃ j < MAP_SIZE, s.top_rated_orig j = some q) ∨
      ∃ j < MAP_SIZE, s.top_rated j = some q ∧ ¬ (j < i ∧ s.Vacates trace_bits hybrid_bits j)

/-- Nothing was saved or given away unsaved before slot `k`. -/
structure Untouched (s₀ s : Hybrid) (q : ℕ) (trace_bits : ℕ → UInt8) (hybrid_bits : ℕ → UInt32) (k : ℕ) :
    Prop where
  /-- No iteration saved. -/
  saves : ∀ j < k, ¬ s₀.Saves q trace_bits hybrid_bits j
  /-- No iteration gave a slot away unsaved. -/
  unsaved : ∀ j < k, ¬ s₀.Unsaved q trace_bits hybrid_bits j
  /-- `q` is kept while it is held. -/
  kept : s.entries.Kept s.refs q
  /-- `q` still has its slots of `top_rated_orig`. -/
  orig : ∀ i, s₀.top_rated_orig i = some q → s.top_rated_orig i = some q
  /-- `q` still has the slots of `top_rated` that were not vacated. -/
  top : ∀ i, s₀.top_rated i = some q → ¬ (i < k ∧ s₀.Vacates trace_bits hybrid_bits i) →
    s.top_rated i = some q

/-- `q` holds a slot before `k`, and is kept. -/
def Anchored (s : Hybrid) (q k : ℕ) : Prop := s.HasMini q ∧ ∃ j < k, s.Holds q j

/-- The loop so far: nothing happened to `q` yet, or it is anchored, or an iteration to come will
save it. -/
def Progress (s₀ s : Hybrid) (q : ℕ) (trace_bits : ℕ → UInt8) (hybrid_bits : ℕ → UInt32) (k : ℕ) : Prop :=
  Untouched s₀ s q trace_bits hybrid_bits k ∨ s.Anchored q k ∨
    ∃ j < MAP_SIZE, k ≤ j ∧ s₀.Saves q trace_bits hybrid_bits j

variable {trace_bits hybrid_bits}

/-- One iteration makes progress. -/
theorem Progress.step {s' : Hybrid} (hk : k < MAP_SIZE) (hb : s₀.Balanced q trace_bits hybrid_bits)
    (ha : Ahead s₀ s q k) (hi : s.Iteration q trace_bits hybrid_bits k s')
    (hp : Progress s₀ s q trace_bits hybrid_bits k) :
    Progress s₀ s' q trace_bits hybrid_bits (k + 1) := by
  have hanchor : s'.HasMini q ∧ s'.Holds q k → s'.Anchored q (k + 1) := fun h =>
    ⟨h.1, k, Nat.lt_succ_self k, h.2⟩
  by_cases hsave : s₀.Saves q trace_bits hybrid_bits k
  · exact .inr (.inl (hanchor (hi.saves ((ha.saves trace_bits hybrid_bits).mpr hsave))))
  rcases hp with hu | ⟨hm, j, hjk, hj⟩ | ⟨j, hjn, hkj, hj⟩
  · by_cases hun : s₀.Unsaved q trace_bits hybrid_bits k
    · -- the first slot given away unsaved
      have hheld : (∃ i < MAP_SIZE, s.Holds q i) →
          Progress s₀ s' q trace_bits hybrid_bits (k + 1) := fun hex =>
        .inr (.inl (hanchor (hi.unsaved ((ha.unsaved trace_bits hybrid_bits).mpr hun)
          (hu.kept (refs_pos_iff.mpr hex)))))
      rcases hb.unsaved k hk hun hu.unsaved with ⟨j, hjn, hj⟩ | ⟨j, hjn, hj⟩ | ⟨j, hjn, hj, hv⟩
      · refine .inr (.inr ⟨j, hjn, ?_, hj⟩)
        rcases lt_trichotomy j k with h | h | h
        · exact absurd hj (hu.saves j h)
        · exact absurd (h ▸ hj) hsave
        · exact h
      · exact hheld ⟨j, hjn, .inr (hu.orig j hj)⟩
      · exact hheld ⟨j, hjn, .inl (hu.top j hj hv)⟩
    · -- nothing happens to `q`
      obtain ⟨hkept, horig, htop⟩ := hi.idle (fun h => hsave ((ha.saves trace_bits hybrid_bits).mp h))
        (fun h => hun ((ha.unsaved trace_bits hybrid_bits).mp h)) ha.sound hu.kept
      refine .inl ⟨fun j hj => ?_, fun j hj => ?_, hkept, fun i hq => horig i (hu.orig i hq),
        fun i hq hv => ?_⟩
      · rcases Nat.lt_succ_iff_lt_or_eq.mp hj with h | h
        · exact hu.saves j h
        · exact h ▸ hsave
      · rcases Nat.lt_succ_iff_lt_or_eq.mp hj with h | h
        · exact hu.unsaved j h
        · exact h ▸ hun
      · refine htop i (hu.top i hq fun h => hv ⟨Nat.lt_succ_of_lt h.1, h.2⟩) fun h => hv ?_
        obtain ⟨rfl, hvk⟩ := h
        exact ⟨Nat.lt_succ_self i, (ha.vacates trace_bits hybrid_bits).mp hvk⟩
  · refine .inr (.inl ⟨?_, j, Nat.lt_succ_of_lt hjk, ?_⟩)
    · exact hi.effect.anchored ha.sound hm ⟨j, hjk.trans hk, hjk.ne, hj⟩
    · exact (hi.effect.holds hjk.ne).mpr hj
  · refine .inr (.inr ⟨j, hjn, ?_, hj⟩)
    rcases hkj.lt_or_eq with h | h
    · exact h
    · exact absurd (h ▸ hj) hsave

end

/-- The counts are right, and every entry has its `trace_mini` exactly while it is held. -/
structure RefInv (s : Hybrid) : Prop where
  /-- `tc_ref` counts the slots. -/
  counted : s.entries.Counted s.refs
  /-- Entries that are held are kept. -/
  kept : ∀ e, s.entries.Kept s.refs e
  /-- Entries that are not held are freed. -/
  freed : s.entries.Freed s.refs

/-- **A balanced call keeps the counts right.** -/
theorem update_bitmap_score_refInv {s : Hybrid} (hs : s.RefInv) {q : ℕ} {trace_bits : ℕ → UInt8}
    {hybrid_bits : ℕ → UInt32} (hb : s.Balanced q trace_bits hybrid_bits) :
    (s.update_bitmap_score true q trace_bits hybrid_bits).RefInv := by
  have hloop : ∀ k ≤ MAP_SIZE,
      let s' := (List.range k).foldl (update_slot true q (s.entries q).fav_factor trace_bits hybrid_bits) s
      Ahead s s' q k ∧ Progress s s' q trace_bits hybrid_bits k := by
    intro k
    induction k with
    | zero =>
      intro _
      refine ⟨⟨.refl _, fun _ _ => rfl, fun _ _ => rfl, fun _ _ => rfl, hs.counted, hs.freed,
        fun e _ => hs.kept e⟩, .inl ⟨?_, ?_, hs.kept q, fun _ h => h, fun _ h _ => h⟩⟩
      · exact fun j hj => absurd hj (Nat.not_lt_zero j)
      · exact fun j hj => absurd hj (Nat.not_lt_zero j)
    | succ k ih =>
      intro hk
      obtain ⟨ha, hp⟩ := ih (by omega)
      rw [List.range_succ, List.foldl_append, List.foldl_cons, List.foldl_nil]
      have hi := update_slot_iteration (show k < MAP_SIZE from hk) trace_bits hybrid_bits
        (fun h => hb.steals k hk ((ha.steals trace_bits hybrid_bits).mp h))
      rw [(ha.score q).1] at hi
      exact ⟨ha.step hi.effect, hp.step hk hb ha hi⟩
  obtain ⟨ha, hp⟩ := hloop MAP_SIZE le_rfl
  refine ⟨ha.sound.counted, fun e => ?_, ha.sound.freed⟩
  by_cases he : e = q
  · subst he
    rcases hp with hu | hm | ⟨j, hjn, hkj, -⟩
    · exact hu.kept
    · exact fun _ => hm.1
    · omega
  · exact ha.sound.kept e he

end Hybrid

end SEDiff.Afl
