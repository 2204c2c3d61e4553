import SEDiff.Afl.RefCount

/-!
# Culling

`cull_queue` reads the `trace_mini` of the winners it picks and changes no reference count.

## What is proved

* `pick_all_ok` — picking never reads a null `trace_mini` when every winner has one.
* `Hybrid.cull_queue_refInv` — so `cull_queue` succeeds and keeps the counts right.
-/

namespace SEDiff.Afl

open Foundation

namespace Entries

/-- The reference counts and traces are the same. -/
def SameRefs (es es' : Entries) : Prop :=
  ∀ e, (es' e).tc_ref = (es e).tc_ref ∧ (es' e).trace_mini = (es e).trace_mini

theorem SameRefs.refl (es : Entries) : SameRefs es es := fun _ => ⟨rfl, rfl⟩

theorem SameRefs.trans {es₁ es₂ es₃ : Entries} (h₁₂ : SameRefs es₁ es₂) (h₂₃ : SameRefs es₂ es₃) :
    SameRefs es₁ es₃ :=
  fun e => ⟨(h₂₃ e).1.trans (h₁₂ e).1, (h₂₃ e).2.trans (h₁₂ e).2⟩

theorem sameRefs_clear (es : Entries) (queue : List ℕ) : SameRefs es (es.clear queue) := by
  intro e
  unfold clear
  split_ifs <;> exact ⟨rfl, rfl⟩

theorem sameRefs_mark (es : Entries) (queue : List ℕ) : SameRefs es (es.mark queue) := by
  intro e
  unfold mark
  split_ifs <;> exact ⟨rfl, rfl⟩

theorem sameRefs_favor (es : Entries) (w : ℕ) :
    SameRefs es (Function.update es w { es w with favored := true }) := by
  intro e
  by_cases he : e = w
  · subst he
    rw [Function.update_self]
    exact ⟨rfl, rfl⟩
  · rw [Function.update_of_ne he]
    exact ⟨rfl, rfl⟩

end Entries

/-- Picking slot `i` succeeds when its winner has a `trace_mini`. -/
theorem pick_ok {top_rated : ℕ → Option ℕ} {c : Picks} {i : ℕ}
    (hw : ∀ w, top_rated i = some w → (c.entries w).trace_mini ≠ none) :
    ∃ c', pick top_rated c i = some c' ∧ c.entries.SameRefs c'.entries := by
  unfold pick
  cases htop : top_rated i with
  | none => exact ⟨c, rfl, .refl _⟩
  | some w =>
    obtain ⟨mini, hmini⟩ := Option.ne_none_iff_exists'.mp (hw w htop)
    simp only
    split_ifs
    · exact ⟨_, Option.bind_eq_some_iff.mpr ⟨mini, hmini, rfl⟩, Entries.sameRefs_favor _ _⟩
    · exact ⟨_, Option.bind_eq_some_iff.mpr ⟨mini, hmini, rfl⟩, Entries.sameRefs_favor _ _⟩
    · exact ⟨c, rfl, .refl _⟩

theorem foldlM_pick_ok {top_rated : ℕ → Option ℕ} (is : List ℕ) {c : Picks}
    (hw : ∀ i ∈ is, ∀ w, top_rated i = some w → (c.entries w).trace_mini ≠ none) :
    ∃ c', is.foldlM (pick top_rated) c = some c' ∧ c.entries.SameRefs c'.entries := by
  induction is generalizing c with
  | nil => exact ⟨c, rfl, .refl _⟩
  | cons i is ih =>
    obtain ⟨c₁, hpick, hsame⟩ := pick_ok (hw i List.mem_cons_self)
    obtain ⟨c', hrun, hsame'⟩ := ih (c := c₁) fun j hj w hjw => by
      rw [(hsame w).2]
      exact hw j (List.mem_cons_of_mem _ hj) w hjw
    refine ⟨c', ?_, hsame.trans hsame'⟩
    rw [List.foldlM_cons, hpick]
    exact hrun

/-- **Picking succeeds** when every winner has a `trace_mini`. -/
theorem pick_all_ok {es : Entries} {top_rated : ℕ → Option ℕ} (queue : List ℕ)
    (hw : ∀ i < MAP_SIZE, ∀ w, top_rated i = some w → (es w).trace_mini ≠ none) :
    ∃ c, pick_all es queue top_rated = some c ∧ es.SameRefs c.entries := by
  have hclear := Entries.sameRefs_clear es queue
  have hstart : ∀ i ∈ List.range MAP_SIZE, ∀ w, top_rated i = some w →
      (es.clear queue w).trace_mini ≠ none := fun i hi w hiw => by
    rw [(hclear w).2]
    exact hw i (List.mem_range.mp hi) w hiw
  obtain ⟨c, hrun, hsame⟩ := foldlM_pick_ok (List.range MAP_SIZE)
    (c := ⟨es.clear queue, fun _ => true, 0, 0⟩) hstart
  exact ⟨c, hrun, hclear.trans hsame⟩

namespace Hybrid

/-- The counts depend on the slots, the counters and the traces only. -/
theorem RefInv.congr {s s' : Hybrid} (hs : s.RefInv) (ht : s'.top_rated = s.top_rated)
    (ho : s'.top_rated_orig = s.top_rated_orig) (he : s.entries.SameRefs s'.entries) : s'.RefInv := by
  have hr : s'.refs = s.refs := by
    funext e
    rw [refs, refs, ht, ho]
  refine ⟨fun e => ?_, fun e hpos => ?_, fun e h0 => ?_⟩
  · rw [(he e).1, hr]
    exact hs.counted e
  · rw [(he e).2]
    exact hs.kept e (hr ▸ hpos)
  · rw [(he e).2]
    exact hs.freed e (hr ▸ h0)

/-- The winner of a slot has a `trace_mini`. -/
theorem RefInv.trace_mini {s : Hybrid} (hs : s.RefInv) {i : ℕ} (hi : i < MAP_SIZE) {e : ℕ}
    (he : s.Holds e i) : (s.entries e).trace_mini ≠ none :=
  hs.kept e (refs_pos_iff.mpr ⟨i, hi, he⟩)

theorem settle_refInv {s : Hybrid} (hs : s.RefInv) {c : Picks} (hc : s.entries.SameRefs c.entries) :
    (s.settle c).RefInv :=
  hs.congr rfl rfl (hc.trans (Entries.sameRefs_mark _ _))

theorem altern_refInv {s : Hybrid} (hs : s.RefInv) (TF_switch : Bool) :
    ∃ s', s.altern TF_switch = some s' ∧ s'.RefInv := by
  unfold altern
  split_ifs
  · exact ⟨s, rfl, hs⟩
  · obtain ⟨c, hrun, hsame⟩ := pick_all_ok s.queue fun i hi w hw => hs.trace_mini hi (.inr hw)
    rw [hrun]
    exact ⟨_, rfl, settle_refInv hs hsame⟩

theorem foldl_favor_sameRefs (top_rated : ℕ → Option ℕ) (is : List ℕ) (c : Picks) :
    c.entries.SameRefs (is.foldl (favor top_rated) c).entries := by
  induction is generalizing c with
  | nil => exact .refl _
  | cons i is ih =>
    refine Entries.SameRefs.trans ?_ (ih _)
    unfold favor
    cases top_rated i with
    | none => exact .refl _
    | some w =>
      simp only
      split_ifs
      · exact .refl _
      · exact Entries.sameRefs_favor _ _
      · exact Entries.sameRefs_favor _ _

/-- **Culling** reads no null `trace_mini` and keeps the counts right. -/
theorem cull_queue_refInv {s : Hybrid} (hs : s.RefInv) (TF_switch dumb_mode : Bool) :
    ∃ s', s.cull_queue TF_switch dumb_mode = some s' ∧ s'.RefInv := by
  unfold cull_queue
  have hs₁ : ({ s with TF_top_null := false, score_changed := false } : Hybrid).RefInv :=
    hs.congr rfl rfl (.refl _)
  split_ifs
  · exact altern_refInv hs TF_switch
  · refine altern_refInv (settle_refInv hs₁ ?_) TF_switch
    exact (Entries.sameRefs_clear _ _).trans
      (foldl_favor_sameRefs s.top_rated (List.range MAP_SIZE) ⟨s.entries.clear s.queue, fun _ => true, 0, 0⟩)
  · obtain ⟨c, hrun, hsame⟩ := pick_all_ok s.queue fun i hi w hw => hs.trace_mini hi (.inl hw)
    simp only [hrun]
    exact altern_refInv (settle_refInv hs₁ hsame) TF_switch

end Hybrid

end SEDiff.Afl
