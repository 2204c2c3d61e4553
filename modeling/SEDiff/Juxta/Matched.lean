import SEDiff.Juxta.Gains

/-!
# Inserting a range that need not be cut

A range is matched by a set when every stored range covers the same integers or none of its integers. Nothing is cut off
such a range, and `__decompose_range` returns it twice.

## What is proved

* `RangeSet.add_matched` — `add` merges a matched range with the stored range that covers the same integers, and then
  doubles its weight. The set holds the same intervals afterwards, and that of the new range.
* `RangeSet.add_all_over` — so a set over intervals that are pairwise equal or disjoint stays one.
-/

namespace SEDiff.Juxta

open Foundation

namespace Range

/-- The two ranges cover the same integers. -/
structure Alike (r s : Range) : Prop where
  /-- They start together. -/
  start_eq : r.start = s.start
  /-- They end together. -/
  stop_eq : r.stop = s.stop

theorem Alike.symm {r s : Range} (h : r.Alike s) : s.Alike r := ⟨h.1.symm, h.2.symm⟩

/-- The first and the last integer. -/
def ends (r : Range) : ℤ × ℤ := (r.start, r.stop)

theorem Alike.ends_eq {r s : Range} (h : r.Alike s) : r.ends = s.ends := Prod.ext h.1 h.2

/-- What avoids a range avoids those that cover the same integers. -/
theorem Disjoint.congr_left {r s t : Range} (h : r.Disjoint t) (hrs : s.Alike r) : s.Disjoint t := by
  unfold Disjoint at h ⊢
  rw [hrs.start_eq, hrs.stop_eq]
  exact h

end Range

namespace RangeSet

/-- Every range of the set covers the same integers as `N`, or avoids it. -/
def Matched (h : Store Range) (rs : List ℕ) (N : Range) : Prop :=
  ∀ r ∈ rs, N.Disjoint (h.obj r) ∨ (h.obj r).Alike N

/-! ### Nothing is cut off -/

theorem decompose_range2_matched {h : Store Range} (hwf : Range.AllWF h) {new : ℕ} (hn : new < h.next) {rs : List ℕ}
    (hm : Matched h rs (h.obj new)) : decompose_range2 h new rs = .ok (h, [new], []) := by
  have hsane := (hwf new hn).sane
  induction rs with
  | nil => rfl
  | cons r rs ih =>
    rw [decompose_range2]
    rcases hm r List.mem_cons_self with hd | ha
    · -- no overlap
      have hgt : max (h.obj r).start (h.obj new).start > min (h.obj r).stop (h.obj new).stop := by
        rcases hd with hlt | hlt <;> omega
      exact (if_pos hgt).trans (ih fun q hq => hm q (List.mem_cons_of_mem _ hq))
    · -- completely overlapped
      have hle : ¬ max (h.obj r).start (h.obj new).start > min (h.obj r).stop (h.obj new).stop := by
        rw [ha.start_eq, ha.stop_eq, max_self, min_self]
        exact not_lt.mpr hsane
      have hcover : max (h.obj r).start (h.obj new).start = (h.obj new).start ∧
          min (h.obj r).stop (h.obj new).stop = (h.obj new).stop := by
        rw [ha.start_eq, ha.stop_eq, max_self, min_self]
        exact ⟨rfl, rfl⟩
      exact (if_neg hle).trans (if_pos hcover)

/-- The range itself is the last round. -/
theorem decompose_range_matched {h : Store Range} (hwf : Range.AllWF h) {new : ℕ} (hn : new < h.next) {rs : List ℕ}
    (hm : Matched h rs (h.obj new)) : decompose_range h rs new = .ok (h, [new, new]) := by
  rw [decompose_range, decompose_rounds, decompose_round, decompose_range2_matched hwf hn hm]
  rfl

/-! ### Merging -/

/-- What merging a matched range does to a set of pairwise disjoint ranges. -/
structure MergedInto (h : Store Range) (rs : List ℕ) (new : ℕ) (h' : Store Range) (rs' : List ℕ) : Prop where
  /-- Only the new range changes. -/
  agrees : h.Agrees h' (· = new)
  /-- Every range is well formed again. -/
  wf : Range.AllWF h'
  /-- The set is a set of pairwise disjoint ranges again. -/
  set : SetWF h' rs'
  /-- It holds the new range. -/
  mem : new ∈ rs'
  /-- It holds nothing but the new range and ranges it held before. -/
  refs : ∀ o ∈ rs', o = new ∨ o ∈ rs
  /-- The new range covers what it covered. -/
  alike : (h'.obj new).Alike (h.obj new)

/-- The new range takes the place of the one that covers the same integers. -/
theorem add_with2_alike {h : Store Range} (hwf : Range.AllWF h) {rs : List ℕ} (hs : SetWF h rs) {new r : ℕ}
    (hn : new < h.next) (hnew : new ∉ rs) (hr : r ∈ rs) (ha : (h.obj r).Alike (h.obj new)) :
    ∃ h' rs', add_with2 Range.intersection_assign h rs new = .ok (h', rs') ∧ MergedInto h rs new h' rs' ∧
      ∀ x, Range.rhoAt h' rs' x = Range.rhoAt h rs x + (h.obj new).rho x := by
  obtain ⟨l₁, l₂, rfl⟩ := List.append_of_mem hr
  have hperm : (l₁ ++ r :: l₂).Perm (r :: (l₁ ++ l₂)) := List.perm_middle
  have hs' := hs.perm hperm
  have wn := hwf new hn
  have wr := hwf r (hs.live r hr)
  let merged : Range := { h.obj new with
    weight := Range.add_two (h.obj new).weight (h.obj r).weight,
    comments := (h.obj new).comments ∪ (h.obj r).comments }
  let h' := h.set new merged
  have hobj : h'.obj new = merged := Store.obj_set_self _ _ _
  have halike : (h'.obj new).Alike (h.obj new) := by
    rw [hobj]
    exact ⟨rfl, rfl⟩
  have hwf' : Range.AllWF h' := hwf.set wn.sane (Range.merge_add_two.nonneg _ _ wn.nonneg wr.nonneg)
  -- the other stored ranges avoid `r`, and so the new range
  have hother : ∀ q ∈ l₁ ++ l₂, q < h.next ∧ new ≠ q ∧ (h.obj new).Disjoint (h.obj q) := by
    intro q hq
    have hmem : q ∈ r :: (l₁ ++ l₂) := List.mem_cons_of_mem _ hq
    exact ⟨hs'.live q hmem, fun e => hnew (hperm.mem_iff.mpr (e ▸ hmem)),
      ((List.pairwise_cons.mp hs'.disjoint).1 q hq).congr_left ha.symm⟩
  have hkeep : ∀ q ∈ l₁ ++ l₂, h'.obj q = h.obj q := fun q hq => Store.obj_set_of_ne _ _ (hother q hq).2.1.symm
  have hrun : add_with2 Range.intersection_assign h (l₁ ++ r :: l₂) new = .ok (h', l₁ ++ l₂ ++ [new]) := by
    have h₁ := add_with2_loop_append (f := Range.add_two) hwf hn l₁ (r :: l₂) [] fun q hq =>
      hother q (List.mem_append_left _ hq)
    have h₂ := add_with2_loop_append (f := Range.add_two) hwf' hn l₂ [] l₁ fun q hq => by
      have hq' := List.mem_append_right l₁ hq
      obtain ⟨hlt, hne, hd⟩ := hother q hq'
      rw [hkeep q hq']
      exact ⟨hlt, hne, hd.congr_left halike⟩
    have hop : Range.intersection_assign h new r = .ok (h', [new]) :=
      Range.op_same h ha.start_eq.symm ha.stop_eq.symm
    have hloop : ∀ acc, add_with2_loop Range.intersection_assign new h (r :: l₂) acc =
        add_with2_loop Range.intersection_assign new h' l₂ acc := by
      intro acc
      rw [add_with2_loop, hop]
      simp
    rw [List.append_nil] at h₂
    exact h₁.trans ((hloop _).trans h₂)
  have hset : SetWF h' (l₁ ++ l₂ ++ [new]) := by
    have hend : (new :: (l₁ ++ l₂)).Perm (l₁ ++ l₂ ++ [new]) := (List.perm_append_singleton new (l₁ ++ l₂)).symm
    refine SetWF.perm ⟨?_, ?_, ?_⟩ hend
    · exact List.forall_mem_cons.mpr ⟨hn, fun q hq => (hother q hq).1⟩
    · exact List.nodup_cons.mpr ⟨fun hm => (hother new hm).2.1 rfl, (List.nodup_cons.mp hs'.nodup).2⟩
    · refine List.pairwise_cons.mpr ⟨fun q hq => ?_, ?_⟩
      · rw [hkeep q hq]
        exact (hother q hq).2.2.congr_left halike
      · refine (List.pairwise_cons.mp hs'.disjoint).2.imp_of_mem fun hp hq hd => ?_
        rw [hkeep _ hp, hkeep _ hq]
        exact hd
  refine ⟨h', _, hrun, ⟨⟨le_rfl, fun o _ ho => Store.obj_set_of_ne _ _ ho⟩, hwf', hset, by simp, fun o ho => ?_, halike⟩,
    fun x => ?_⟩
  · rcases List.mem_append.mp ho with ho | ho
    · exact .inr (hperm.mem_iff.mpr (List.mem_cons_of_mem _ ho))
    · exact .inl (List.mem_singleton.mp ho)
  · have hmerged : merged.rho x = (h.obj new).rho x + (h.obj r).rho x := by
      simp only [Range.rho_def, ha.start_eq, ha.stop_eq, merged, Range.add_two]
      split_ifs <;> simp
    rw [Range.rhoAt_append, Range.rhoAt_congr hkeep, Range.rhoAt_perm hperm, Range.rhoAt_cons, Range.rhoAt_cons,
      Range.rhoAt_nil, hobj, hmerged]
    ring

/-- A matched range is merged with the set. -/
theorem add_with2_matched {h : Store Range} (hwf : Range.AllWF h) {rs : List ℕ} (hs : SetWF h rs) {new : ℕ}
    (hn : new < h.next) (hnew : new ∉ rs) (hm : Matched h rs (h.obj new)) :
    ∃ h' rs', add_with2 Range.intersection_assign h rs new = .ok (h', rs') ∧ MergedInto h rs new h' rs' ∧
      ∀ x, Range.rhoAt h' rs' x = Range.rhoAt h rs x + (h.obj new).rho x := by
  by_cases hd : ∀ r ∈ rs, (h.obj new).Disjoint (h.obj r)
  · obtain ⟨hrun, hi⟩ := add_with2_gap Range.merge_add_two hwf hs hn hnew hd
    refine ⟨h, rs ++ [new], hrun, ⟨.refl _ _, hwf, hi.set, hi.mem, fun o ho => ?_, ⟨rfl, rfl⟩⟩, hi.dens⟩
    rw [List.mem_append, List.mem_singleton] at ho
    exact ho.symm
  · push Not at hd
    obtain ⟨r, hr, hnd⟩ := hd
    exact add_with2_alike hwf hs hn hnew hr ((hm r hr).resolve_left hnd)

/-- **Adding a matched range**: it is merged with the set, and its weight is doubled. -/
theorem add_matched {h : Store Range} (hwf : Range.AllWF h) {rs : List ℕ} (hs : SetWF h rs) {new : ℕ} (hn : new < h.next)
    (hnew : new ∉ rs) (hm : Matched h rs (h.obj new)) :
    ∃ h' rs', add h rs new = .ok (h', rs') ∧ MergedInto h rs new h' rs' ∧
      ∀ x, Range.rhoAt h' rs' x =
        if (h.obj new).start ≤ x ∧ x ≤ (h.obj new).stop then 2 * (Range.rhoAt h rs x + (h.obj new).weight)
        else Range.rhoAt h rs x := by
  obtain ⟨h₁, rs₁, hrun₁, h₁m, hdens₁⟩ := add_with2_matched hwf hs hn hnew hm
  obtain ⟨rs', hperm, hrun'⟩ := add_with2_self Range.merge_add_two h₁m.wf h₁m.set h₁m.mem
  have w₁ := h₁m.wf new (h₁m.set.live new h₁m.mem)
  set h' := h₁.set new (doubled Range.add_two (h₁.obj new)) with hh'
  have hobj : h'.obj new = doubled Range.add_two (h₁.obj new) := Store.obj_set_self _ _ _
  refine ⟨h', rs', ?_, ⟨⟨h₁m.agrees.next_le, fun o ho hne => ?_⟩, ?_, (h₁m.set.set_doubled new).perm hperm.symm,
    hperm.mem_iff.mpr h₁m.mem, fun o ho => h₁m.refs o (hperm.mem_iff.mp ho), ?_⟩, fun x => ?_⟩
  · have hrun₁' : add_with2 Range.intersection_assign h rs new = .ok (h₁, rs₁) := hrun₁
    rw [add, add_with, decompose_range_matched hwf hn hm]
    simp only [ok_bind]
    rw [add_pieces, hrun₁']
    simp only [ok_bind]
    rw [add_pieces]
    exact congrArg (· >>= _) hrun'
  · rw [hh', Store.obj_set_of_ne _ _ hne, h₁m.agrees.obj_eq o ho hne]
  · exact h₁m.wf.set w₁.sane (Range.merge_add_two.nonneg _ _ w₁.nonneg w₁.nonneg)
  · rw [hobj]
    exact ⟨h₁m.alike.start_eq, h₁m.alike.stop_eq⟩
  · -- the rest of the set is as it was after the first insertion
    have hrest : ∀ q ∈ rs₁.erase new, h'.obj q = h₁.obj q := fun q hq =>
      Store.obj_set_of_ne _ _ (h₁m.set.nodup.mem_erase_iff.mp hq).1
    have hsplit := List.perm_cons_erase h₁m.mem
    have hbefore : Range.rhoAt h₁ rs₁ x = (h₁.obj new).rho x + Range.rhoAt h₁ (rs₁.erase new) x := by
      rw [Range.rhoAt_perm hsplit, Range.rhoAt_cons]
    have hafter : Range.rhoAt h' rs' x = Range.rhoAt h₁ rs₁ x + (h₁.obj new).rho x := by
      rw [Range.rhoAt_perm (hperm.trans hsplit), Range.rhoAt_cons, hobj, rho_doubled Range.merge_add_two,
        Range.rhoAt_congr hrest, hbefore, Range.add_two]
      ring
    rw [hafter, hdens₁]
    by_cases hx : (h.obj new).start ≤ x ∧ x ≤ (h.obj new).stop
    · have hx₁ : (h₁.obj new).start ≤ x ∧ x ≤ (h₁.obj new).stop := by
        rw [h₁m.alike.start_eq, h₁m.alike.stop_eq]
        exact hx
      -- no other range of the set is there
      have hzero : Range.rhoAt h₁ (rs₁.erase new) x = 0 := rhoAt_eq_zero fun q hq hxq => by
        have hd := h₁m.set.disjoint.forall (List.mem_of_mem_erase hq) h₁m.mem (h₁m.set.nodup.mem_erase_iff.mp hq).1
        rcases hd with hlt | hlt <;> omega
      have hnew₁ : (h.obj new).rho x = (h.obj new).weight := box_of_mem hx
      rw [hzero, add_zero, hdens₁, hnew₁] at hbefore
      rw [if_pos hx, hnew₁, ← hbefore]
      ring
    · have hx₁ : ¬ ((h₁.obj new).start ≤ x ∧ x ≤ (h₁.obj new).stop) := by
        rw [h₁m.alike.start_eq, h₁m.alike.stop_eq]
        exact hx
      have h1 : (h.obj new).rho x = 0 := box_of_not_mem hx
      have h2 : (h₁.obj new).rho x = 0 := box_of_not_mem hx₁
      rw [if_neg hx, h1, h2, add_zero, add_zero]

/-! ### Sets over certain intervals -/

/-- Two of these intervals are equal, or no integer lies in both. -/
def EqualOrDisjoint (P : ℤ × ℤ → Prop) : Prop := ∀ p q, P p → P q → p = q ∨ p.2 < q.1 ∨ q.2 < p.1

/-- Ranges over such intervals match each other. -/
theorem EqualOrDisjoint.matched {P : ℤ × ℤ → Prop} (hP : EqualOrDisjoint P) {h : Store Range} {rs : List ℕ}
    (hrs : ∀ o ∈ rs, P (h.obj o).ends) {N : Range} (hN : P N.ends) : Matched h rs N := by
  intro r hr
  rcases hP _ _ hN (hrs r hr) with heq | hd
  · obtain ⟨h1, h2⟩ := Prod.mk.inj heq
    exact .inr ⟨h1.symm, h2.symm⟩
  · exact .inl hd

/-- **A set over such intervals** holds ranges over them only. -/
structure Over (P : ℤ × ℤ → Prop) (h : Store Range) (rs : List ℕ) : Prop where
  /-- The ranges are apart. -/
  set : SetWF h rs
  /-- Each covers one of the intervals. -/
  ends : ∀ o ∈ rs, P (h.obj o).ends

theorem Over.congr {P : ℤ × ℤ → Prop} {h h' : Store Range} {rs : List ℕ} (ho : Over P h rs) (hn : h.next ≤ h'.next)
    (hobj : ∀ o ∈ rs, h'.obj o = h.obj o) : Over P h' rs :=
  ⟨ho.set.congr hn hobj, fun o hm => by rw [hobj o hm]; exact ho.ends o hm⟩

/-- Weights do not matter. -/
theorem Over.alike {P : ℤ × ℤ → Prop} {h h' : Store Range} {rs : List ℕ} (ho : Over P h rs) (hn : h.next ≤ h'.next)
    (halike : ∀ o, (h'.obj o).Alike (h.obj o)) : Over P h' rs := by
  refine ⟨⟨fun o hm => (ho.set.live o hm).trans_le hn, ho.set.nodup, ho.set.disjoint.imp fun hd => ?_⟩, fun o hm => ?_⟩
  · exact ((hd.congr_left (halike _)).symm.congr_left (halike _)).symm
  · rw [(halike o).ends_eq]
    exact ho.ends o hm

theorem MergedInto.over {P : ℤ × ℤ → Prop} {h h' : Store Range} {rs rs' : List ℕ} {new : ℕ}
    (hm : MergedInto h rs new h' rs') (ho : Over P h rs) (hP : P (h.obj new).ends) : Over P h' rs' := by
  refine ⟨hm.set, fun o hmem => ?_⟩
  by_cases hon : o = new
  · rw [hon, hm.alike.ends_eq]
    exact hP
  · have hrs := (hm.refs o hmem).resolve_left hon
    rw [hm.agrees.obj_eq o (ho.set.live o hrs) hon]
    exact ho.ends o hrs

theorem MergedInto.touches {h h' : Store Range} {rs rs' : List ℕ} {new : ℕ} (hm : MergedInto h rs new h' rs') :
    Touches h rs [new] h' rs' :=
  ⟨hm.agrees.mono fun _ e => .inl (List.mem_singleton.mpr e),
    fun o ho => (hm.refs o ho).imp (fun e => List.mem_singleton.mpr e) .inl⟩

/-- **Adding** ranges over such intervals one after the other. -/
theorem add_all_over {P : ℤ × ℤ → Prop} (hP : EqualOrDisjoint P) {h : Store Range} (hwf : Range.AllWF h) {rs xs : List ℕ}
    (ho : Over P h rs) (hx : Args h rs xs) (hxs : ∀ x ∈ xs, P (h.obj x).ends) :
    ∃ h' rs', add_all Range.intersection_assign h rs xs = .ok (h', rs') ∧ Touches h rs xs h' rs' ∧ Range.AllWF h' ∧
      Over P h' rs' := by
  induction xs generalizing h rs with
  | nil => exact ⟨h, rs, rfl, .nil _ _, hwf, ho⟩
  | cons y xs ih =>
    have hym : y ∈ y :: xs := List.mem_cons_self
    obtain ⟨h₁, rs₁, hrun₁, hm, -⟩ :=
      add_matched hwf ho.set (hx.live y hym) (hx.fresh y hym) (hP.matched ho.ends (hxs y hym))
    obtain ⟨hx₁, hobj⟩ := hx.tail hm.touches
    obtain ⟨h', rs', hrun, ht, hwf', ho'⟩ := ih hm.wf (hm.over ho (hxs y hym)) hx₁ fun q hq => by
      rw [hobj q hq]
      exact hxs q (List.mem_cons_of_mem _ hq)
    have hrun₁' : add_with Range.intersection_assign h rs y = .ok (h₁, rs₁) := hrun₁
    refine ⟨h', rs', ?_, hm.touches.cons ht, hwf', ho'⟩
    rw [add_all, hrun₁']
    exact hrun

end RangeSet

end SEDiff.Juxta
