import SEDiff.Juxta.Insert

/-!
# Cutting a range against a set

`__decompose_range` cuts the new range round by round: in each round every piece that is
left over loses what the first stored range that overlaps it covers.

## What is proved

* `RangeSet.decompose_range_spec` — the pieces are apart from each other and their densities
  add up to the density of the new range. When the rounds come to an end within thirty, every
  piece is settled and the pieces of the last round are returned twice.
-/

namespace SEDiff.Juxta

open Foundation

namespace RangeSet

/-! ### One cut -/

/-- What the first range of `rs` that overlaps `p` in part leaves of `p`. -/
def leftovers : List Range → Range → List Range
  | [], _ => []
  | r :: rs, p =>
    let start := max r.start p.start
    let stop := min r.stop p.stop
    if start > stop then leftovers rs p
    else if start = p.start ∧ stop = p.stop then []
    else if start = p.start then [{ p with start := stop + 1 }]
    else if stop = p.stop then [{ p with stop := start - 1 }]
    else [{ p with stop := start - 1 }, { p with start := stop + 1 }]

/-- The five ways `__decompose_range2` can end. -/
inductive Cut (h : Store Range) (rs : List ℕ) (new : ℕ) : Store Range → List ℕ → List ℕ → Prop
  /-- No stored range overlaps `new`. -/
  | gap (hd : ∀ r ∈ rs, (h.obj new).Disjoint (h.obj r)) : Cut h rs new h [new] []
  /-- A stored range covers `new`. -/
  | within (r : ℕ) (hr : r ∈ rs) (hin : (h.obj new).Within (h.obj r)) : Cut h rs new h [new] []
  /-- A stored range covers the head of `new`. -/
  | head (r : ℕ) (hr : r ∈ rs) (hs : (h.obj r).start ≤ (h.obj new).start)
      (hm : (h.obj new).start ≤ (h.obj r).stop) (he : (h.obj r).stop < (h.obj new).stop) :
      Cut h rs new ((h.alloc { h.obj new with stop := (h.obj r).stop }).1.set new
        { h.obj new with start := (h.obj r).stop + 1 }) [h.next] [new]
  /-- A stored range covers the tail of `new`. -/
  | tail (r : ℕ) (hr : r ∈ rs) (hs : (h.obj new).start < (h.obj r).start)
      (hm : (h.obj r).start ≤ (h.obj new).stop) (he : (h.obj new).stop ≤ (h.obj r).stop) :
      Cut h rs new ((h.alloc { h.obj new with start := (h.obj r).start }).1.set new
        { h.obj new with stop := (h.obj r).start - 1 }) [h.next] [new]
  /-- A stored range lies strictly inside `new`. -/
  | middle (r : ℕ) (hr : r ∈ rs) (hs : (h.obj new).start < (h.obj r).start)
      (hm : (h.obj r).start ≤ (h.obj r).stop) (he : (h.obj r).stop < (h.obj new).stop) :
      Cut h rs new (((h.alloc { h.obj new with start := (h.obj r).start, stop := (h.obj r).stop }).1.alloc
        { h.obj new with start := (h.obj r).stop + 1 }).1.set new
        { h.obj new with stop := (h.obj r).start - 1 }) [h.next] [new, h.next + 1]

/-- A longer set cuts in the same ways. -/
theorem Cut.cons {h h' : Store Range} {rs d w : List ℕ} {new r : ℕ}
    (hd : (h.obj new).Disjoint (h.obj r)) (hc : Cut h rs new h' d w) : Cut h (r :: rs) new h' d w := by
  cases hc with
  | gap h1 => exact .gap (List.forall_mem_cons.mpr ⟨hd, h1⟩)
  | within q hq hin => exact .within q (List.mem_cons_of_mem _ hq) hin
  | head q hq hs hm he => exact .head q (List.mem_cons_of_mem _ hq) hs hm he
  | tail q hq hs hm he => exact .tail q (List.mem_cons_of_mem _ hq) hs hm he
  | middle q hq hs hm he => exact .middle q (List.mem_cons_of_mem _ hq) hs hm he

/-- `__decompose_range2` cuts in one of the five ways. -/
theorem decompose_range2_cut {h : Store Range} (hwf : Range.AllWF h) {new : ℕ} (hn : new < h.next)
    {rs : List ℕ} (hl : ∀ r ∈ rs, r < h.next) :
    ∃ h' d w, decompose_range2 h new rs = .ok (h', d, w) ∧ Cut h rs new h' d w ∧
      w.map h'.obj = leftovers (rs.map h.obj) (h.obj new) := by
  induction rs with
  | nil => exact ⟨h, [new], [], rfl, .gap (by simp), rfl⟩
  | cons r rs ih =>
    have hrm : r ∈ r :: rs := List.mem_cons_self
    have hsn := (hwf new hn).sane
    have hsr := (hwf r (hl r hrm)).sane
    have hmap : (r :: rs).map h.obj = h.obj r :: rs.map h.obj := rfl
    have hne' : h.next + 1 ≠ new := by omega
    by_cases hdis : (h.obj r).stop < (h.obj new).start ∨ (h.obj new).stop < (h.obj r).start
    · obtain ⟨h', d, w, hrun, hc, hw⟩ := ih fun q hq => hl q (List.mem_cons_of_mem _ hq)
      have hgt : max (h.obj r).start (h.obj new).start > min (h.obj r).stop (h.obj new).stop := by omega
      refine ⟨h', d, w, ?_, hc.cons hdis.symm, ?_⟩
      · rw [decompose_range2]
        exact (if_pos hgt).trans hrun
      · rw [hw, hmap, leftovers]
        exact (if_pos hgt).symm
    · rw [not_or, not_lt, not_lt] at hdis
      obtain ⟨h1, h2⟩ := hdis
      have hng : ¬ max (h.obj r).start (h.obj new).start > min (h.obj r).stop (h.obj new).stop := by omega
      rcases le_or_gt (h.obj r).start (h.obj new).start with hs | hs <;>
        rcases le_or_gt (h.obj new).stop (h.obj r).stop with he | he
      · refine ⟨h, [new], [], ?_, .within r hrm ⟨hs, he⟩, ?_⟩
        · rw [decompose_range2]
          simp only [max_eq_right hs, min_eq_right he] at hng ⊢
          rw [if_neg hng, if_pos ⟨trivial, trivial⟩]
        · rw [hmap, leftovers]
          simp only [max_eq_right hs, min_eq_right he] at hng ⊢
          rw [if_neg hng, if_pos ⟨trivial, trivial⟩]
          rfl
      · refine ⟨_, _, _, ?_, .head r hrm hs h1 he, ?_⟩
        · rw [decompose_range2]
          simp only [max_eq_right hs, min_eq_left he.le] at hng ⊢
          rw [if_neg hng, if_neg (by omega), pyAssert_of_true, if_pos trivial]
          · rfl
          · rw [Store.ref_alloc, Store.obj_alloc_next]
            exact h1
        · rw [hmap, leftovers]
          simp only [max_eq_right hs, min_eq_left he.le] at hng ⊢
          rw [if_neg hng, if_neg (by omega), if_pos trivial, List.map_cons, List.map_nil, Store.obj_set_self]
      · refine ⟨_, _, _, ?_, .tail r hrm hs h2 he, ?_⟩
        · rw [decompose_range2]
          simp only [max_eq_left hs.le, min_eq_right he] at hng ⊢
          rw [if_neg hng, if_neg (by omega), pyAssert_of_true, if_neg (by omega), if_pos trivial]
          · rfl
          · rw [Store.ref_alloc, Store.obj_alloc_next]
            exact h2
        · rw [hmap, leftovers]
          simp only [max_eq_left hs.le, min_eq_right he] at hng ⊢
          rw [if_neg hng, if_neg (by omega), if_neg (by omega), if_pos trivial, List.map_cons, List.map_nil,
            Store.obj_set_self]
      · refine ⟨_, _, _, ?_, .middle r hrm hs hsr he, ?_⟩
        · rw [decompose_range2]
          simp only [max_eq_left hs.le, min_eq_left he.le] at hng ⊢
          rw [if_neg hng, if_neg (by omega), pyAssert_of_true, if_neg (by omega), if_neg (by omega)]
          · rfl
          · rw [Store.ref_alloc, Store.obj_alloc_next]
            exact hsr
        · rw [hmap, leftovers]
          simp only [max_eq_left hs.le, min_eq_left he.le] at hng ⊢
          rw [if_neg hng, if_neg (by omega), if_neg (by omega), if_neg (by omega), List.map_cons,
            List.map_cons, List.map_nil, Store.obj_set_self, Store.obj_set_of_ne _ _ hne']
          exact congrArg (fun q => [_, q]) (Store.obj_alloc_next (h.alloc _).1 _)

/-- What `__decompose_range2` does to a piece `new` that the set does not hold. -/
structure Split (h : Store Range) (rs : List ℕ) (new : ℕ) (h' : Store Range) (d w : List ℕ) : Prop where
  /-- Only the piece changes. -/
  agrees : h.Agrees h' fun o => o = new
  /-- Every range is well formed again. -/
  wf : Range.AllWF h'
  /-- The new pieces are the old one and fresh ones. -/
  refs : ∀ o ∈ d ++ w, o = new ∨ h.next ≤ o
  /-- The new pieces are allocated. -/
  live : ∀ o ∈ d ++ w, o < h'.next
  /-- No piece is listed twice. -/
  nodup : (d ++ w).Nodup
  /-- The new pieces lie in the old one. -/
  within : ∀ o ∈ d ++ w, (h'.obj o).Within (h.obj new)
  /-- No integer lies in two of them. -/
  disjoint : (d ++ w).Pairwise fun a b => (h'.obj a).Disjoint (h'.obj b)
  /-- Their densities add up. -/
  dens : ∀ x, Range.rhoAt h' (d ++ w) x = (h.obj new).rho x
  /-- When nothing is left, nothing was cut. -/
  done : w = [] → h' = h ∧ d = [new]
  /-- The part cut off is settled. -/
  settled : SetWF h rs → new ∉ rs → ∀ p ∈ d, Settled h' rs (h'.obj p)
  /-- No stored range overlaps two of the pieces. -/
  sep : SetWF h rs → new ∉ rs → ∀ r ∈ rs,
    (d ++ w).Pairwise fun a b => (h'.obj a).Disjoint (h'.obj r) ∨ (h'.obj b).Disjoint (h'.obj r)

/-- In a set of disjoint ranges, what lies in one of them is settled. -/
theorem settled_of_within {h : Store Range} {rs : List ℕ} (hs : SetWF h rs) {r : ℕ} (hr : r ∈ rs)
    {p : Range} (hin : p.Within (h.obj r)) : Settled h rs p := by
  intro q hq
  by_cases hqr : q = r
  · exact .inr (hqr ▸ hin)
  · exact .inl ((hs.disjoint.forall hq hr hqr).mono_right hin).symm

/-- Of two stored ranges, the one that covers `v` keeps the other away. -/
theorem sep_of_within {h h' : Store Range} {rs : List ℕ} (hs : SetWF h rs)
    (hkeep : ∀ q ∈ rs, h'.obj q = h.obj q) {r : ℕ} (hr : r ∈ rs) {v u : Range} (hv : v.Within (h.obj r))
    (hu : u.Disjoint (h.obj r)) :
    ∀ q ∈ rs, v.Disjoint (h'.obj q) ∨ u.Disjoint (h'.obj q) := by
  intro q hq
  rw [hkeep q hq]
  by_cases hqr : q = r
  · exact .inr (hqr ▸ hu)
  · exact .inl ((hs.disjoint.forall hq hr hqr).mono_right hv).symm

/-- Cutting off one part. -/
theorem split_two {h : Store Range} (hwf : Range.AllWF h) {rs : List ℕ} {new r : ℕ} (hn : new < h.next)
    (hl : ∀ r ∈ rs, r < h.next) (hr : r ∈ rs) {v u : Range} (wv : v.WF) (wu : u.WF)
    (hvn : v.Within (h.obj new)) (hun : u.Within (h.obj new)) (hvr : v.Within (h.obj r))
    (hur : u.Disjoint (h.obj r)) (hvu : v.Disjoint u) (hdens : ∀ x, v.rho x + u.rho x = (h.obj new).rho x) :
    Split h rs new ((h.alloc v).1.set new u) [h.next] [new] := by
  have hne : h.next ≠ new := Nat.ne_of_gt hn
  have hv : ((h.alloc v).1.set new u).obj h.next = v := by
    rw [Store.obj_set_of_ne _ _ hne, Store.obj_alloc_next]
  have hu : ((h.alloc v).1.set new u).obj new = u := Store.obj_set_self _ _ _
  have hkeep : new ∉ rs → ∀ q ∈ rs, ((h.alloc v).1.set new u).obj q = h.obj q := by
    intro hnew q hq
    have hqn : q ≠ new := fun e => hnew (e ▸ hq)
    rw [Store.obj_set_of_ne _ _ hqn, Store.obj_alloc_of_lt _ _ (hl q hq)]
  refine ⟨⟨by simp, fun o ho hon => ?_⟩, (hwf.alloc wv.sane wv.nonneg).set wu.sane wu.nonneg,
    by simp, ?_, by simp [hne], ?_, ?_, fun x => ?_, by simp, fun hs hnew p hp => ?_, fun hs hnew q hq => ?_⟩
  · rw [Store.obj_set_of_ne _ _ hon, Store.obj_alloc_of_lt _ _ ho]
  · simp only [List.cons_append, List.nil_append, List.forall_mem_cons, Store.next_set, Store.next_alloc]
    exact ⟨by omega, by omega, by simp⟩
  · simp only [List.cons_append, List.nil_append, List.forall_mem_cons, hv, hu]
    exact ⟨hvn, hun, by simp⟩
  · simpa [hv, hu] using hvu
  · simpa [hv, hu] using hdens x
  · rw [List.mem_singleton.mp hp, hv]
    exact fun q hq => by rw [hkeep hnew q hq]; exact settled_of_within hs hr hvr q hq
  · simpa [hv, hu] using sep_of_within hs (hkeep hnew) hr hvr hur q hq

/-- Cutting out the middle. -/
theorem split_three {h : Store Range} (hwf : Range.AllWF h) {rs : List ℕ} {new r : ℕ} (hn : new < h.next)
    (hl : ∀ r ∈ rs, r < h.next) (hr : r ∈ rs) (hsr : (h.obj r).start ≤ (h.obj r).stop) {v u t : Range}
    (wv : v.WF) (wu : u.WF) (wt : t.WF) (hvn : v.Within (h.obj new)) (hun : u.Within (h.obj new))
    (htn : t.Within (h.obj new)) (hvr : v.Within (h.obj r)) (hur : u.stop < (h.obj r).start)
    (htr : (h.obj r).stop < t.start)
    (hdens : ∀ x, v.rho x + (u.rho x + t.rho x) = (h.obj new).rho x) :
    Split h rs new (((h.alloc v).1.alloc t).1.set new u) [h.next] [new, h.next + 1] := by
  have hne : h.next ≠ new := Nat.ne_of_gt hn
  have hne' : h.next + 1 ≠ new := by omega
  have hv : (((h.alloc v).1.alloc t).1.set new u).obj h.next = v := by
    rw [Store.obj_set_of_ne _ _ hne, Store.obj_alloc_of_lt _ _ (Nat.lt_succ_self _), Store.obj_alloc_next]
  have ht : (((h.alloc v).1.alloc t).1.set new u).obj (h.next + 1) = t := by
    rw [Store.obj_set_of_ne _ _ hne']
    exact Store.obj_alloc_next (h.alloc v).1 t
  have hu : (((h.alloc v).1.alloc t).1.set new u).obj new = u := Store.obj_set_self _ _ _
  have hold : ∀ o, o < h.next → o ≠ new → (((h.alloc v).1.alloc t).1.set new u).obj o = h.obj o := by
    intro o ho hon
    rw [Store.obj_set_of_ne _ _ hon, Store.obj_alloc_of_lt _ _ (Nat.lt_succ_of_lt ho),
      Store.obj_alloc_of_lt _ _ ho]
  have hkeep : new ∉ rs → ∀ q ∈ rs, (((h.alloc v).1.alloc t).1.set new u).obj q = h.obj q :=
    fun hnew q hq => hold q (hl q hq) fun e => hnew (e ▸ hq)
  have hvu : v.Disjoint u := .inr (hur.trans_le hvr.1)
  have hvt : v.Disjoint t := .inl (hvr.2.trans_lt htr)
  have hut : u.Disjoint t := .inl (by omega)
  refine ⟨⟨by simp; omega, hold⟩,
    ((hwf.alloc wv.sane wv.nonneg).alloc wt.sane wt.nonneg).set wu.sane wu.nonneg, by simp, ?_,
    by simp [hne, hne'.symm], ?_, ?_, fun x => ?_, by simp, fun hs hnew p hp => ?_, fun hs hnew q hq => ?_⟩
  · simp only [List.cons_append, List.nil_append, List.forall_mem_cons, Store.next_set, Store.next_alloc]
    exact ⟨by omega, by omega, by omega, by simp⟩
  · simp only [List.cons_append, List.nil_append, List.forall_mem_cons, hv, hu, ht]
    exact ⟨hvn, hun, htn, by simp⟩
  · simp [hv, ht, hvu, hvt, hut]
  · simpa [hv, hu, ht] using hdens x
  · rw [List.mem_singleton.mp hp, hv]
    exact fun q hq => by rw [hkeep hnew q hq]; exact settled_of_within hs hr hvr q hq
  · have h1 := sep_of_within hs (hkeep hnew) hr hvr (.inl hur) q hq
    have h2 := sep_of_within hs (hkeep hnew) hr hvr (.inr htr) q hq
    -- a stored range other than `r` is on one side of it
    have h3 : u.Disjoint (h.obj q) ∨ t.Disjoint (h.obj q) := by
      by_cases hqr : q = r
      · exact .inl (.inl (hqr ▸ hur))
      · rcases hs.disjoint.forall hq hr hqr with hlt | hlt
        · exact .inr (.inr (by omega))
        · exact .inl (.inl (by omega))
    rw [← hkeep hnew q hq] at h3
    simp [hv, ht, h1, h2, h3]

/-- Cutting is splitting. -/
theorem Cut.split {h h' : Store Range} (hwf : Range.AllWF h) {rs d w : List ℕ} {new : ℕ}
    (hn : new < h.next) (hl : ∀ r ∈ rs, r < h.next) (hc : Cut h rs new h' d w) :
    Split h rs new h' d w := by
  have wn := hwf new hn
  have hsn := wn.sane
  cases hc with
  | gap hd =>
    exact ⟨.refl _ _, hwf, by simp, by simp [hn], by simp, by simp [Range.Within], by simp, by simp,
      by simp, fun _ _ => by simpa [Settled] using fun r hr => .inl (hd r hr), by simp⟩
  | within r hr hin =>
    exact ⟨.refl _ _, hwf, by simp, by simp [hn], by simp, by simp [Range.Within], by simp, by simp,
      by simp, fun hs _ => by simpa using settled_of_within hs hr hin, by simp⟩
  | head r hr hs hm he =>
    refine split_two hwf hn hl hr ⟨hm, wn.nonneg⟩ ⟨?_, wn.nonneg⟩ ⟨?_, ?_⟩ ⟨?_, ?_⟩ ⟨?_, ?_⟩ (.inr ?_)
      (.inl ?_) fun x => ?_
    all_goals first | (simp only; omega) | skip
    simp only [Range.rho_def]
    split_ifs <;> first | (exfalso; omega) | simp
  | tail r hr hs hm he =>
    refine split_two hwf hn hl hr ⟨hm, wn.nonneg⟩ ⟨?_, wn.nonneg⟩ ⟨?_, ?_⟩ ⟨?_, ?_⟩ ⟨?_, ?_⟩ (.inl ?_)
      (.inr ?_) fun x => ?_
    all_goals first | (simp only; omega) | skip
    simp only [Range.rho_def]
    split_ifs <;> first | (exfalso; omega) | simp
  | middle r hr hs hm he =>
    refine split_three hwf hn hl hr hm ⟨hm, wn.nonneg⟩ ⟨?_, wn.nonneg⟩ ⟨?_, wn.nonneg⟩ ⟨?_, ?_⟩ ⟨?_, ?_⟩
      ⟨?_, ?_⟩ ⟨?_, ?_⟩ ?_ ?_ fun x => ?_
    all_goals first | (simp only; omega) | skip
    simp only [Range.rho_def]
    split_ifs <;> first | (exfalso; omega) | simp

/-! ### The rounds -/

/-- Pieces of the range `N`, none of them held by the set. -/
structure Parts (h : Store Range) (rs : List ℕ) (N : Range) (ps : List ℕ) : Prop where
  /-- The pieces are allocated. -/
  live : ∀ p ∈ ps, p < h.next
  /-- No piece is listed twice. -/
  nodup : ps.Nodup
  /-- No piece is stored already. -/
  fresh : ∀ p ∈ ps, p ∉ rs
  /-- No integer lies in two of the pieces. -/
  disjoint : ps.Pairwise fun a b => (h.obj a).Disjoint (h.obj b)
  /-- Their densities add up to that of the range. -/
  dens : ∀ x, Range.rhoAt h ps x = N.rho x
  /-- The pieces lie in the range. -/
  within : ∀ p ∈ ps, (h.obj p).Within N

/-- No stored range overlaps two of the pieces. -/
def Sep (h : Store Range) (rs ps : List ℕ) : Prop :=
  ∀ r ∈ rs, ps.Pairwise fun a b => (h.obj a).Disjoint (h.obj r) ∨ (h.obj b).Disjoint (h.obj r)

/-- The order of the pieces does not matter. -/
theorem Parts.perm {h : Store Range} {rs ps qs : List ℕ} {N : Range} (hp : Parts h rs N ps)
    (hpq : ps.Perm qs) : Parts h rs N qs :=
  ⟨fun p hm => hp.live p (hpq.mem_iff.mpr hm), hpq.nodup_iff.mp hp.nodup,
    fun p hm => hp.fresh p (hpq.mem_iff.mpr hm), (hpq.pairwise_iff fun hd => hd.symm).mp hp.disjoint,
    fun x => (Range.rhoAt_perm hpq x).symm.trans (hp.dens x), fun p hm => hp.within p (hpq.mem_iff.mpr hm)⟩

theorem Sep.perm {h : Store Range} {rs ps qs : List ℕ} (hp : Sep h rs ps) (hpq : ps.Perm qs) :
    Sep h rs qs :=
  fun r hr => (hpq.pairwise_iff fun hd => hd.symm).mp (hp r hr)

/-- What avoids a range is avoided by every part of it. -/
theorem disjoint_mono_left {p q r : Range} (h : p.Disjoint r) (hq : q.Within p) : q.Disjoint r :=
  (h.symm.mono_right hq).symm

/-- One piece is cut, the others stay. -/
theorem Parts.split {h h' : Store Range} {rs d w qs : List ℕ} {new : ℕ} {N : Range}
    (hl : ∀ r ∈ rs, r < h.next) (hp : Parts h rs N (new :: qs)) (hc : Split h rs new h' d w) :
    Parts h' rs N (d ++ w ++ qs) ∧ ∀ q ∈ qs, h'.obj q = h.obj q := by
  obtain ⟨hnq, hnd⟩ := List.nodup_cons.mp hp.nodup
  obtain ⟨hdq, hdis⟩ := List.pairwise_cons.mp hp.disjoint
  have hlive : ∀ q ∈ qs, q < h.next := fun q hq => hp.live q (List.mem_cons_of_mem _ hq)
  have hobj : ∀ q ∈ qs, h'.obj q = h.obj q := fun q hq =>
    hc.agrees.obj_eq q (hlive q hq) fun e => hnq (e ▸ hq)
  refine ⟨⟨fun p hm => ?_, ?_, fun p hm hr => ?_, ?_, fun x => ?_, fun p hm => ?_⟩, hobj⟩
  · rcases List.mem_append.mp hm with hm | hm
    · exact hc.live p hm
    · exact (hlive p hm).trans_le hc.agrees.next_le
  · refine List.nodup_append.mpr ⟨hc.nodup, hnd, fun a ha b hb e => ?_⟩
    rcases hc.refs a ha with h1 | h1
    · exact hnq (h1 ▸ e ▸ hb)
    · have := hlive b hb
      omega
  · rcases List.mem_append.mp hm with hm | hm
    · rcases hc.refs p hm with e | e
      · exact hp.fresh new List.mem_cons_self (e ▸ hr)
      · exact absurd (hl p hr) (not_lt.mpr e)
    · exact hp.fresh p (List.mem_cons_of_mem _ hm) hr
  · refine List.pairwise_append.mpr ⟨hc.disjoint, ?_, fun a ha b hb => ?_⟩
    · exact hdis.imp_of_mem fun ha hb hab => by rw [hobj _ ha, hobj _ hb]; exact hab
    · rw [hobj b hb]
      exact disjoint_mono_left (hdq b hb) (hc.within a ha)
  · rw [Range.rhoAt_append, hc.dens, Range.rhoAt_congr hobj, ← hp.dens, Range.rhoAt_cons]
  · rcases List.mem_append.mp hm with hm | hm
    · exact (hc.within p hm).trans (hp.within new List.mem_cons_self)
    · rw [hobj p hm]
      exact hp.within p (List.mem_cons_of_mem _ hm)

/-- Cutting one piece separates it from itself and from the others. -/
theorem Sep.split {h h' : Store Range} {rs d w qs : List ℕ} {new : ℕ} {N : Range} (hs : SetWF h rs)
    (hp : Parts h rs N (new :: qs)) (hsep : Sep h rs (new :: qs)) (hc : Split h rs new h' d w) :
    Sep h' rs (d ++ w ++ qs) := by
  have hnew := hp.fresh new List.mem_cons_self
  obtain ⟨-, hobj⟩ := hp.split hs.live hc
  intro r hr
  have hor : h'.obj r = h.obj r := hc.agrees.obj_eq r (hs.live r hr) fun e => hnew (e ▸ hr)
  obtain ⟨h1, h2⟩ := List.pairwise_cons.mp (hsep r hr)
  refine List.pairwise_append.mpr ⟨hc.sep hs hnew r hr, ?_, fun a ha b hb => ?_⟩
  · exact h2.imp_of_mem fun ha hb hab => by rw [hobj _ ha, hobj _ hb, hor]; exact hab
  · rw [hobj b hb, hor]
    exact (h1 b hb).imp_left fun hd => disjoint_mono_left hd (hc.within a ha)

/-- What one round does to the pieces `ws` still to be cut, beside pieces `ds` done already. -/
structure Round (h : Store Range) (rs ds ws : List ℕ) (N : Range) (h' : Store Range) (d w : List ℕ) :
    Prop where
  /-- Only the pieces to be cut change. -/
  agrees : h.Agrees h' fun o => o ∈ ws
  /-- Every range is well formed again. -/
  wf : Range.AllWF h'
  /-- The new pieces are old ones and fresh ones. -/
  refs : ∀ o ∈ d ++ w, o ∈ ws ∨ h.next ≤ o
  /-- The pieces are those of the range still. -/
  parts : Parts h' rs N (ds ++ (d ++ w))
  /-- What is left over. -/
  leftover : w.map h'.obj = (ws.map h.obj).flatMap (leftovers (rs.map h.obj))
  /-- When nothing is left over, nothing was cut. -/
  done : w = [] → h' = h ∧ d = ws
  /-- The parts cut off are settled. -/
  settled : SetWF h rs → ∀ p ∈ d, Settled h' rs (h'.obj p)
  /-- No stored range overlaps two of the pieces. -/
  sep : SetWF h rs → Sep h rs (ds ++ ws) → Sep h' rs (ds ++ (d ++ w))

/-- A set whose ranges did not change settles what it settled. -/
theorem Settled.congr {h h' : Store Range} {rs : List ℕ} {p : Range} (ho : ∀ r ∈ rs, h'.obj r = h.obj r)
    (hs : Settled h rs p) : Settled h' rs p :=
  fun r hr => by rw [ho r hr]; exact hs r hr

/-- `__decompose_range2` for each piece of the round. -/
theorem decompose_round_spec {h : Store Range} (hwf : Range.AllWF h) {rs ds ws : List ℕ} {N : Range}
    (hl : ∀ r ∈ rs, r < h.next) (hp : Parts h rs N (ds ++ ws)) :
    ∃ h' d w, decompose_round rs h ws = .ok (h', d, w) ∧ Round h rs ds ws N h' d w := by
  induction ws generalizing h ds with
  | nil =>
    exact ⟨h, [], [], rfl, .refl _ _, hwf, by simp, by simpa using hp, by simp, by simp, by simp, by simp⟩
  | cons n ws ih =>
    have hmid : (ds ++ n :: ws).Perm (n :: (ds ++ ws)) := List.perm_middle
    have hp₀ := hp.perm hmid
    have hnn := hp₀.live n List.mem_cons_self
    have hnr := hp₀.fresh n List.mem_cons_self
    obtain ⟨h₁, d₁, w₁, hrun₁, hcut, hleft⟩ := decompose_range2_cut hwf hnn hl
    have hc := hcut.split hwf hnn hl
    obtain ⟨hp₁, hobj⟩ := hp₀.split hl hc
    have hreord : (d₁ ++ w₁ ++ (ds ++ ws)).Perm (ds ++ d₁ ++ w₁ ++ ws) := by
      rw [List.perm_iff_count]
      intro a
      simp only [List.count_append]
      omega
    have hrs : ∀ r ∈ rs, h₁.obj r = h.obj r := fun r hr =>
      hc.agrees.obj_eq r (hl r hr) fun e => hnr (e ▸ hr)
    have hl₁ : ∀ r ∈ rs, r < h₁.next := fun r hr => (hl r hr).trans_le hc.agrees.next_le
    obtain ⟨h', d₂, w₂, hrun₂, hr⟩ := ih hc.wf hl₁ (hp₁.perm hreord)
    have hws : ∀ q ∈ ws, h₁.obj q = h.obj q := fun q hq => hobj q (List.mem_append_right _ hq)
    have hrs' : ∀ r ∈ rs, h'.obj r = h₁.obj r := fun r hr' =>
      hr.agrees.obj_eq r (hl₁ r hr') fun e => hp.fresh r (by simp [e]) hr'
    -- the pieces cut first are not touched again
    have hfirst : ∀ q ∈ d₁ ++ w₁, h'.obj q = h₁.obj q := fun q hq =>
      hr.agrees.obj_eq q (hc.live q hq) fun e => by
        have := List.disjoint_of_nodup_append hp₁.nodup hq
        exact this (List.mem_append_right _ e)
    have hreord' : (ds ++ d₁ ++ w₁ ++ (d₂ ++ w₂)).Perm (ds ++ (d₁ ++ d₂ ++ (w₁ ++ w₂))) := by
      rw [List.perm_iff_count]
      intro a
      simp only [List.count_append]
      omega
    refine ⟨h', d₁ ++ d₂, w₁ ++ w₂, ?_, ?_, hr.wf, fun o ho => ?_, hr.parts.perm hreord', ?_, ?_, ?_, ?_⟩
    · rw [decompose_round, hrun₁]
      simp only [ok_bind, hrun₂]
      rfl
    · refine ⟨hc.agrees.next_le.trans hr.agrees.next_le, fun o ho hn => ?_⟩
      obtain ⟨h1, h2⟩ := not_or.mp fun e => hn (List.mem_cons.mpr e)
      rw [hr.agrees.obj_eq o (ho.trans_le hc.agrees.next_le) h2, hc.agrees.obj_eq o ho h1]
    · have hm : o ∈ d₁ ++ w₁ ∨ o ∈ d₂ ++ w₂ := by
        simp only [List.mem_append] at ho ⊢
        tauto
      rcases hm with hm | hm
      · exact (hc.refs o hm).imp_left fun e : o = n => e ▸ List.mem_cons_self
      · exact (hr.refs o hm).imp (List.mem_cons_of_mem _) hc.agrees.next_le.trans
    · rw [List.map_append, hr.leftover, List.map_congr_left fun q hq =>
        hfirst q (List.mem_append_right _ hq), hleft, List.map_congr_left hws, List.map_congr_left hrs]
      rfl
    · intro hw
      obtain ⟨e₁, e₂⟩ := List.append_eq_nil_iff.mp hw
      obtain ⟨rfl, rfl⟩ := hc.done e₁
      obtain ⟨rfl, rfl⟩ := hr.done e₂
      exact ⟨rfl, rfl⟩
    · intro hs p hpd
      have hs₁ := hs.congr hc.agrees.next_le hrs
      rcases List.mem_append.mp hpd with hm | hm
      · rw [hfirst p (List.mem_append_left _ hm)]
        exact (hc.settled hs hnr p hm).congr hrs'
      · exact hr.settled hs₁ p hm
    · intro hs hsep
      have hs₁ := hs.congr hc.agrees.next_le hrs
      exact (hr.sep hs₁ ((Sep.split hs hp₀ (hsep.perm hmid) hc).perm hreord)).perm hreord'

/-- What is left of the ranges `ps` to be cut after `k` rounds. -/
def frontier (rs : List Range) : ℕ → List Range → List Range
  | 0, ps => ps
  | k + 1, ps => frontier rs k (ps.flatMap (leftovers rs))

theorem frontier_nil (rs : List Range) (k : ℕ) : frontier rs k [] = [] := by
  induction k with
  | zero => rfl
  | succ k ih => exact ih

/-- The rounds end with pieces `d ++ w` of the range, of which `w` are those of the last round. -/
structure Decomposed (h : Store Range) (rs ds ws : List ℕ) (N : Range) (h' : Store Range)
    (d w : List ℕ) : Prop where
  /-- Only the pieces to be cut change. -/
  agrees : h.Agrees h' fun o => o ∈ ws
  /-- Every range is well formed again. -/
  wf : Range.AllWF h'
  /-- The pieces are old ones and fresh ones. -/
  refs : ∀ o ∈ d ++ w, o ∈ ds ++ ws ∨ h.next ≤ o
  /-- The pieces are those of the range. -/
  parts : Parts h' rs N (d ++ w)
  /-- There was a last round. -/
  ne : w ≠ []
  /-- All but the pieces of the last round are settled. -/
  settled : SetWF h rs → (∀ p ∈ ds, Settled h rs (h.obj p)) → ∀ p ∈ d, Settled h' rs (h'.obj p)
  /-- No stored range overlaps two of the pieces. -/
  sep : SetWF h rs → Sep h rs (ds ++ ws) → Sep h' rs (d ++ w)

/-- The pieces of a range that is cut against a set of pairwise disjoint ranges. -/
theorem Decomposed.fragments {h h' : Store Range} {rs d w : List ℕ} {new : ℕ} {N : Range}
    (hd : Decomposed h rs [] [new] N h' d w) (hs : SetWF h rs) : Fragments h' rs (d ++ w) :=
  ⟨hd.parts.live, hd.parts.nodup, hd.parts.fresh, hd.parts.disjoint, hd.sep hs fun r _ => by simp⟩

/-- The rounds either come to an end, and the pieces of the last round are listed twice, or
there are too many of them. -/
theorem decompose_rounds_spec (n : ℕ) {h : Store Range} (hwf : Range.AllWF h) {rs ds ws : List ℕ}
    {N : Range} (hl : ∀ r ∈ rs, r < h.next) (hp : Parts h rs N (ds ++ ws)) (hw : ws ≠ []) :
    ∃ h' d w, Decomposed h rs ds ws N h' d w ∧
      ((∃ k < n, decompose_rounds rs n h ds ws = .ok (h', d ++ w ++ w) ∧
          w.map h'.obj = frontier (rs.map h.obj) k (ws.map h.obj) ∧
          frontier (rs.map h.obj) (k + 1) (ws.map h.obj) = [] ∧
          (SetWF h rs → ∀ p ∈ w, Settled h' rs (h'.obj p))) ∨
        (decompose_rounds rs n h ds ws = .ok (h', d ++ w) ∧
          w.map h'.obj = frontier (rs.map h.obj) n (ws.map h.obj))) := by
  induction n generalizing h ds ws with
  | zero =>
    exact ⟨h, ds, ws, ⟨.refl _ _, hwf, by simp +contextual, hp, hw, fun _ hds => hds, fun _ hsep => hsep⟩,
      .inr ⟨rfl, rfl⟩⟩
  | succ n ih =>
    obtain ⟨h₁, d₁, w₁, hrun, hr⟩ := decompose_round_spec hwf hl hp
    have hrs : ∀ r ∈ rs, h₁.obj r = h.obj r := fun r hr' =>
      hr.agrees.obj_eq r (hl r hr') fun e => hp.fresh r (List.mem_append_right _ e) hr'
    by_cases he : w₁ = []
    · -- nothing is left over: `break`
      obtain ⟨rfl, rfl⟩ := hr.done he
      refine ⟨h₁, ds, d₁, ⟨.refl _ _, hwf, by simp +contextual, hp, hw, fun _ hds => hds, fun _ hsep => hsep⟩,
        .inl ⟨0, Nat.succ_pos n, ?_, rfl, ?_, hr.settled⟩⟩
      · rw [decompose_rounds, hrun]
        simp only [ok_bind]
        rw [if_pos he]
        rfl
      · rw [frontier, frontier, ← hr.leftover, he, List.map_nil]
    · -- another round
      have hl₁ : ∀ r ∈ rs, r < h₁.next := fun r hr' => (hl r hr').trans_le hr.agrees.next_le
      have hpw : Parts h₁ rs N (ds ++ d₁ ++ w₁) := by
        rw [List.append_assoc]
        exact hr.parts
      have hS : rs.map h₁.obj = rs.map h.obj := List.map_congr_left hrs
      have hfr : ∀ k, frontier (rs.map h₁.obj) k (w₁.map h₁.obj) =
          frontier (rs.map h.obj) (k + 1) (ws.map h.obj) := by
        intro k
        rw [frontier, hr.leftover, hS]
      have hstep : decompose_rounds rs (n + 1) h ds ws = decompose_rounds rs n h₁ (ds ++ d₁) w₁ := by
        rw [decompose_rounds, hrun]
        simp only [ok_bind]
        rw [if_neg he]
      obtain ⟨h', d, w, hd, hout⟩ := ih hr.wf hl₁ hpw he
      have hds₁ : ∀ p ∈ ds, h₁.obj p = h.obj p := fun p hpd =>
        hr.agrees.obj_eq p (hp.live p (List.mem_append_left _ hpd)) fun e =>
          List.disjoint_of_nodup_append hp.nodup hpd e
      refine ⟨h', d, w, ⟨?_, hd.wf, fun o ho => ?_, hd.parts, hd.ne, fun hs hds => ?_, fun hs hsep => ?_⟩, ?_⟩
      · refine ⟨hr.agrees.next_le.trans hd.agrees.next_le, fun o ho hn => ?_⟩
        rw [hd.agrees.obj_eq o (ho.trans_le hr.agrees.next_le) fun e => ?_, hr.agrees.obj_eq o ho hn]
        rcases hr.refs o (List.mem_append_right _ e) with h1 | h1
        · exact hn h1
        · omega
      · rcases hd.refs o ho with h1 | h1
        · rcases List.mem_append.mp (List.append_assoc ds d₁ w₁ ▸ h1) with h2 | h2
          · exact .inl (List.mem_append_left _ h2)
          · exact (hr.refs o h2).imp_left (List.mem_append_right _)
        · exact .inr (hr.agrees.next_le.trans h1)
      · refine hd.settled (hs.congr hr.agrees.next_le hrs) fun p hpd => ?_
        rcases List.mem_append.mp hpd with hpd | hpd
        · rw [hds₁ p hpd]
          exact (hds p hpd).congr hrs
        · exact hr.settled hs p hpd
      · refine hd.sep (hs.congr hr.agrees.next_le hrs) ?_
        rw [List.append_assoc]
        exact hr.sep hs hsep
      · rw [hstep]
        refine hout.imp ?_ ?_
        · rintro ⟨k, hk, hrun', hw', hfin, hset⟩
          rw [hfr] at hw' hfin
          exact ⟨k + 1, by omega, hrun', hw', hfin, fun hs => hset (hs.congr hr.agrees.next_le hrs)⟩
        · rintro ⟨hrun', hw'⟩
          rw [hfr] at hw'
          exact ⟨hrun', hw'⟩

/-! ### The whole decomposition -/

/-- The cutting of `N` against `rs` comes to an end, with the pieces `ps` in the last round. -/
def LastRound (rs : List Range) (N : Range) (ps : List Range) : Prop :=
  ∃ k < 30, frontier rs k [N] = ps ∧ ps ≠ [] ∧ frontier rs (k + 1) [N] = []

/-- The cutting of `N` against `rs` takes more than thirty rounds. -/
def GivesUp (rs : List Range) (N : Range) : Prop := frontier rs 30 [N] ≠ []

/-- **Cutting a range**: the pieces `d ++ w` make up the range and no stored range overlaps two
of them. Either all are settled, and `w`, the pieces of the last round, are returned twice, or
the cutting gives up. -/
theorem decompose_range_spec {h : Store Range} (hwf : Range.AllWF h) {rs : List ℕ} {new : ℕ}
    (hl : ∀ r ∈ rs, r < h.next) (hn : new < h.next) (hnew : new ∉ rs) :
    ∃ h' d w, Decomposed h rs [] [new] (h.obj new) h' d w ∧
      ((LastRound (rs.map h.obj) (h.obj new) (w.map h'.obj) ∧
          decompose_range h rs new = .ok (h', d ++ w ++ w) ∧
          (SetWF h rs → ∀ p ∈ w, Settled h' rs (h'.obj p))) ∨
        (GivesUp (rs.map h.obj) (h.obj new) ∧ decompose_range h rs new = .ok (h', d ++ w) ∧
          w.map h'.obj = frontier (rs.map h.obj) 30 [h.obj new])) := by
  have hp : Parts h rs (h.obj new) ([] ++ [new]) :=
    ⟨by simp [hn], by simp, by simp [hnew], by simp, by simp, by simp [Range.Within]⟩
  obtain ⟨h', d, w, hd, hout⟩ := decompose_rounds_spec 30 hwf hl hp (List.cons_ne_nil _ _)
  have hne : w.map h'.obj ≠ [] := fun e => hd.ne (List.map_eq_nil_iff.mp e)
  refine ⟨h', d, w, hd, hout.imp ?_ ?_⟩
  · rintro ⟨k, hk, hrun, hw, hfin, hset⟩
    exact ⟨⟨k, hk, hw.symm, hne, hfin⟩, hrun, hset⟩
  · rintro ⟨hrun, hw⟩
    exact ⟨fun e => hne (hw.trans e), hrun, hw⟩

/-- The rounds after the last one have nothing to cut. -/
theorem frontier_eq_nil_of_le {rs : List Range} {j k : ℕ} (hjk : j ≤ k) {ps : List Range}
    (hj : frontier rs j ps = []) : frontier rs k ps = [] := by
  induction j generalizing k ps with
  | zero =>
    rw [show ps = [] from hj]
    exact frontier_nil rs k
  | succ j ih =>
    cases k with
    | zero => omega
    | succ k => exact ih (Nat.le_of_succ_le_succ hjk) hj

/-- A cutting that comes to an end does not give up. -/
theorem LastRound.not_givesUp {rs : List Range} {N : Range} {ps : List Range}
    (hl : LastRound rs N ps) : ¬ GivesUp rs N := by
  obtain ⟨k, hk, -, -, hfin⟩ := hl
  exact fun hg => hg (frontier_eq_nil_of_le hk hfin)

/-- There is one last round. -/
theorem LastRound.unique {rs : List Range} {N : Range} {ps qs : List Range} (hp : LastRound rs N ps)
    (hq : LastRound rs N qs) : ps = qs := by
  obtain ⟨j, -, hj, hjne, hjfin⟩ := hp
  obtain ⟨k, -, hk, hkne, hkfin⟩ := hq
  rcases lt_trichotomy j k with hlt | rfl | hlt
  · exact absurd (hk.symm.trans (frontier_eq_nil_of_le hlt hjfin)) hkne
  · exact hj.symm.trans hk
  · exact absurd (hj.symm.trans (frontier_eq_nil_of_le hlt hkfin)) hjne

end RangeSet

end SEDiff.Juxta
