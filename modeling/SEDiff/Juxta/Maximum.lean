import SEDiff.Juxta.Addition
import SEDiff.Juxta.Stranding
import SEDiff.Juxta.RangeSetVector

/-!
# The maximum of densities

`union_assign` is meant to take the pointwise maximum of two densities, and `add_path` that of
all the paths of a function.

## What is proved

* `RangeSet.union_assign_reaches` — it does, when no insertion gives up with a piece that leaves something behind which a later
  stored range overlaps.
* `RangeSet.union_assign_strands` — it does not otherwise, when the weights are positive.
* `RangeSetVector.union_max` — the same in each dimension of two vectors, which are left alone.
* `RangeSetVector.add_paths_max` — the densities after `add_path` over the paths are the
  largest of the paths'.
-/

namespace SEDiff.Juxta

open Foundation

namespace RangeSet

/-- **Inserting by maximum**: combining the weight of the last pieces with itself is harmless. -/
theorem union_with_settled {h : Store Range} (hwf : Range.AllWF h) {rs : List ℕ} (hs : SetWF h rs)
    {new : ℕ} (hn : new < h.next) (hnew : new ∉ rs) (hset : Settles (rs.map h.obj) (h.obj new)) :
    ∃ h' rs', add_with Range.union_assign h rs new = .ok (h', rs') ∧
      Touches h rs [new] h' rs' ∧ Range.AllWF h' ∧ SetWF h' rs' ∧
      ∀ x, Range.rhoAt h' rs' x = max (Range.rhoAt h rs x) ((h.obj new).rho x) := by
  obtain ⟨h', rs', h₁, w, hrun, ha⟩ := add_with_settled Range.merge_max hwf hs hn hnew hset
  refine ⟨h', rs', hrun, ha.touches, ha.wf, ha.set, fun x => ?_⟩
  have hsame : Range.rhoAt h' w x = Range.rhoAt h₁ w x := by
    unfold Range.rhoAt
    rw [List.map_congr_left fun p hp => by rw [(ha.again p hp).2, rho_doubled Range.merge_max, max_self]]
  rw [ha.dens, hsame, sub_self, add_zero]

/-- Ranges apart from each other contribute one at a time. -/
theorem rho_eq_zero_or {h : Store Range} {rs : List ℕ} {o : ℕ}
    (hd : ∀ r ∈ rs, (h.obj o).Disjoint (h.obj r)) (x : ℤ) :
    (h.obj o).rho x = 0 ∨ Range.rhoAt h rs x = 0 := by
  by_cases hx : (h.obj o).start ≤ x ∧ x ≤ (h.obj o).stop
  · refine .inr (rhoAt_eq_zero fun r hr hxr => ?_)
    rcases hd r hr with hlt | hlt <;> omega
  · exact .inl (box_of_not_mem hx)

/-- Of two densities of which one is zero, the sum is the maximum. -/
theorem max_rho_add {r : Range} (hr : r.WF) {x : ℤ} {b : ℚ} (hb : 0 ≤ b) (h0 : r.rho x = 0 ∨ b = 0) :
    max (r.rho x) b = r.rho x + b := by
  rcases h0 with h0 | h0
  · rw [h0, zero_add, max_eq_right hb]
  · rw [h0, add_zero, max_eq_left (Range.rho_nonneg hr x)]

/-- **`union_assign` is the pointwise maximum** when every insertion settles. -/
theorem union_assign_settled {h : Store Range} (hwf : Range.AllWF h) {rs xs : List ℕ} (hs : SetWF h rs)
    (hx : Args h rs xs) (hxs : SetWF h xs) (hset : BeforeEach Range.union_assign Settles h rs xs) :
    ∃ h' rs', union_assign h rs xs = .ok (h', rs') ∧ Touches h rs xs h' rs' ∧ Range.AllWF h' ∧
      SetWF h' rs' ∧
      ∀ x, Range.rhoAt h' rs' x = max (Range.rhoAt h rs x) (Range.rhoAt h xs x) := by
  induction xs generalizing h rs with
  | nil =>
    refine ⟨h, rs, rfl, .nil _ _, hwf, hs, fun x => ?_⟩
    rw [Range.rhoAt_nil, max_eq_left (Range.rhoAt_nonneg (fun o ho => hwf o (hs.live o ho)) x)]
  | cons y xs ih =>
    have hym : y ∈ y :: xs := List.mem_cons_self
    obtain ⟨h₁, rs₁, hrun₁, ht₁, hwf₁, hs₁, hdens₁⟩ :=
      union_with_settled hwf hs (hx.live y hym) (hx.fresh y hym) hset.1
    obtain ⟨hx₁, hobj⟩ := hx.tail ht₁
    obtain ⟨hyd, hxd⟩ := List.pairwise_cons.mp hxs.disjoint
    have hxs₁ : SetWF h₁ xs := by
      refine SetWF.congr ⟨fun o ho => hx.live o (List.mem_cons_of_mem _ ho), ?_, hxd⟩ ht₁.agrees.next_le hobj
      exact (List.nodup_cons.mp hx.nodup).2
    obtain ⟨h', rs', hrun, ht, hwf', hs', hdens⟩ :=
      ih hwf₁ hs₁ hx₁ hxs₁ ((beforeEach_cons hrun₁).mp hset).2
    refine ⟨h', rs', ?_, ht₁.cons ht, hwf', hs', fun x => ?_⟩
    · rw [union_assign, add_all, hrun₁]
      exact hrun
    · rw [hdens, hdens₁, Range.rhoAt_congr hobj, Range.rhoAt_cons, max_assoc, max_rho_add (hwf y (hx.live y hym))
        (Range.rhoAt_nonneg (fun o ho => hwf o (hx.live o (List.mem_cons_of_mem _ ho))) x) (rho_eq_zero_or hyd x)]

/-! ### Also when the cutting gives up, and for ranges that the set holds -/

theorem doubled_max (r : Range) : doubled max r = r := by rw [doubled, max_self]

/-- What inserting a range by maximum does to a set of pairwise disjoint ranges. -/
structure Raised (h : Store Range) (rs : List ℕ) (new : ℕ) (h' : Store Range) (rs' : List ℕ) : Prop where
  /-- Nothing else is touched. -/
  touches : Touches h rs [new] h' rs'
  /-- Of the stored ranges, only those that overlap the new one change. -/
  near : h.Agrees h' fun o => o = new ∨ o ∈ rs ∧ ¬ (h.obj new).Disjoint (h.obj o)
  /-- Every range is well formed again. -/
  wf : Range.AllWF h'
  /-- The set is a set of pairwise disjoint ranges again. -/
  set : SetWF h' rs'
  /-- The density is the maximum. -/
  dens : ∀ x, Range.rhoAt h' rs' x = max (Range.rhoAt h rs x) ((h.obj new).rho x)

/-- A range that the set does not hold, when the pieces left over pass the set. -/
theorem union_with_reaches {h : Store Range} (hwf : Range.AllWF h) {rs : List ℕ} (hs : SetWF h rs) {new : ℕ}
    (hn : new < h.next) (hnew : new ∉ rs) (hr : Reaches (rs.map h.obj) (h.obj new)) :
    ∃ h' rs', add_with Range.union_assign h rs new = .ok (h', rs') ∧ Raised h rs new h' rs' := by
  by_cases hg : GivesUp (rs.map h.obj) (h.obj new)
  · obtain ⟨h', rs', hrun, ha⟩ := add_with_reaches Range.merge_max hwf hs hn hnew hg hr
    refine ⟨h', rs', hrun, ⟨ha.agrees.mono fun o e => ?_, fun o ho => ?_⟩, ha.agrees, ha.wf, ha.set, ha.dens⟩
    · exact e.imp (fun e => List.mem_singleton.mpr e) And.left
    · exact (ha.refs o ho).imp_left fun e => List.mem_singleton.mpr e
  · obtain ⟨h', rs', h₁, w, hrun, ha⟩ :=
      add_with_settled Range.merge_max hwf hs hn hnew (settles_of_not_givesUp hg)
    refine ⟨h', rs', hrun, ha.touches, ha.near, ha.wf, ha.set, fun x => ?_⟩
    have hsame : Range.rhoAt h' w x = Range.rhoAt h₁ w x :=
      Range.rhoAt_congr (fun p hp => by rw [(ha.again p hp).2, doubled_max]) x
    rw [ha.dens, hsame, sub_self, add_zero]

/-- A range that the set holds is not cut. -/
theorem decompose_range2_self {h : Store Range} (hwf : Range.AllWF h) {rs : List ℕ} (hs : SetWF h rs) {new : ℕ}
    (hnew : new ∈ rs) :
    decompose_range2 h new rs = .ok (h, [new], []) ∧ leftovers (rs.map h.obj) (h.obj new) = [] := by
  have hn := hs.live new hnew
  have hsn := (hwf new hn).sane
  -- the only stored range that overlaps it is itself
  have hself : ∀ r ∈ rs, ¬ (h.obj new).Disjoint (h.obj r) → r = new := fun r hr hover => by
    by_contra hne
    exact hover (hs.disjoint.forall hnew hr fun e => hne e.symm)
  obtain ⟨h', d, w, hrun, hcut, hleft⟩ := decompose_range2_cut hwf hn hs.live
  cases hcut with
  | gap hd => exact ⟨hrun, hleft.symm⟩
  | within r hr hin => exact ⟨hrun, hleft.symm⟩
  | head r hr h1 h2 h3 =>
    have e := hself r hr (by rintro (h4 | h4) <;> omega)
    rw [e] at h3
    exact absurd h3 (lt_irrefl _)
  | tail r hr h1 h2 h3 =>
    have e := hself r hr (by rintro (h4 | h4) <;> omega)
    rw [e] at h1
    exact absurd h1 (lt_irrefl _)
  | middle r hr h1 h2 h3 =>
    have e := hself r hr (by rintro (h4 | h4) <;> omega)
    rw [e] at h1
    exact absurd h1 (lt_irrefl _)

/-- It is returned twice. -/
theorem decompose_range_self {h : Store Range} (hwf : Range.AllWF h) {rs : List ℕ} (hs : SetWF h rs) {new : ℕ}
    (hnew : new ∈ rs) : decompose_range h rs new = .ok (h, [new, new]) := by
  rw [decompose_range, decompose_rounds, decompose_round, (decompose_range2_self hwf hs hnew).1]
  rfl

/-- Nothing of it is left over. -/
theorem reaches_of_mem {h : Store Range} (hwf : Range.AllWF h) {rs : List ℕ} (hs : SetWF h rs) {new : ℕ}
    (hnew : new ∈ rs) : Reaches (rs.map h.obj) (h.obj new) := by
  have hone : frontier (rs.map h.obj) 1 [h.obj new] = [] := by
    simp [frontier, (decompose_range2_self hwf hs hnew).2]
  intro p hp
  rw [frontier_eq_nil_of_le (by decide) hone] at hp
  exact absurd hp List.not_mem_nil

/-- A range that the set holds meets only itself. -/
theorem union_with_shared {h : Store Range} (hwf : Range.AllWF h) {rs : List ℕ} (hs : SetWF h rs) {new : ℕ}
    (hnew : new ∈ rs) : ∃ h' rs', add_with Range.union_assign h rs new = .ok (h', rs') ∧ Raised h rs new h' rs' := by
  have hself : ∀ {g : Store Range} {ss : List ℕ}, Range.AllWF g → SetWF g ss → new ∈ ss →
      ∃ ss', ss'.Perm ss ∧ add_with2 Range.union_assign g ss new = .ok (g, ss') := by
    intro g ss hwf hs hm
    obtain ⟨ss', hp, hrun⟩ := add_with2_self Range.merge_max hwf hs hm
    rw [doubled_max, Store.set_obj_self] at hrun
    exact ⟨ss', hp, hrun⟩
  obtain ⟨rs₁, hp₁, hrun₁⟩ := hself hwf hs hnew
  obtain ⟨rs₂, hp₂, hrun₂⟩ := hself hwf (hs.perm hp₁.symm) (hp₁.mem_iff.mpr hnew)
  have hp := hp₂.trans hp₁
  refine ⟨h, rs₂, ?_, ⟨.refl _ _, fun o ho => .inr (.inl (hp.mem_iff.mp ho))⟩, .refl _ _, hwf, hs.perm hp.symm, fun x => ?_⟩
  · rw [add_with, decompose_range_self hwf hs hnew]
    simp only [ok_bind]
    rw [add_pieces, hrun₁]
    simp only [ok_bind]
    rw [add_pieces, hrun₂]
    rfl
  · obtain ⟨l₁, l₂, rfl⟩ := List.append_of_mem hnew
    have hmid : (l₁ ++ new :: l₂).Perm (new :: (l₁ ++ l₂)) := List.perm_middle
    have hnn : 0 ≤ Range.rhoAt h (l₁ ++ l₂) x :=
      Range.rhoAt_nonneg (fun o ho => hwf o (hs.live o (hmid.mem_iff.mpr (List.mem_cons_of_mem _ ho)))) x
    rw [Range.rhoAt_perm hp, Range.rhoAt_perm hmid, Range.rhoAt_cons, max_eq_left (le_add_of_nonneg_right hnn)]

/-- A range that reaches, whether or not the set holds it. -/
theorem union_with_raised {h : Store Range} (hwf : Range.AllWF h) {rs : List ℕ} (hs : SetWF h rs) {new : ℕ}
    (hn : new < h.next) (hr : Reaches (rs.map h.obj) (h.obj new)) :
    ∃ h' rs', add_with Range.union_assign h rs new = .ok (h', rs') ∧ Raised h rs new h' rs' := by
  by_cases hnew : new ∈ rs
  · exact union_with_shared hwf hs hnew
  · exact union_with_reaches hwf hs hn hnew hr

/-- The ranges still to be inserted are apart from the first, and so as they were, whether or not the set holds them. -/
theorem Raised.tail {h h' : Store Range} {rs rs' xs : List ℕ} {y : ℕ} (hxs : SetWF h (y :: xs)) (ha : Raised h rs y h' rs') :
    SetWF h' xs ∧ ∀ o ∈ xs, h'.obj o = h.obj o := by
  obtain ⟨hyd, hxd⟩ := List.pairwise_cons.mp hxs.disjoint
  obtain ⟨hyx, hnd⟩ := List.nodup_cons.mp hxs.nodup
  have hlive : ∀ o ∈ xs, o < h.next := fun o ho => hxs.live o (List.mem_cons_of_mem _ ho)
  have hobj : ∀ o ∈ xs, h'.obj o = h.obj o := fun o ho =>
    ha.near.obj_eq o (hlive o ho) (by
      rintro (e | ⟨-, e⟩)
      · exact hyx (e ▸ ho)
      · exact e (hyd o ho))
  exact ⟨SetWF.congr ⟨hlive, hnd, hxd⟩ ha.near.next_le hobj, hobj⟩

/-- The maximum of the set and the ranges still to be inserted is the same before and after the first. -/
theorem Raised.max_eq {h h' : Store Range} (hwf : Range.AllWF h) {rs rs' xs : List ℕ} {y : ℕ} (hxs : SetWF h (y :: xs))
    (ha : Raised h rs y h' rs') (x : ℤ) :
    max (Range.rhoAt h' rs' x) (Range.rhoAt h' xs x) = max (Range.rhoAt h rs x) (Range.rhoAt h (y :: xs) x) := by
  rw [ha.dens, Range.rhoAt_congr (ha.tail hxs).2, Range.rhoAt_cons, max_assoc, max_rho_add (hwf y (hxs.live y List.mem_cons_self))
    (Range.rhoAt_nonneg (fun o ho => hwf o (hxs.live o (List.mem_cons_of_mem _ ho))) x)
    (rho_eq_zero_or (List.pairwise_cons.mp hxs.disjoint).1 x)]

/-- **`union_assign` is the pointwise maximum** when every insertion reaches, also when the two sets share ranges. -/
theorem union_assign_reaches {h : Store Range} (hwf : Range.AllWF h) {rs xs : List ℕ} (hs : SetWF h rs) (hxs : SetWF h xs)
    (hr : BeforeEach Range.union_assign Reaches h rs xs) :
    ∃ h' rs', union_assign h rs xs = .ok (h', rs') ∧ Touches h rs xs h' rs' ∧ Range.AllWF h' ∧ SetWF h' rs' ∧
      ∀ x, Range.rhoAt h' rs' x = max (Range.rhoAt h rs x) (Range.rhoAt h xs x) := by
  induction xs generalizing h rs with
  | nil =>
    refine ⟨h, rs, rfl, .nil _ _, hwf, hs, fun x => ?_⟩
    rw [Range.rhoAt_nil, max_eq_left (Range.rhoAt_nonneg (fun o ho => hwf o (hs.live o ho)) x)]
  | cons y xs ih =>
    obtain ⟨h₁, rs₁, hrun₁, ha⟩ := union_with_raised hwf hs (hxs.live y List.mem_cons_self) hr.1
    obtain ⟨h', rs', hrun, ht, hwf', hs', hdens⟩ := ih ha.wf ha.set (ha.tail hxs).1 ((beforeEach_cons hrun₁).mp hr).2
    refine ⟨h', rs', ?_, ha.touches.cons ht, hwf', hs', fun x => ?_⟩
    · rw [union_assign, add_all, hrun₁]
      exact hrun
    · rw [hdens, ha.max_eq hwf hxs]

/-- **Otherwise it is not**, when the weights are positive: where an insertion adds, both sets have ranges, and the later
insertions do not touch it. -/
theorem union_assign_strands {h : Store Range} (hwf : Range.AllWF h) {rs xs : List ℕ} (hs : SetWF h rs) (hxs : SetWF h xs)
    (hrs : ∀ o ∈ rs, Positive (h.obj o)) (hpos : ∀ o ∈ xs, Positive (h.obj o))
    (hnot : ¬ BeforeEach Range.union_assign Reaches h rs xs) :
    ∃ h' rs' x, union_assign h rs xs = .ok (h', rs') ∧
      max (Range.rhoAt h rs x) (Range.rhoAt h xs x) < Range.rhoAt h' rs' x := by
  induction xs generalizing h rs with
  | nil => exact absurd trivial hnot
  | cons y xs ih =>
    have hym : y ∈ y :: xs := List.mem_cons_self
    have hyn := hxs.live y hym
    by_cases hr : Reaches (rs.map h.obj) (h.obj y)
    · obtain ⟨h₁, rs₁, hrun₁, ha⟩ := union_with_raised hwf hs hyn hr
      obtain ⟨h₂, rs₂, hrun₂, hc⟩ := add_with_carried stable_weight Range.merge_max hwf ⟨hs.live, hs.nodup, hrs⟩ hyn
        (hpos y hym)
      obtain ⟨rfl, rfl⟩ := Prod.mk.inj (Except.ok.inj (hrun₁.symm.trans hrun₂))
      obtain ⟨hxs₁, hobj⟩ := ha.tail hxs
      obtain ⟨h', rs', x, hrun, hlt⟩ := ih ha.wf ha.set hxs₁ hc.holding.held
        (fun o ho => hobj o ho ▸ hpos o (List.mem_cons_of_mem _ ho)) fun h1 => hnot ((beforeEach_cons hrun₁).mpr ⟨hr, h1⟩)
      refine ⟨h', rs', x, ?_, ha.max_eq hwf hxs x ▸ hlt⟩
      rw [union_assign, add_all, hrun₁]
      exact hrun
    · obtain ⟨L, x, h₁, rs₁, hrun₁, hst⟩ :=
        add_with_strands Range.merge_max hwf hs hyn (fun e => hr (reaches_of_mem hwf hs e)) hr
      obtain ⟨hyd, -⟩ := List.pairwise_cons.mp hxs.disjoint
      have hpend : Pending (Aside L x) h₁ xs := fun o ho => by
        have hon := hxs.live o (List.mem_cons_of_mem _ ho)
        refine ⟨hon.trans_le hst.next_le, hst.aside o hon (fun e => ?_) fun p hp => ?_⟩
        · exact (List.nodup_cons.mp hxs.nodup).1 (List.mem_singleton.mp e ▸ ho)
        · rw [List.mem_singleton.mp hp]
          exact hyd o ho
      obtain ⟨h', rs', hrun, hc⟩ := add_all_carried (stable_aside hst.le) Range.merge_max hst.wf hst.holding hpend
      refine ⟨h', rs', x, ?_, ?_⟩
      · have hrun₁' : add_with Range.union_assign h rs y = .ok (h₁, rs₁) := hrun₁
        rw [union_assign, add_all, hrun₁']
        exact hrun
      · have hle := hst.le
        obtain ⟨p, hp, hpL, hpx⟩ := hst.piece
        rw [List.mem_singleton.mp hp] at hpL hpx
        obtain ⟨q, hq, hqx⟩ := hst.stored
        have hy : (h.obj y).rho x = (h.obj y).weight := box_of_mem ⟨by omega, hpx⟩
        have hxs0 : Range.rhoAt h xs x = 0 := rhoAt_eq_zero fun o ho e => by
          rcases hyd o ho with h1 | h1 <;> omega
        have hq0 : 0 < Range.rhoAt h rs x := by
          have hqw : (h.obj q).rho x = (h.obj q).weight := box_of_mem hqx
          refine lt_of_lt_of_le (hqw ▸ hrs q hq : 0 < (h.obj q).rho x) (List.single_le_sum (fun v hv => ?_) _
            (List.mem_map_of_mem hq))
          obtain ⟨o, ho, rfl⟩ := List.mem_map.mp hv
          exact Range.rho_nonneg (hwf o (hs.live o ho)) x
        rw [(hst.carried hc).dens, Range.rhoAt_cons, Range.rhoAt_cons, Range.rhoAt_nil, hxs0, hy, add_zero]
        exact max_lt (lt_add_of_pos_right _ (hpos y hym)) (lt_add_of_pos_left _ hq0)

end RangeSet

namespace RangeSetVector

open RangeSet

/-- The density of a vector in a dimension. -/
def density (h : Store Range) (v : RangeSetVector) (dim : String) (x : ℤ) : ℚ :=
  Range.rhoAt h (v.get dim) x

/-- Every dimension holds pairwise disjoint ranges. -/
def VecWF (h : Store Range) (v : RangeSetVector) : Prop := ∀ dim, SetWF h (v.get dim)

/-- What `copy.deepcopy` gives: fresh ranges with the same values. -/
structure Copied (h : Store Range) (os : List ℕ) (h' : Store Range) (ps : List ℕ) : Prop where
  /-- Nothing old changes. -/
  agrees : h.Agrees h' fun _ => False
  /-- The copies are fresh. -/
  fresh : ∀ p ∈ ps, h.next ≤ p ∧ p < h'.next
  /-- No copy is listed twice. -/
  nodup : ps.Nodup
  /-- The copies have the values of the originals. -/
  obj : ps.map h'.obj = os.map h.obj
  /-- Every range is well formed. -/
  wf : Range.AllWF h'

theorem deepcopy_spec {h : Store Range} (hwf : Range.AllWF h) {os : List ℕ} (hl : ∀ o ∈ os, o < h.next) :
    Copied h os (deepcopy h os).1 (deepcopy h os).2 := by
  induction os generalizing h with
  | nil => exact ⟨.refl _ _, by simp [deepcopy], by simp [deepcopy], rfl, hwf⟩
  | cons o os ih =>
    have ho := hl o List.mem_cons_self
    have hos : ∀ q ∈ os, q < h.next := fun q hq => hl q (List.mem_cons_of_mem _ hq)
    set h₁ := (h.alloc (h.obj o)).1 with hh₁
    have hc : Copied h₁ os (deepcopy h₁ os).1 (deepcopy h₁ os).2 :=
      ih (hwf.alloc (hwf o ho).sane (hwf o ho).nonneg) fun q hq => Nat.lt_succ_of_lt (hos q hq)
    have hrun : deepcopy h (o :: os) = ((deepcopy h₁ os).1, h.next :: (deepcopy h₁ os).2) := rfl
    have hn₁ : h₁.next = h.next + 1 := rfl
    have hnew : (deepcopy h₁ os).1.obj h.next = h.obj o := by
      rw [hc.agrees.obj_eq h.next (Nat.lt_succ_self _) id, hh₁, Store.obj_alloc_next]
    rw [hrun]
    refine ⟨⟨(Nat.le_succ _).trans hc.agrees.next_le, fun q hq _ => ?_⟩, ?_, ?_, ?_, hc.wf⟩
    · rw [hc.agrees.obj_eq q (Nat.lt_succ_of_lt hq) id, hh₁, Store.obj_alloc_of_lt _ _ hq]
    · refine List.forall_mem_cons.mpr ⟨⟨le_rfl, hc.agrees.next_le⟩, fun p hp => ?_⟩
      obtain ⟨h1, h2⟩ := hc.fresh p hp
      exact ⟨by omega, h2⟩
    · refine List.nodup_cons.mpr ⟨fun hm => ?_, hc.nodup⟩
      have := (hc.fresh _ hm).1
      omega
    · rw [List.map_cons, List.map_cons, hnew, hc.obj]
      congr 1
      exact List.map_congr_left fun q hq => Store.obj_alloc_of_lt _ _ (hos q hq)

/-- A set is read through the values of its ranges. -/
theorem Copied.setWF {h h' : Store Range} {os ps : List ℕ} (hc : Copied h os h' ps) (hs : SetWF h os) :
    SetWF h' ps := by
  refine ⟨fun p hp => (hc.fresh p hp).2, hc.nodup, List.pairwise_map.mp ?_⟩
  rw [hc.obj]
  exact hs.pairwise

theorem Copied.rhoAt {h h' : Store Range} {os ps : List ℕ} (hc : Copied h os h' ps) (x : ℤ) :
    Range.rhoAt h' ps x = Range.rhoAt h os x := by
  have hmap : ∀ (g : Store Range) (qs : List ℕ),
      Range.rhoAt g qs x = ((qs.map g.obj).map fun r => r.rho x).sum := by
    intro g qs
    rw [List.map_map]
    rfl
  rw [hmap, hmap, hc.obj]

/-- Nothing that was there changed: a set keeps its ranges. -/
theorem setWF_of_agrees {h h' : Store Range} {rs : List ℕ} (hag : h.Agrees h' fun _ => False)
    (hs : SetWF h rs) : SetWF h' rs :=
  hs.congr hag.next_le fun o ho => hag.obj_eq o (hs.live o ho) id

theorem rhoAt_of_agrees {h h' : Store Range} {rs : List ℕ} (hag : h.Agrees h' fun _ => False)
    (hs : SetWF h rs) (x : ℤ) : Range.rhoAt h' rs x = Range.rhoAt h rs x :=
  Range.rhoAt_congr (fun o ho => hag.obj_eq o (hs.live o ho) id) x

/-- Every insertion reaches in the dimensions `dims` of `union`. -/
def DimsReach (v rhs : RangeSetVector) : Store Range → List String → Prop
  | _, [] => True
  | h, dim :: dims =>
    let l := deepcopy h (v.get dim)
    let r := deepcopy l.1 (rhs.get dim)
    BeforeEach Range.union_assign Reaches r.1 l.2 r.2 ∧
      match RangeSet.union_assign r.1 l.2 r.2 with
      | .ok (h', _) => DimsReach v rhs h' dims
      | .error _ => True

/-- What one dimension of `union` computes. -/
theorem union_dim {h : Store Range} (hwf : Range.AllWF h) {os qs : List ℕ} (ho : SetWF h os)
    (hq : SetWF h qs) :
    let l := deepcopy h os
    let r := deepcopy l.1 qs
    BeforeEach Range.union_assign Reaches r.1 l.2 r.2 →
    ∃ h' rs', RangeSet.union_assign r.1 l.2 r.2 = .ok (h', rs') ∧ h.Agrees h' (fun _ => False) ∧
      Range.AllWF h' ∧ SetWF h' rs' ∧
      ∀ x, Range.rhoAt h' rs' x = max (Range.rhoAt h os x) (Range.rhoAt h qs x) := by
  intro l r hset
  have hl : Copied h os l.1 l.2 := deepcopy_spec hwf ho.live
  have hq₁ := setWF_of_agrees hl.agrees hq
  have hr : Copied l.1 qs r.1 r.2 := deepcopy_spec hl.wf hq₁.live
  have hs : SetWF r.1 l.2 := setWF_of_agrees hr.agrees (hl.setWF ho)
  obtain ⟨h', rs', hrun, ht, hwf', hs', hdens⟩ := union_assign_reaches hr.wf hs (hr.setWF hq₁) hset
  refine ⟨h', rs', hrun, ⟨?_, fun o hon _ => ?_⟩, hwf', hs', fun x => ?_⟩
  · exact (hl.agrees.next_le.trans hr.agrees.next_le).trans ht.agrees.next_le
  · -- both copies are fresh
    have hon₁ := hon.trans_le hl.agrees.next_le
    rw [ht.agrees.obj_eq o (hon₁.trans_le hr.agrees.next_le) fun e => ?_, hr.agrees.obj_eq o hon₁ id,
      hl.agrees.obj_eq o hon id]
    rcases e with e | e
    · have := (hr.fresh o e).1
      omega
    · have := (hl.fresh o e).1
      omega
  · rw [hdens, rhoAt_of_agrees hr.agrees (hl.setWF ho), hl.rhoAt, hr.rhoAt, rhoAt_of_agrees hl.agrees hq]

theorem get_put_self (v : RangeSetVector) (dim : String) (rs : List ℕ) : get (v.put dim rs) dim = rs := by
  rw [get, Dict.get?_put_self]
  rfl

theorem get_put_of_ne (v : RangeSetVector) {dim dim' : String} (rs : List ℕ) (hne : dim' ≠ dim) :
    get (v.put dim rs) dim' = get v dim' := by
  rw [get, Dict.get?_put_of_ne _ _ hne]
  rfl

/-- The dimensions of `union` one by one. -/
theorem op_dims_max {h : Store Range} (hwf : Range.AllWF h) {v rhs new_rsv : RangeSetVector}
    {dims : List String} (hnd : dims.Nodup) (hv : VecWF h v) (hr : VecWF h rhs) (hnew : VecWF h new_rsv)
    (hset : DimsReach v rhs h dims) :
    ∃ h' u, op_dims RangeSet.union_assign v rhs h dims new_rsv = .ok (h', u) ∧
      h.Agrees h' (fun _ => False) ∧ Range.AllWF h' ∧ VecWF h' u ∧
      ∀ dim x, density h' u dim x =
        if dim ∈ dims then max (density h v dim x) (density h rhs dim x) else density h new_rsv dim x := by
  induction dims generalizing h new_rsv with
  | nil => exact ⟨h, new_rsv, rfl, .refl _ _, hwf, hnew, by simp⟩
  | cons dim dims ih =>
    obtain ⟨hdim, hnd⟩ := List.nodup_cons.mp hnd
    obtain ⟨h₁, rs, hrun₁, hag₁, hwf₁, hs₁, hdens₁⟩ := union_dim hwf (hv dim) (hr dim) hset.1
    have hrest : DimsReach v rhs h₁ dims := by
      have := hset.2
      rwa [hrun₁] at this
    have hkeep : ∀ u : RangeSetVector, VecWF h u → VecWF h₁ u := fun u hu d => setWF_of_agrees hag₁ (hu d)
    have hdkeep : ∀ u : RangeSetVector, VecWF h u → ∀ d x, density h₁ u d x = density h u d x :=
      fun u hu d x => rhoAt_of_agrees hag₁ (hu d) x
    have hnew₁ : VecWF h₁ (new_rsv.put dim rs) := by
      intro d
      by_cases hd : d = dim
      · rw [hd, get_put_self]
        exact hs₁
      · rw [get_put_of_ne _ _ hd]
        exact hkeep new_rsv hnew d
    obtain ⟨h', u, hrun, hag, hwf', hu, hdens⟩ :=
      ih hwf₁ hnd (hkeep v hv) (hkeep rhs hr) hnew₁ hrest
    refine ⟨h', u, ?_, hag₁.trans hag fun o _ e => e, hwf', hu, fun d x => ?_⟩
    · rw [op_dims]
      simp only [hrun₁, ok_bind]
      exact hrun
    · rw [hdens, hdkeep v hv, hdkeep rhs hr]
      by_cases hd : d = dim
      · rw [hd, if_neg hdim, if_pos List.mem_cons_self, density, get_put_self]
        exact hdens₁ x
      · have hput : density h₁ (new_rsv.put dim rs) d x = density h new_rsv d x := by
          rw [density, get_put_of_ne _ _ hd]
          exact hdkeep new_rsv hnew d x
        rw [hput]
        simp [hd]

/-- Every insertion of `union` reaches. -/
def UnionReaches (h : Store Range) (v rhs : RangeSetVector) : Prop :=
  DimsReach v rhs h (v.get_dimensions rhs)

theorem get_of_not_mem_keys {v : RangeSetVector} {dim : String} (hd : dim ∉ Dict.keys v) :
    get v dim = [] := by
  rw [get, Dict.get?_eq_none hd]
  rfl

/-- **`union` is the pointwise maximum** in each dimension, and leaves its operands alone. -/
theorem union_max {h : Store Range} (hwf : Range.AllWF h) {v rhs : RangeSetVector} (hv : VecWF h v)
    (hr : VecWF h rhs) (hset : UnionReaches h v rhs) :
    ∃ h' u, v.union h rhs = .ok (h', u) ∧ h.Agrees h' (fun _ => False) ∧ Range.AllWF h' ∧ VecWF h' u ∧
      ∀ dim x, density h' u dim x = max (density h v dim x) (density h rhs dim x) := by
  have hempty : VecWF h [] := fun _ => ⟨by simp [get], by simp [get], by simp [get]⟩
  obtain ⟨h', u, hrun, hag, hwf', hu, hdens⟩ :=
    op_dims_max hwf (List.nodup_dedup _) hv hr hempty hset
  refine ⟨h', u, hrun, hag, hwf', hu, fun dim x => ?_⟩
  rw [hdens]
  split_ifs with hm
  · rfl
  · rw [List.mem_dedup, List.mem_append, not_or] at hm
    rw [density, density, density, get_of_not_mem_keys hm.1, get_of_not_mem_keys hm.2,
      get_of_not_mem_keys List.not_mem_nil, Range.rhoAt_nil, max_self]

/-- Every insertion reaches in each `add_path`. -/
def PathsReach : Store Range → RangeSetVector → List RangeSetVector → Prop
  | _, _, [] => True
  | h, v, tcv :: tcvs => UnionReaches h v tcv ∧
      match add_path h v tcv with
      | .ok (h', v') => PathsReach h' v' tcvs
      | .error _ => True

instance (v rhs : RangeSetVector) :
    (h : Store Range) → (dims : List String) → Decidable (DimsReach v rhs h dims)
  | _, [] => inferInstanceAs (Decidable True)
  | h, dim :: dims =>
    let l := deepcopy h (v.get dim)
    let r := deepcopy l.1 (rhs.get dim)
    match hrun : RangeSet.union_assign r.1 l.2 r.2 with
    | .ok (h', rs') =>
      have := instDecidableDimsReach v rhs h' dims
      decidable_of_iff (BeforeEach Range.union_assign Reaches r.1 l.2 r.2 ∧ DimsReach v rhs h' dims)
        (by rw [DimsReach, hrun])
    | .error _ =>
      decidable_of_iff (BeforeEach Range.union_assign Reaches r.1 l.2 r.2)
        (by rw [DimsReach, hrun, and_true])

instance (h : Store Range) (v rhs : RangeSetVector) : Decidable (UnionReaches h v rhs) :=
  instDecidableDimsReach _ _ _ _

instance : (h : Store Range) → (v : RangeSetVector) → (tcvs : List RangeSetVector) →
    Decidable (PathsReach h v tcvs)
  | _, _, [] => inferInstanceAs (Decidable True)
  | h, v, tcv :: tcvs =>
    match hrun : add_path h v tcv with
    | .ok (h', v') =>
      have := instDecidablePathsReach h' v' tcvs
      decidable_of_iff (UnionReaches h v tcv ∧ PathsReach h' v' tcvs) (by rw [PathsReach, hrun])
    | .error _ => decidable_of_iff (UnionReaches h v tcv) (by rw [PathsReach, hrun, and_true])

/-- **The paths of a function**: each density is the largest of the paths'. -/
theorem add_paths_max {h : Store Range} (hwf : Range.AllWF h) {v : RangeSetVector}
    {tcvs : List RangeSetVector} (hv : VecWF h v) (ht : ∀ t ∈ tcvs, VecWF h t)
    (hset : PathsReach h v tcvs) :
    ∃ h' u, add_paths h v tcvs = .ok (h', u) ∧
      ∀ dim x b, density h' u dim x ≤ b ↔
        density h v dim x ≤ b ∧ ∀ t ∈ tcvs, density h t dim x ≤ b := by
  induction tcvs generalizing h v with
  | nil => exact ⟨h, v, rfl, by simp⟩
  | cons t tcvs ih =>
    have htm : t ∈ t :: tcvs := List.mem_cons_self
    obtain ⟨h₁, v₁, hrun₁, hag, hwf₁, hv₁, hdens₁⟩ := union_max hwf hv (ht t htm) hset.1
    have hrun₁' : add_path h v t = .ok (h₁, v₁) := hrun₁
    have hrest : PathsReach h₁ v₁ tcvs := by
      have := hset.2
      rwa [hrun₁'] at this
    obtain ⟨h', u, hrun, hdens⟩ := ih hwf₁ hv₁
      (fun q hq d => setWF_of_agrees hag (ht q (List.mem_cons_of_mem _ hq) d)) hrest
    refine ⟨h', u, ?_, fun dim x b => ?_⟩
    · rw [add_paths, hrun₁']
      exact hrun
    · have hold : ∀ q ∈ tcvs, density h₁ q dim x = density h q dim x := fun q hq =>
        rhoAt_of_agrees hag (ht q (List.mem_cons_of_mem _ hq) dim) x
      rw [hdens, hdens₁, max_le_iff, List.forall_mem_cons, and_assoc]
      refine and_congr_right fun _ => and_congr_right fun _ => forall₂_congr fun q hq => ?_
      rw [hold q hq]

/-- **Maximum of densities**: `union_assign` takes the pointwise maximum, also of sets that share ranges, when every insertion
reaches, and where the weights are positive only then. So `add_path` gives the same densities for the same paths in any order and
with any repetition. -/
theorem union_is_maximum {h : Store Range} (hwf : Range.AllWF h) :
    (∀ rs xs : List ℕ, SetWF h rs → SetWF h xs → BeforeEach Range.union_assign Reaches h rs xs →
      ∃ h' rs', RangeSet.union_assign h rs xs = .ok (h', rs') ∧
        ∀ x, Range.rhoAt h' rs' x = max (Range.rhoAt h rs x) (Range.rhoAt h xs x)) ∧
    (∀ rs xs : List ℕ, SetWF h rs → SetWF h xs → (∀ o ∈ rs ++ xs, 0 < (h.obj o).weight) →
      ∀ h' rs', RangeSet.union_assign h rs xs = .ok (h', rs') →
        (∀ x, Range.rhoAt h' rs' x = max (Range.rhoAt h rs x) (Range.rhoAt h xs x)) →
        BeforeEach Range.union_assign Reaches h rs xs) ∧
    (∀ ps qs : List RangeSetVector, (∀ t ∈ ps, VecWF h t) → (∀ t, t ∈ ps ↔ t ∈ qs) →
      PathsReach h [] ps → PathsReach h [] qs →
      ∃ h₁ u₁ h₂ u₂, add_paths h [] ps = .ok (h₁, u₁) ∧ add_paths h [] qs = .ok (h₂, u₂) ∧
        ∀ dim x, density h₁ u₁ dim x = density h₂ u₂ dim x) := by
  refine ⟨fun rs xs hs hxs hr => ?_, fun rs xs hs hxs hpos h' rs' hrun hmax => ?_, fun ps qs hp hpq hsetp hsetq => ?_⟩
  · obtain ⟨h', rs', hrun, -, -, -, hdens⟩ := union_assign_reaches hwf hs hxs hr
    exact ⟨h', rs', hrun, hdens⟩
  · by_contra hnot
    obtain ⟨h₁, rs₁, x, hrun₁, hlt⟩ := union_assign_strands hwf hs hxs (fun o ho => hpos o (List.mem_append_left _ ho))
      (fun o ho => hpos o (List.mem_append_right _ ho)) hnot
    obtain ⟨rfl, rfl⟩ := Prod.mk.inj (Except.ok.inj (hrun₁.symm.trans hrun))
    exact absurd (hmax x) hlt.ne'
  · have hempty : VecWF h [] := fun _ => ⟨by simp [get], by simp [get], by simp [get]⟩
    obtain ⟨h₁, u₁, hrun₁, hdens₁⟩ := add_paths_max hwf hempty hp hsetp
    obtain ⟨h₂, u₂, hrun₂, hdens₂⟩ := add_paths_max hwf hempty (fun t ht => hp t ((hpq t).mpr ht)) hsetq
    refine ⟨h₁, u₁, h₂, u₂, hrun₁, hrun₂, fun dim x => le_antisymm ?_ ?_⟩
    · rw [hdens₁]
      obtain ⟨h0, hle⟩ := (hdens₂ dim x _).mp le_rfl
      exact ⟨h0, fun t ht => hle t ((hpq t).mp ht)⟩
    · rw [hdens₂]
      obtain ⟨h0, hle⟩ := (hdens₁ dim x _).mp le_rfl
      exact ⟨h0, fun t ht => hle t ((hpq t).mpr ht)⟩

/-- Single points, a range across them, and one apart from them. -/
def points (n : ℕ) : Store Range :=
  Store.ofList ⟨0, 0, 0, ∅⟩
    (⟨1, 100, 1, ∅⟩ :: ⟨200, 210, 2, ∅⟩ :: (List.range n).map fun k => ⟨2 * k + 2, 2 * k + 2, 1, ∅⟩)

/-- A range across thirty-one points, inserted together with a range that the set holds, although the cutting gives up; a range
across thirty-two points, which is not inserted by maximum; and two overlapping ranges in one dimension of two paths, in either
order. -/
theorem union_is_maximum_instances :
    (∃ h' rs', RangeSet.union_assign (points 31) (List.range' 1 32) [0, 1] = .ok (h', rs') ∧
      ∀ x, Range.rhoAt h' rs' x =
        max (Range.rhoAt (points 31) (List.range' 1 32) x) (Range.rhoAt (points 31) [0, 1] x)) ∧
    (∀ h' rs', RangeSet.union_assign (points 32) (List.range' 2 32) [0] = .ok (h', rs') →
      ¬ ∀ x, Range.rhoAt h' rs' x =
        max (Range.rhoAt (points 32) (List.range' 2 32) x) (Range.rhoAt (points 32) [0] x)) ∧
    ∃ h₁ u₁ h₂ u₂,
      add_paths (Store.ofList ⟨0, 0, 0, ∅⟩ [⟨1, 5, 1, ∅⟩, ⟨3, 9, 2, ∅⟩]) [] [[("a", [0])], [("a", [1])]] =
        .ok (h₁, u₁) ∧
      add_paths (Store.ofList ⟨0, 0, 0, ∅⟩ [⟨1, 5, 1, ∅⟩, ⟨3, 9, 2, ∅⟩]) [] [[("a", [1])], [("a", [0])]] =
        .ok (h₂, u₂) ∧ ∀ dim x, density h₁ u₁ dim x = density h₂ u₂ dim x := by
  refine ⟨?_, fun h' rs' hrun hmax => ?_, ?_⟩
  · exact (union_is_maximum (by unfold Range.AllWF; decide +kernel)).1 _ _
      ⟨by decide +kernel, by decide +kernel, by decide +kernel⟩
      ⟨by decide +kernel, by decide +kernel, by decide +kernel⟩ (by decide +kernel)
  · have hreach := (union_is_maximum (by unfold Range.AllWF; decide +kernel)).2.1 _ _
      ⟨by decide +kernel, by decide +kernel, by decide +kernel⟩
      ⟨by decide +kernel, by decide +kernel, by decide +kernel⟩ (by decide +kernel) h' rs' hrun hmax
    exact absurd hreach (by decide +kernel)
  · refine (union_is_maximum (by unfold Range.AllWF; decide +kernel)).2.2 _ _ ?_ (by simp; tauto)
      (by decide +kernel) (by decide +kernel)
    intro t ht dim
    have hget : get t dim = [] ∨ get t dim = [0] ∨ get t dim = [1] := by
      by_cases hd : "a" = dim <;> simp at ht <;> rcases ht with rfl | rfl <;> simp [get, Dict.get?, hd]
    rcases hget with e | e | e <;> rw [e] <;>
      exact ⟨by decide, by decide, by decide⟩

/-- The cutting gives up before the last two points are cut out, and both the range and a point
end up covering `64`. -/
theorem union_not_maximum :
    ¬ ∀ (h : Store Range) (rs xs : List ℕ), Range.AllWF h → SetWF h rs → SetWF h xs →
      ∀ h' rs', RangeSet.union_assign h rs xs = .ok (h', rs') →
        ∀ x, Range.rhoAt h' rs' x = max (Range.rhoAt h rs x) (Range.rhoAt h xs x) := by
  intro hall
  have hbad : (match RangeSet.union_assign (points 32) (List.range' 2 32) [0] with
      | .ok (h', rs') => decide (Range.rhoAt h' rs' 64 = 2)
      | .error _ => false) = true := by decide +kernel
  cases hrun : RangeSet.union_assign (points 32) (List.range' 2 32) [0] with
  | error e =>
    rw [hrun] at hbad
    cases hbad
  | ok y =>
    rw [hrun] at hbad
    have hmax := hall (points 32) (List.range' 2 32) [0] (by unfold Range.AllWF; decide +kernel)
      ⟨by decide +kernel, by decide +kernel, by decide +kernel⟩
      ⟨by decide +kernel, by decide +kernel, by decide +kernel⟩ y.1 y.2 hrun 64
    rw [of_decide_eq_true hbad] at hmax
    exact absurd hmax (by decide +kernel)

end RangeSetVector

end SEDiff.Juxta
