import SEDiff.Juxta.AddWith
import SEDiff.Juxta.Meeting

/-!
# Pieces that pass over stored ranges

When the cutting gives up, a piece may overlap stored ranges in part. `__add_with2` then merges it with one stored range after
the other: of a piece with a stored range strictly inside, what lies behind that range is put into the set at once, and only what
lies before it meets the ranges that come later in the list.

## What is proved

* `RangeSet.add_with2_passes` — a piece that leaves nothing behind that a later range overlaps is inserted into a set of
  pairwise disjoint ranges: the set stays one, and the densities are combined pointwise.
* `RangeSet.add_with_reaches` — so is a range whose cutting gives up with such pieces.
-/

namespace SEDiff.Juxta

open Foundation

namespace RangeSet

variable {f : ℚ → ℚ → ℚ}

/-- Met with the stored ranges one after the other, `n` leaves nothing behind that a later one overlaps. -/
def Passes : List Range → Range → Prop
  | [], _ => True
  | r :: rs, n =>
    if n.Disjoint r then Passes rs n
    else if n.Within r then True
    else if n.start < r.start then
      -- what lies behind `r` stays behind
      (r.stop < n.stop → ∀ q ∈ rs, Range.Disjoint { n with start := r.stop + 1 } q) ∧
        Passes rs { n with stop := r.start - 1 }
    else Passes rs { n with start := r.stop + 1 }

instance : (rs : List Range) → (n : Range) → Decidable (Passes rs n)
  | [], _ => inferInstanceAs (Decidable True)
  | r :: rs, n =>
    have := instDecidablePasses rs n
    have := instDecidablePasses rs { n with stop := r.start - 1 }
    have := instDecidablePasses rs { n with start := r.stop + 1 }
    inferInstanceAs (Decidable (if n.Disjoint r then Passes rs n
      else if n.Within r then True
      else if n.start < r.start then
        (r.stop < n.stop → ∀ q ∈ rs, Range.Disjoint { n with start := r.stop + 1 } q) ∧
          Passes rs { n with stop := r.start - 1 }
      else Passes rs { n with start := r.stop + 1 }))

/-- Every piece that is left when the cutting gives up passes the set. -/
def Reaches (rs : List Range) (N : Range) : Prop := ∀ p ∈ frontier rs 30 [N], Passes rs p

instance (rs : List Range) (N : Range) : Decidable (Reaches rs N) :=
  inferInstanceAs (Decidable (∀ p ∈ _, _))

theorem passes_of_disjoint {rs : List Range} {n : Range} (hd : ∀ r ∈ rs, n.Disjoint r) : Passes rs n := by
  induction rs with
  | nil => trivial
  | cons r rs ih =>
    rw [Passes, if_pos (hd r List.mem_cons_self)]
    exact ih fun q hq => hd q (List.mem_cons_of_mem _ hq)

/-- A settled piece passes. -/
theorem passes_of_settled {rs : List Range} {n : Range} (hs : ∀ r ∈ rs, n.Disjoint r ∨ n.Within r) : Passes rs n := by
  induction rs with
  | nil => trivial
  | cons r rs ih =>
    rw [Passes]
    rcases hs r List.mem_cons_self with hd | hin
    · rw [if_pos hd]
      exact ih fun q hq => hs q (List.mem_cons_of_mem _ hq)
    · split_ifs
      exact ih fun q hq => hs q (List.mem_cons_of_mem _ hq)

/-- Only the ranges that a piece overlaps decide whether it passes. -/
theorem passes_filter {y : Range} (rs : List Range) {n : Range} (hn : n.Within y) :
    Passes (rs.filter fun r => ¬ y.Disjoint r) n ↔ Passes rs n := by
  induction rs generalizing n with
  | nil => exact Iff.rfl
  | cons r rs ih =>
    by_cases hd : y.Disjoint r
    · rw [List.filter_cons_of_neg (by simpa using hd), ih hn, Passes, if_pos (disjoint_mono_left hd hn)]
    · rw [List.filter_cons_of_pos (by simpa using hd), Passes, Passes]
      split_ifs with h1 h2 h3
      · exact ih hn
      · exact Iff.rfl
      · have hhead : Range.Within { n with stop := r.start - 1 } y := by
          unfold Range.Disjoint Range.Within at *
          simp only
          omega
        have htail : Range.Within { n with start := r.stop + 1 } y := by
          unfold Range.Disjoint Range.Within at *
          simp only
          omega
        refine and_congr (imp_congr_right fun _ => ⟨fun h q hq => ?_, fun h q hq => h q (List.mem_filter.mp hq).1⟩)
          (ih hhead)
        by_cases hq' : y.Disjoint q
        · exact disjoint_mono_left hq' htail
        · exact h q (List.mem_filter.mpr ⟨hq, by simpa using hq'⟩)
      · refine ih ?_
        unfold Range.Disjoint Range.Within at *
        simp only
        omega

/-- After a stored range that it overlaps, a piece passes when it leaves nothing behind that a later one overlaps and what goes
on passes the later ones. -/
theorem passes_cons_iff {r n : Range} {rs : List Range} (hover : ¬ n.Disjoint r) (hd : ∀ q ∈ rs, r.Disjoint q) :
    Passes (r :: rs) n ↔
      (∀ o ∈ (Range.meet f n r).1, ∀ q ∈ rs, o.Disjoint q) ∧ Passes rs (Range.meet f n r).2 := by
  rw [Passes, if_neg hover]
  have hpart : ∀ o : Range, o.Within r → ∀ q ∈ rs, o.Disjoint q := fun o ho q hq => disjoint_mono_left (hd q hq) ho
  by_cases hin : n.Within r
  · -- everything is a part of `r`
    rw [if_pos hin, true_iff]
    refine ⟨fun o ho => hpart o ?_, passes_of_disjoint (hpart _ ?_)⟩
    · rcases Range.meet_region ho with h | ⟨⟨h1, -⟩, -⟩
      · exact h
      · exact absurd hin.1 (not_le.mpr h1)
    · rcases Range.meet_receiver (f := f) (n := n) (r := r) with h | ⟨-, h⟩
      · exact h.trans hin
      · exact h
  rw [if_neg hin]
  by_cases hs : n.start < r.start
  · have hrecv : (Range.meet f n r).2 = { n with stop := r.start - 1 } := by
      rw [Range.meet, if_neg hover, if_neg hin, if_pos hs]
      split_ifs <;> rfl
    rw [if_pos hs, hrecv]
    refine and_congr_left fun _ => ⟨fun h o ho => ?_, fun h he => h _ ?_⟩
    · rcases Range.meet_region ho with h1 | ⟨⟨-, h1⟩, rfl⟩
      · exact hpart o h1
      · exact h h1
    · rw [Range.meet, if_neg hover, if_neg hin, if_pos hs, if_pos he]
      exact List.mem_cons_of_mem _ List.mem_cons_self
  · have hrecv : (Range.meet f n r).2 = { n with start := r.stop + 1 } := by
      rw [Range.meet, if_neg hover, if_neg hin, if_neg hs]
      split_ifs <;> rfl
    rw [if_neg hs, hrecv]
    refine (and_iff_right fun o ho => hpart o ?_).symm
    rcases Range.meet_region ho with h1 | ⟨⟨h1, -⟩, -⟩
    · exact h1
    · exact absurd h1 hs

/-- What inserting a piece does to a set of pairwise disjoint ranges, whether or not it is settled. -/
structure Placed (f : ℚ → ℚ → ℚ) (h : Store Range) (rs : List ℕ) (new : ℕ) (h' : Store Range) (rs' : List ℕ) : Prop
    extends Entered f h rs new h' rs' where
  /-- Elsewhere the ranges are the same, in the same order. -/
  far : ∀ y : Range, y.Disjoint (h.obj new) →
    (∀ r ∈ rs, y.Disjoint (h.obj r) ∨ (h.obj new).Disjoint (h.obj r)) →
    (rs'.map h'.obj).filter (fun r => ¬ y.Disjoint r) = (rs.map h.obj).filter fun r => ¬ y.Disjoint r

/-- What merging with a stored range `r` that `new` overlaps does to the set `acc ++ r :: rs`, of which `acc` has been merged
already: the ranges `ys` take the place of `r`. -/
structure Met (f : ℚ → ℚ → ℚ) (h : Store Range) (acc : List ℕ) (r : ℕ) (rs : List ℕ) (new : ℕ) (h' : Store Range)
    (ys : List ℕ) : Prop where
  /-- Only the operands change. -/
  agrees : h.Agrees h' fun o => o = new ∨ o = r
  /-- Every range is well formed again. -/
  wf : Range.AllWF h'
  /-- The other ranges are as they were. -/
  keep : ∀ q ∈ acc ++ rs, h'.obj q = h.obj q
  /-- The ranges in the place of `r` are `r` and fresh ones. -/
  refs : ∀ o ∈ ys, o = r ∨ h.next ≤ o
  /-- The set is a set of pairwise disjoint ranges. -/
  set : SetWF h' (acc ++ ys ++ rs)
  /-- The receiver is not in it. -/
  fresh : new ∉ acc ++ ys ++ rs
  /-- What has been merged is apart from the receiver. -/
  apart : ∀ o ∈ acc ++ ys, (h'.obj new).Disjoint (h'.obj o)
  /-- The ranges in the place of `r` lie in the operands. -/
  within : ∀ o ∈ ys, (h'.obj o).Within (h.obj r) ∨ (h'.obj o).Within (h.obj new)
  /-- So does the receiver. -/
  receiver : (h'.obj new).Within (h.obj new) ∨ (h'.obj new).Within (h.obj r)
  /-- The densities are combined pointwise. -/
  dens : ∀ x, Range.rhoAt h' ys x + (h'.obj new).rho x = f ((h.obj new).rho x) ((h.obj r).rho x)

/-- **One merge of the loop**, of which nothing stays behind that a later range overlaps. -/
theorem add_with2_meet (hf : Range.Merge f) {h : Store Range} (hwf : Range.AllWF h) {acc rs : List ℕ} {new r : ℕ}
    (hs : SetWF h (acc ++ r :: rs)) (hn : new < h.next) (hnew : new ∉ acc ++ r :: rs)
    (hacc : ∀ q ∈ acc, (h.obj new).Disjoint (h.obj q))
    (hclear : ∀ o ∈ (Range.meet f (h.obj new) (h.obj r)).1, ∀ q ∈ rs, o.Disjoint (h.obj q)) :
    ∃ h' xs, Range.op f h new r = .ok (h', xs) ∧ Met f h acc r rs new h' (xs.filter (· ≠ new)) ∧
      h'.obj new = (Range.meet f (h.obj new) (h.obj r)).2 := by
  have hmid : (acc ++ r :: rs).Perm (r :: (acc ++ rs)) := List.perm_middle
  have hs' := hs.perm hmid
  obtain ⟨hrd, hpair⟩ := List.pairwise_cons.mp hs'.disjoint
  have hrn := hs'.live r List.mem_cons_self
  have hne : new ≠ r := fun e => hnew (by simp [e])
  obtain ⟨h', xs, hop, hspec, hys, hnew', -⟩ := Range.op_meet hf hwf hn hrn hne
  have hm := merged_of_opSpec hspec
  have hrep := hm.replaced hs.live hs.nodup
  have hkeep : ∀ q ∈ acc ++ rs, h'.obj q = h.obj q := fun q hq =>
    hrep.keep q hq fun e => hnew (e ▸ (hrep.other q hq).1)
  have hmem : ∀ o ∈ xs.filter (· ≠ new), h'.obj o ∈ (Range.meet f (h.obj new) (h.obj r)).1 := fun o ho =>
    hys ▸ List.mem_map_of_mem ho
  obtain ⟨hpw, hap⟩ := Range.meet_apart (f := f) (hwf new hn).sane (hwf r hrn).sane
  have hrecv : (h'.obj new).Within (h.obj new) ∨ (h'.obj new).Within (h.obj r) := by
    rw [hnew']
    exact Range.meet_receiver.imp_right And.right
  have hwithin : ∀ o ∈ xs.filter (· ≠ new), (h'.obj o).Within (h.obj r) ∨ (h'.obj o).Within (h.obj new) := fun o ho => by
    rcases Range.meet_region (hmem o ho) with h1 | ⟨⟨h1, h2⟩, h3⟩
    · exact .inl h1
    · rw [h3]
      exact .inr ⟨by simp only; have := (hwf r hrn).sane; omega, le_rfl⟩
  -- what lies in one of the operands avoids what has been merged
  have havoid : ∀ p : Range, p.Within (h.obj new) ∨ p.Within (h.obj r) → ∀ q ∈ acc, p.Disjoint (h'.obj q) := by
    intro p hp q hq
    rw [hkeep q (List.mem_append_left _ hq)]
    rcases hp with hp | hp
    · exact disjoint_mono_left (hacc q hq) hp
    · exact disjoint_mono_left (hrd q (List.mem_append_left _ hq)) hp
  refine ⟨h', xs, hop, ⟨hspec.agrees, hspec.wf, hkeep, fun o ho => (hm.refs o ho).2.1, ⟨hrep.live, hrep.nodup, ?_⟩,
    fun hmem => ?_, fun o ho => ?_, hwithin, hrecv, fun x => ?_⟩, hnew'⟩
  · refine (hrep.perm.pairwise_iff fun hd => hd.symm).mpr (List.pairwise_append.mpr ⟨?_, ?_, fun a ha b hb => ?_⟩)
    · rw [← hys] at hpw
      exact List.pairwise_map.mp hpw
    · exact hpair.imp_of_mem fun ha hb hd => by rw [hkeep _ ha, hkeep _ hb]; exact hd
    · rcases List.mem_append.mp hb with hb | hb
      · exact havoid _ (hwithin a ha).symm b hb
      · rw [hkeep b (List.mem_append_right _ hb)]
        exact hclear _ (hmem a ha) b hb
  · rcases hrep.back new hmem with e | e
    · exact hnew e
    · omega
  · rcases List.mem_append.mp ho with ho | ho
    · exact havoid _ hrecv o ho
    · rw [hnew']
      exact (hap _ (hmem o ho)).symm
  · rw [← hm.dens x, add_comm]

/-- One merge, then the others. -/
theorem Met.placed (hf : Range.Merge f) {h h₁ h' : Store Range} (hwf : Range.AllWF h) {acc rs ys rs' : List ℕ}
    {new r : ℕ} (hs : SetWF h (acc ++ r :: rs)) (hn : new < h.next) (hover : ¬ (h.obj new).Disjoint (h.obj r))
    (hm : Met f h acc r rs new h₁ ys) (hp : Placed f h₁ (acc ++ ys ++ rs) new h' rs') :
    Placed f h (acc ++ r :: rs) new h' rs' := by
  have hmid : (acc ++ r :: rs).Perm (r :: (acc ++ rs)) := List.perm_middle
  have hs' := hs.perm hmid
  have hrd := (List.pairwise_cons.mp hs'.disjoint).1
  have hrm : r ∈ acc ++ r :: rs := by simp
  have hback : ∀ o ∈ acc ++ ys ++ rs, o ∈ acc ++ rs ∨ o ∈ ys := fun o ho => by
    simp only [List.mem_append] at ho ⊢
    tauto
  have hold : ∀ o ∈ acc ++ rs, o ∈ acc ++ r :: rs := fun o ho => hmid.mem_iff.mpr (List.mem_cons_of_mem _ ho)
  have hkeep' : ∀ q ∈ acc ++ rs, (h.obj new).Disjoint (h.obj q) → (h₁.obj new).Disjoint (h.obj q) := by
    intro q hq hd
    rcases hm.receiver with hin | hin
    · exact disjoint_mono_left hd hin
    · exact disjoint_mono_left (hrd q hq) hin
  refine ⟨⟨?_, hp.wf, hp.set, fun o ho => ?_, fun x => ?_, fun o ho => ?_⟩, fun y hy hyr => ?_⟩
  · refine Store.Agrees.trans (hm.agrees.mono fun o e => ?_) hp.agrees fun o ho e => ?_
    · exact e.imp_right fun e : o = r => by rw [e]; exact ⟨hrm, hover⟩
    · rcases e with e | ⟨e, hd⟩
      · exact .inl e
      · rcases hback o e with e | e
        · refine .inr ⟨hold o e, fun h1 => hd ?_⟩
          rw [hm.keep o e]
          exact hkeep' o e h1
        · obtain rfl : o = r := (hm.refs o e).resolve_right (by omega)
          exact .inr ⟨hrm, hover⟩
  · rcases hp.refs o ho with e | e | e
    · exact .inl e
    · rcases hback o e with e | e
      · exact .inr (.inl (hold o e))
      · rcases hm.refs o e with e | e
        · exact .inr (.inl (by rw [e]; exact hrm))
        · exact .inr (.inr e)
    · exact .inr (.inr (hm.agrees.next_le.trans e))
  · have hperm := perm_append_middle acc ys rs
    have hys := (List.pairwise_append.mp (hm.set.perm hperm).disjoint).2.2
    have hd := hm.dens x
    have hN := Range.rho_nonneg (hwf new hn) x
    rw [hp.dens, Range.rhoAt_perm hperm, Range.rhoAt_append, Range.rhoAt_congr hm.keep, Range.rhoAt_perm hmid,
      Range.rhoAt_cons]
    by_cases hx : ∃ q ∈ acc ++ rs, (h.obj q).start ≤ x ∧ x ≤ (h.obj q).stop
    · -- neither `r` nor what takes its place covers `x`
      obtain ⟨q, hq, hqx⟩ := hx
      have hR : (h.obj r).rho x = 0 := box_of_not_mem fun hrx => by
        rcases hrd q hq with h1 | h1 <;> omega
      have hY : Range.rhoAt h₁ ys x = 0 := rhoAt_eq_zero fun o ho hox => by
        have h1 := hys o ho q hq
        rw [hm.keep q hq] at h1
        rcases h1 with h1 | h1 <;> omega
      rw [hY, hR, zero_add, hf.zero _ hN] at hd
      rw [hY, hR, hd]
    · have hT : Range.rhoAt h (acc ++ rs) x = 0 := rhoAt_eq_zero fun q hq hqx => hx ⟨q, hq, hqx⟩
      rw [hT, add_zero, add_zero, hf.comm ((h.obj r).rho x), ← hd]
      have hnew₁ := hn.trans_le hm.agrees.next_le
      by_cases hx₁ : (h₁.obj new).start ≤ x ∧ x ≤ (h₁.obj new).stop
      · have hY : Range.rhoAt h₁ ys x = 0 := rhoAt_eq_zero fun o ho hox => by
          rcases hm.apart o (List.mem_append_right _ ho) with h1 | h1 <;> omega
        rw [hY, zero_add, hf.zero_left (Range.rho_nonneg (hm.wf new hnew₁) x)]
      · have h1 : (h₁.obj new).rho x = 0 := box_of_not_mem hx₁
        have hY : 0 ≤ Range.rhoAt h₁ ys x := Range.rhoAt_nonneg (fun o ho => hm.wf o (hm.set.live o (by simp [ho]))) x
        rw [h1, add_zero, hf.zero _ hY]
  · have hfrom : ∀ p : Range, p.Within (h.obj new) ∨ p.Within (h.obj r) →
        p.Within (h.obj new) ∨ ∃ s ∈ acc ++ r :: rs, p.Within (h.obj s) := fun p => Or.imp_right fun h1 => ⟨r, hrm, h1⟩
    rcases hp.cover o ho with h1 | ⟨s, hs, h1⟩
    · exact hfrom _ (hm.receiver.imp h1.trans h1.trans)
    · rcases hback s hs with hs | hs
      · rw [hm.keep s hs] at h1
        exact .inr ⟨s, hold s hs, h1⟩
      · exact hfrom _ ((hm.within s hs).symm.imp h1.trans h1.trans)
  · have hyr' : y.Disjoint (h.obj r) := (hyr r hrm).resolve_right hover
    have hys : ∀ o ∈ ys, y.Disjoint (h₁.obj o) := fun o ho =>
      (hm.within o ho).elim hyr'.mono_right hy.mono_right
    have hnone : (ys.map h₁.obj).filter (fun r => ¬ y.Disjoint r) = [] := by
      rw [List.filter_eq_nil_iff]
      intro p hp
      obtain ⟨o, ho, rfl⟩ := List.mem_map.mp hp
      simpa using hys o ho
    rw [hp.far y (hm.receiver.elim hy.mono_right hyr'.mono_right) fun s hs => ?_]
    · simp only [List.map_append, List.map_cons, List.filter_append, hnone, List.append_nil]
      rw [List.filter_cons_of_neg (by simpa using hyr'),
        List.map_congr_left fun q hq => hm.keep q (List.mem_append_left _ hq),
        List.map_congr_left fun q hq => hm.keep q (List.mem_append_right _ hq)]
    · rcases hback s hs with hs | hs
      · rw [hm.keep s hs]
        exact (hyr s (hold s hs)).imp_right (hkeep' s hs)
      · exact .inl (hys s hs)

/-- The ranges of the set after `r` are apart from it. -/
theorem disjoint_rest {h : Store Range} {acc rs : List ℕ} {r : ℕ} (hs : SetWF h (acc ++ r :: rs)) :
    ∀ q ∈ rs.map h.obj, (h.obj r).Disjoint q := fun q hq => by
  obtain ⟨o, ho, rfl⟩ := List.mem_map.mp hq
  exact (List.pairwise_cons.mp (List.pairwise_append.mp hs.disjoint).2.1).1 o ho

/-- The loop of `__add_with2`: of the set `acc ++ rs`, the ranges `acc` have been merged already. -/
theorem add_with2_loop_passes (hf : Range.Merge f) {h : Store Range} (hwf : Range.AllWF h) {new : ℕ} (hn : new < h.next)
    {rs : List ℕ} (acc : List ℕ) (hs : SetWF h (acc ++ rs)) (hnew : new ∉ acc ++ rs)
    (hacc : ∀ q ∈ acc, (h.obj new).Disjoint (h.obj q)) (hc : Passes (rs.map h.obj) (h.obj new)) :
    ∃ h' rs', add_with2_loop (Range.op f) new h rs acc = .ok (h', rs') ∧ Placed f h (acc ++ rs) new h' rs' := by
  induction rs generalizing h acc with
  | nil =>
    rw [List.append_nil] at hs hnew ⊢
    obtain ⟨-, hi⟩ := add_with2_gap hf hwf hs hn hnew hacc
    refine ⟨h, acc ++ [new], rfl, hi.toEntered, fun y hy _ => ?_⟩
    rw [List.map_append, List.filter_append, List.map_singleton, List.filter_singleton]
    simp [hy]
  | cons r rs ih =>
    have hrn := hs.live r (by simp)
    have hne : new ≠ r := fun e => hnew (by simp [e])
    by_cases hd : (h.obj new).Disjoint (h.obj r)
    · -- the range is only moved over
      have happ : acc ++ [r] ++ rs = acc ++ r :: rs := by simp
      rw [List.map_cons, Passes, if_pos hd] at hc
      obtain ⟨h', rs', hrun, hp⟩ := ih hwf hn (acc ++ [r]) (happ ▸ hs) (happ ▸ hnew)
        (fun q hq => (List.mem_append.mp hq).elim (hacc q) fun e => List.mem_singleton.mp e ▸ hd) hc
      refine ⟨h', rs', ?_, happ ▸ hp⟩
      rw [← hrun]
      exact add_with2_loop_append hwf hn [r] rs acc fun q hq => List.mem_singleton.mp hq ▸ ⟨hrn, hne, hd⟩
    · rw [List.map_cons, passes_cons_iff (f := f) hd (disjoint_rest hs)] at hc
      obtain ⟨h₁, xs, hop, hm, hrecv⟩ :=
        add_with2_meet hf hwf hs hn hnew hacc fun o ho q hq => hc.1 o ho _ (List.mem_map_of_mem hq)
      have hc₁ : Passes (rs.map h₁.obj) (h₁.obj new) := by
        rw [List.map_congr_left fun q hq => hm.keep q (List.mem_append_right _ hq), hrecv]
        exact hc.2
      obtain ⟨h', rs', hrun, hp⟩ := ih hm.wf (hn.trans_le hm.agrees.next_le) (acc ++ xs.filter (· ≠ new)) hm.set hm.fresh
        hm.apart hc₁
      refine ⟨h', rs', ?_, hm.placed hf hwf hs hn hd hp⟩
      rw [add_with2_loop, hop]
      exact hrun

/-- **A piece that passes the set** is inserted. -/
theorem add_with2_passes (hf : Range.Merge f) {h : Store Range} (hwf : Range.AllWF h) {rs : List ℕ} (hs : SetWF h rs)
    {new : ℕ} (hn : new < h.next) (hnew : new ∉ rs) (hc : Passes (rs.map h.obj) (h.obj new)) :
    ∃ h' rs', add_with2 (Range.op f) h rs new = .ok (h', rs') ∧ Placed f h rs new h' rs' :=
  add_with2_loop_passes hf hwf hn [] hs hnew (by simp) hc

/-! ### Inserting the pieces -/

/-- The other pieces pass after a piece has been inserted when they passed before. -/
theorem Placed.passes_iff {h h' : Store Range} {rs rs' ps : List ℕ} {p : ℕ} (hp : Fragments h rs (p :: ps))
    (hi : Placed f h rs p h' rs') {q : ℕ} (hq : q ∈ ps) :
    Passes (rs'.map h'.obj) (h'.obj q) ↔ Passes (rs.map h.obj) (h.obj q) := by
  have hsep : ∀ r ∈ rs, (h.obj q).Disjoint (h.obj r) ∨ (h.obj p).Disjoint (h.obj r) := fun r hr =>
    ((List.pairwise_cons.mp (hp.sep r hr)).1 q hq).symm
  -- the ranges that `q` overlaps are the same
  rw [(hp.tail hi.toEntered).2 q hq, ← passes_filter _ (y := h.obj q) ⟨le_rfl, le_rfl⟩,
    hi.far _ ((List.pairwise_cons.mp hp.disjoint).1 q hq).symm hsep, passes_filter _ ⟨le_rfl, le_rfl⟩]

/-- What inserting all of `ps` does to a set of pairwise disjoint ranges. -/
structure AllPlaced (f : ℚ → ℚ → ℚ) (h : Store Range) (rs ps : List ℕ) (h' : Store Range) (rs' : List ℕ) : Prop where
  /-- Only the pieces and the stored ranges they overlap change. -/
  agrees : h.Agrees h' fun o => o ∈ ps ∨ o ∈ rs ∧ ∃ p ∈ ps, ¬ (h.obj p).Disjoint (h.obj o)
  /-- Every range is well formed again. -/
  wf : Range.AllWF h'
  /-- The set is a set of pairwise disjoint ranges again. -/
  set : SetWF h' rs'
  /-- It holds the pieces, ranges it held before, and fresh ones. -/
  refs : ∀ o ∈ rs', o ∈ ps ∨ o ∈ rs ∨ h.next ≤ o
  /-- The densities are combined pointwise. -/
  dens : ∀ x, Range.rhoAt h' rs' x = f (Range.rhoAt h rs x) (Range.rhoAt h ps x)
  /-- The ranges of the set cover what a piece or a stored range covered. -/
  cover : ∀ o ∈ rs', (∃ p ∈ ps, (h'.obj o).Within (h.obj p)) ∨ ∃ r ∈ rs, (h'.obj o).Within (h.obj r)

/-- Pieces that pass are inserted one by one. -/
theorem add_pieces_passing (hf : Range.Merge f) {h : Store Range} (hwf : Range.AllWF h) {rs ps : List ℕ} (hs : SetWF h rs)
    (hp : Fragments h rs ps) (hpass : ∀ p ∈ ps, Passes (rs.map h.obj) (h.obj p)) :
    ∃ h' rs', add_pieces (Range.op f) h rs ps = .ok (h', rs') ∧ AllPlaced f h rs ps h' rs' := by
  induction ps generalizing h rs with
  | nil =>
    refine ⟨h, rs, rfl, .refl _ _, hwf, hs, by simp +contextual, fun x => ?_, fun o ho => .inr ⟨o, ho, le_rfl, le_rfl⟩⟩
    rw [Range.rhoAt_nil, hf.zero _ (Range.rhoAt_nonneg (fun o ho => hwf o (hs.live o ho)) x)]
  | cons p ps ih =>
    have hpm : p ∈ p :: ps := List.mem_cons_self
    have hpn := hp.live p hpm
    obtain ⟨h₁, rs₁, hrun, hi⟩ := add_with2_passes hf hwf hs hpn (hp.fresh p hpm) (hpass p hpm)
    obtain ⟨hp₁, hobj⟩ := hp.tail hi.toEntered
    obtain ⟨h', rs', hrun', ha⟩ := ih hi.wf hi.set hp₁ fun q hq =>
      (hi.passes_iff hp hq).mpr (hpass q (List.mem_cons_of_mem _ hq))
    refine ⟨h', rs', ?_, ⟨hi.agrees.next_le.trans ha.agrees.next_le, fun o ho hn => ?_⟩, ha.wf, ha.set, fun o ho => ?_,
      fun x => ?_, fun o ho => ?_⟩
    · rw [add_pieces, hrun]
      exact hrun'
    · push Not at hn
      obtain ⟨hops, hors⟩ := hn
      have hop : o ≠ p := fun e => hops (e ▸ hpm)
      have h1 : h₁.obj o = h.obj o := hi.agrees.obj_eq o ho (by
        rintro (e | ⟨hor, hd⟩)
        · exact hop e
        · exact hd (hors hor p hpm))
      rw [← h1]
      refine ha.agrees.obj_eq o (ho.trans_le hi.agrees.next_le) ?_
      rintro (e | ⟨hor, q, hq, hd⟩)
      · exact hops (List.mem_cons_of_mem _ e)
      · rw [hobj q hq, h1] at hd
        rcases hi.refs o hor with e | e | e
        · exact hop e
        · exact hd (hors e q (List.mem_cons_of_mem _ hq))
        · omega
    · rcases ha.refs o ho with e | e | e
      · exact .inl (List.mem_cons_of_mem _ e)
      · exact (hi.refs o e).imp_left fun e : o = p => e ▸ hpm
      · exact .inr (.inr (hi.agrees.next_le.trans e))
    · have h0 : 0 ≤ Range.rhoAt h rs x := Range.rhoAt_nonneg (fun o ho => hwf o (hs.live o ho)) x
      have h1 := Range.rho_nonneg (hwf p hpn) x
      rw [ha.dens, hi.dens, Range.rhoAt_congr hobj, Range.rhoAt_cons]
      by_cases hx : (h.obj p).start ≤ x ∧ x ≤ (h.obj p).stop
      · have hps : Range.rhoAt h ps x = 0 := rhoAt_eq_zero fun q hq hxq => by
          rcases (List.pairwise_cons.mp hp.disjoint).1 q hq with hlt | hlt <;> omega
        rw [hps, add_zero, hf.zero _ (hf.nonneg _ _ h0 h1)]
      · have hp0 : (h.obj p).rho x = 0 := box_of_not_mem hx
        rw [hp0, zero_add, hf.zero _ h0]
    · rcases ha.cover o ho with ⟨q, hq, hin⟩ | ⟨r, hr, hin⟩
      · exact .inl ⟨q, List.mem_cons_of_mem _ hq, hobj q hq ▸ hin⟩
      · rcases hi.cover r hr with h1 | ⟨s, hs, h1⟩
        · exact .inl ⟨p, hpm, hin.trans h1⟩
        · exact .inr ⟨s, hs, hin.trans h1⟩

/-- **Inserting a range whose cutting gives up** with pieces that pass. -/
theorem add_with_reaches (hf : Range.Merge f) {h : Store Range} (hwf : Range.AllWF h) {rs : List ℕ} (hs : SetWF h rs)
    {new : ℕ} (hn : new < h.next) (hnew : new ∉ rs) (hg : GivesUp (rs.map h.obj) (h.obj new))
    (hr : Reaches (rs.map h.obj) (h.obj new)) :
    ∃ h' rs', add_with (Range.op f) h rs new = .ok (h', rs') ∧ Entered f h rs new h' rs' := by
  obtain ⟨h₀, d, w, hd, hout⟩ := decompose_range_spec hwf hs.live hn hnew
  rcases hout with ⟨hlast, -⟩ | ⟨-, hrun, hw⟩
  · exact absurd hg hlast.not_givesUp
  have hrs : ∀ r ∈ rs, h₀.obj r = h.obj r := fun r hr =>
    hd.agrees.obj_eq r (hs.live r hr) fun e => hnew (List.mem_singleton.mp e ▸ hr)
  have hs₀ := hs.congr hd.agrees.next_le hrs
  have hpass : ∀ p ∈ d ++ w, Passes (rs.map h₀.obj) (h₀.obj p) := by
    intro p hp
    rcases List.mem_append.mp hp with hp | hp
    · refine passes_of_settled fun r hr => ?_
      obtain ⟨o, ho, rfl⟩ := List.mem_map.mp hr
      exact hd.settled hs (by simp) p hp o ho
    · rw [List.map_congr_left hrs]
      exact hr _ (hw ▸ List.mem_map_of_mem hp)
  obtain ⟨h', rs', hrun', ha⟩ := add_pieces_passing hf hd.wf hs₀ (hd.fragments hs) hpass
  have hfirst : ∀ o ∈ d ++ w, o = new ∨ h.next ≤ o := fun o ho =>
    (hd.refs o ho).imp_left List.mem_singleton.mp
  refine ⟨h', rs', ?_, ?_, ha.wf, ha.set, fun o ho => ?_, fun x => ?_, fun o ho => ?_⟩
  · rw [add_with, hrun]
    exact hrun'
  · refine Store.Agrees.trans (hd.agrees.mono fun o e => .inl (List.mem_singleton.mp e)) ha.agrees fun o ho e => ?_
    rcases e with e | ⟨e, p, hp, hover⟩
    · rcases hfirst o e with e | e
      · exact .inl e
      · omega
    · refine .inr ⟨e, fun hdis => hover ?_⟩
      rw [hrs o e]
      exact disjoint_mono_left hdis (hd.parts.within p hp)
  · rcases ha.refs o ho with e | e | e
    · exact (hfirst o e).imp_right .inr
    · exact .inr (.inl e)
    · exact .inr (.inr (hd.agrees.next_le.trans e))
  · rw [ha.dens, Range.rhoAt_congr hrs, hd.parts.dens]
  · rcases ha.cover o ho with ⟨p, hp, hin⟩ | ⟨r, hr, hin⟩
    · exact .inl (hin.trans (hd.parts.within p hp))
    · exact .inr ⟨r, hr, hrs r hr ▸ hin⟩

end RangeSet

end SEDiff.Juxta
