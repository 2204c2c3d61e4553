import SEDiff.Juxta.Carrying
import SEDiff.Juxta.Passing

/-!
# Pieces that do not pass

What a piece leaves behind a stored range is put into the set at once. When a later range of the set overlaps it, both cover an
integer from then on: the insertions of ranges that do not touch it leave the two as they are.

## What is proved

* `RangeSet.add_with_strands` — when the pieces that are left over do not all pass, the densities are added at an integer that
  lies in the new range and in a stored one.
* `RangeSet.Stranded.carried` — and they stay so.
-/

namespace SEDiff.Juxta

open Foundation

namespace RangeSet

variable {f : ℚ → ℚ → ℚ} {L x : ℤ}

/-- Inserting `ps` has added the densities at `x`, and from before `L` to `L` no range of the set goes on. -/
structure Stranded (L x : ℤ) (h : Store Range) (rs ps : List ℕ) (h' : Store Range) (rs' : List ℕ) : Prop where
  /-- The two places are in order, -/
  le : L ≤ x
  /-- a piece goes on from before the first to the second, -/
  piece : ∃ p ∈ ps, (h.obj p).start < L ∧ x ≤ (h.obj p).stop
  /-- and the set covered the second. -/
  stored : ∃ q ∈ rs, (h.obj q).start ≤ x ∧ x ≤ (h.obj q).stop
  /-- References are never taken back. -/
  next_le : h.next ≤ h'.next
  /-- Every range is well formed. -/
  wf : Range.AllWF h'
  /-- No range of the set goes on from before `L` to `L`. -/
  holding : Holding (Whole L) h' rs'
  /-- Ranges apart from the pieces stay aside. -/
  aside : ∀ o < h.next, o ∉ ps → (∀ p ∈ ps, (h.obj p).Disjoint (h.obj o)) → Aside L x (h'.obj o)
  /-- The densities are added. -/
  dens : Range.rhoAt h' rs' x = Range.rhoAt h rs x + Range.rhoAt h ps x

/-- **Later insertions** leave it so. -/
theorem Stranded.carried {h h₁ h' : Store Range} {rs rs₁ rs' ps : List ℕ} (hst : Stranded L x h rs ps h₁ rs₁)
    (hc : Carried (Aside L x) (Whole L) h₁ rs₁ h' rs') : Stranded L x h rs ps h' rs' :=
  ⟨hst.le, hst.piece, hst.stored, hst.next_le.trans hc.next_le, hc.wf, hc.holding,
    fun o ho hps hd => hc.keep o (ho.trans_le hst.next_le) (hst.aside o ho hps hd),
    (hc.dens x fun _ hr => hr.rho_eq_zero hst.le).trans hst.dens⟩

/-! ### One piece -/

/-- `r` lies strictly inside `new`, and a later range of the set overlaps what `new` has behind it. -/
theorem op_strands (hf : Range.Merge f) {h : Store Range} (hwf : Range.AllWF h) {acc rs : List ℕ} {new r q : ℕ}
    (hs : SetWF h (acc ++ r :: rs)) (hn : new < h.next) (hnew : new ∉ acc ++ r :: rs)
    (hstart : (h.obj new).start < (h.obj r).start) (hstop : (h.obj r).stop < (h.obj new).stop) (hq : q ∈ rs)
    (hrq : (h.obj r).stop < (h.obj q).start) (hqn : (h.obj q).start ≤ (h.obj new).stop) :
    ∃ h' xs, Range.op f h new r = .ok (h', xs) ∧
      Stranded ((h.obj r).stop + 1) (h.obj q).start h (acc ++ r :: rs) [new] h' (acc ++ xs.filter (· ≠ new) ++ rs) ∧
      Aside ((h.obj r).stop + 1) (h.obj q).start (h'.obj new) := by
  have hrm : r ∈ acc ++ r :: rs := by simp
  have hrn := hs.live r hrm
  have hsr := (hwf r hrn).sane
  have hne : new ≠ r := fun e => hnew (e ▸ hrm)
  have hmid : (acc ++ r :: rs).Perm (r :: (acc ++ rs)) := List.perm_middle
  have hrd := (List.pairwise_cons.mp (hs.perm hmid).disjoint).1
  obtain ⟨h', xs, hop, hspec, hys, hnew', -⟩ := Range.op_meet hf hwf hn hrn hne
  rw [Range.meet_inside hsr hstart hstop] at hys hnew'
  have hm := merged_of_opSpec hspec
  have hrep := hm.replaced hs.live hs.nodup
  have hkeep : ∀ p ∈ acc ++ rs, h'.obj p = h.obj p := fun p hp =>
    hrep.keep p hp fun e => hnew (e ▸ (hrep.other p hp).1)
  have haside : Aside ((h.obj r).stop + 1) (h.obj q).start (h'.obj new) := by
    rw [hnew']
    exact .inl (by simp only; omega)
  have hqm : q ∈ acc ++ rs := List.mem_append_right _ hq
  have hsq := (hwf q (hs.live q (hrep.other q hqm).1)).sane
  refine ⟨h', xs, hop, ⟨hrq, ⟨new, List.mem_singleton_self _, by omega, hqn⟩, ⟨q, (hrep.other q hqm).1, le_rfl, hsq⟩,
    hspec.agrees.next_le, hspec.wf, ⟨hrep.live, hrep.nodup, fun o ho => ?_⟩, fun o ho hon hd => ?_, ?_⟩, haside⟩
  · rcases List.mem_append.mp (hrep.perm.mem_iff.mp ho) with ho | ho
    · have hmem : h'.obj o ∈ _ := hys ▸ List.mem_map_of_mem ho
      rcases List.mem_cons.mp hmem with e | hmem
      · rw [e]
        exact .inl (by simp only [Range.overlap]; omega)
      · rw [List.mem_singleton.mp hmem]
        exact .inr le_rfl
    · rw [hkeep o ho]
      have := (hwf o (hs.live o (hrep.other o ho).1)).sane
      rcases hrd o ho with h1 | h1
      · exact .inr h1
      · exact .inl (by omega)
  · have hd' := hd new (List.mem_singleton_self _)
    rw [hspec.agrees.obj_eq o ho]
    · rcases hd' with h1 | h1
      · exact .inr (by omega)
      · exact .inl (by omega)
    · rintro (e | rfl)
      · exact hon (List.mem_singleton.mpr e)
      · rcases hd' with h1 | h1 <;> omega
  · have hr0 : (h.obj r).rho (h.obj q).start = 0 := box_of_not_mem fun e => by omega
    have hd := hm.dens (h.obj q).start
    rw [haside.rho_eq_zero hrq, zero_add, hr0, hf.zero _ (Range.rho_nonneg (hwf new hn) _)] at hd
    rw [Range.rhoAt_perm hrep.perm, Range.rhoAt_append, hd, Range.rhoAt_congr hkeep, Range.rhoAt_perm hmid, Range.rhoAt_cons,
      hr0, zero_add, Range.rhoAt_cons, Range.rhoAt_nil, add_zero, add_comm]

/-- One merge of which nothing stays behind, then the others. -/
theorem Met.stranded (hf : Range.Merge f) {h h₁ h' : Store Range} (hwf : Range.AllWF h) {acc rs ys rs' : List ℕ} {new r : ℕ}
    (hs : SetWF h (acc ++ r :: rs)) (hn : new < h.next) (hover : ¬ (h.obj new).Disjoint (h.obj r))
    (hm : Met f h acc r rs new h₁ ys) (hst : Stranded L x h₁ (acc ++ ys ++ rs) [new] h' rs') :
    Stranded L x h (acc ++ r :: rs) [new] h' rs' := by
  have hmid : (acc ++ r :: rs).Perm (r :: (acc ++ rs)) := List.perm_middle
  have hrd := (List.pairwise_cons.mp (hs.perm hmid).disjoint).1
  have hle := hst.le
  obtain ⟨p, hp, hpL, hpx⟩ := hst.piece
  rw [List.mem_singleton.mp hp] at hpL hpx
  -- what has been merged is apart from the receiver, so a later range covers `x`
  obtain ⟨q, hq, hqx⟩ := hst.stored
  have hapart : ∀ o ∈ acc ++ ys, ¬ ((h₁.obj o).start ≤ x ∧ x ≤ (h₁.obj o).stop) := fun o ho e => by
    rcases hm.apart o ho with h1 | h1 <;> omega
  have hqr : q ∈ rs := (List.mem_append.mp hq).resolve_left fun e => hapart q e hqx
  have hqm : q ∈ acc ++ rs := List.mem_append_right _ hqr
  rw [hm.keep q hqm] at hqx
  have hr0 : ¬ ((h.obj r).start ≤ x ∧ x ≤ (h.obj r).stop) := fun e => by
    rcases hrd q hqm with h1 | h1 <;> omega
  have hrecv : (h₁.obj new).Within (h.obj new) := hm.receiver.resolve_right fun e => hr0 ⟨by have := e.1; omega, by
    have := e.2; omega⟩
  refine ⟨hle, ⟨new, List.mem_singleton_self _, hrecv.1.trans_lt hpL, hpx.trans hrecv.2⟩,
    ⟨q, hmid.mem_iff.mpr (List.mem_cons_of_mem _ hqm), hqx⟩, hm.agrees.next_le.trans hst.next_le, hst.wf, hst.holding,
    fun o ho hon hd => ?_, ?_⟩
  · have hd' := hd new (List.mem_singleton_self _)
    have hobj : h₁.obj o = h.obj o := hm.agrees.obj_eq o ho (by
      rintro (e | rfl)
      · exact hon (List.mem_singleton.mpr e)
      · exact hover hd')
    refine hst.aside o (ho.trans_le hm.agrees.next_le) hon fun p hp => ?_
    rw [List.mem_singleton.mp hp, hobj]
    exact disjoint_mono_left hd' hrecv
  · have hd := hm.dens x
    have hR : (h.obj r).rho x = 0 := box_of_not_mem hr0
    have hY : Range.rhoAt h₁ ys x = 0 := rhoAt_eq_zero fun o ho => hapart o (List.mem_append_right _ ho)
    rw [hY, zero_add, hR, hf.zero _ (Range.rho_nonneg (hwf new hn) x)] at hd
    rw [hst.dens, Range.rhoAt_perm (perm_append_middle acc ys rs), Range.rhoAt_append, hY, Range.rhoAt_congr hm.keep, Range.rhoAt_perm hmid]
    simp only [Range.rhoAt_cons, Range.rhoAt_nil, hR, hd]

/-- The loop of `__add_with2` on a piece that does not pass. -/
theorem add_with2_loop_strands (hf : Range.Merge f) {h : Store Range} (hwf : Range.AllWF h) {new : ℕ} (hn : new < h.next)
    {rs : List ℕ} (acc : List ℕ) (hs : SetWF h (acc ++ rs)) (hnew : new ∉ acc ++ rs)
    (hacc : ∀ q ∈ acc, (h.obj new).Disjoint (h.obj q)) (hc : ¬ Passes (rs.map h.obj) (h.obj new)) :
    ∃ L x h' rs', add_with2_loop (Range.op f) new h rs acc = .ok (h', rs') ∧
      Stranded L x h (acc ++ rs) [new] h' rs' := by
  induction rs generalizing h acc with
  | nil => exact absurd trivial hc
  | cons r rs ih =>
    have hrn := hs.live r (by simp)
    have hne : new ≠ r := fun e => hnew (by simp [e])
    by_cases hd : (h.obj new).Disjoint (h.obj r)
    · -- the range is only moved over
      have happ : acc ++ [r] ++ rs = acc ++ r :: rs := by simp
      rw [List.map_cons, Passes, if_pos hd] at hc
      obtain ⟨L, x, h', rs', hrun, hst⟩ := ih hwf hn (acc ++ [r]) (happ ▸ hs) (happ ▸ hnew)
        (fun q hq => (List.mem_append.mp hq).elim (hacc q) fun e => List.mem_singleton.mp e ▸ hd) hc
      refine ⟨L, x, h', rs', ?_, happ ▸ hst⟩
      rw [← hrun]
      exact add_with2_loop_append hwf hn [r] rs acc fun q hq => List.mem_singleton.mp hq ▸ ⟨hrn, hne, hd⟩
    · have hrest := disjoint_rest hs
      rw [List.map_cons, passes_cons_iff (f := f) hd hrest] at hc
      by_cases hclear : ∀ o ∈ (Range.meet f (h.obj new) (h.obj r)).1, ∀ q ∈ rs.map h.obj, o.Disjoint q
      · obtain ⟨h₁, xs, hop, hm, hrecv⟩ :=
          add_with2_meet hf hwf hs hn hnew hacc fun o ho q hq => hclear o ho _ (List.mem_map_of_mem hq)
        have hc₁ : ¬ Passes (rs.map h₁.obj) (h₁.obj new) := by
          rw [List.map_congr_left fun q hq => hm.keep q (List.mem_append_right _ hq), hrecv]
          exact fun h1 => hc ⟨hclear, h1⟩
        obtain ⟨L, x, h', rs', hrun, hst⟩ := ih hm.wf (hn.trans_le hm.agrees.next_le) (acc ++ xs.filter (· ≠ new)) hm.set
          hm.fresh hm.apart hc₁
        refine ⟨L, x, h', rs', ?_, hm.stranded hf hwf hs hn hd hst⟩
        rw [add_with2_loop, hop]
        exact hrun
      · -- what is put into the set behind `r` is overlapped
        push Not at hclear
        obtain ⟨o, ho, v, hv, hov⟩ := hclear
        obtain ⟨q, hq, rfl⟩ := List.mem_map.mp hv
        have hrq := hrest _ hv
        obtain ⟨⟨h1, h2⟩, rfl⟩ := (Range.meet_region ho).resolve_left fun e => hov (disjoint_mono_left hrq e)
        unfold Range.Disjoint at hov hrq
        simp only at hov
        have hsr := (hwf r hrn).sane
        obtain ⟨h₁, xs, hop, hst, haside⟩ :=
          op_strands hf hwf hs hn hnew h1 h2 hq (by omega) (by omega)
        obtain ⟨h', rs', hrun, hcar⟩ := add_with2_loop_carried (stable_aside hst.le) hf hst.wf (hn.trans_le hst.next_le) haside
          (acc ++ xs.filter (· ≠ new)) hst.holding (by
            have : new ∉ acc := fun e => hnew (List.mem_append_left _ e)
            simp [this])
        refine ⟨_, _, h', rs', ?_, hst.carried hcar⟩
        rw [add_with2_loop, hop]
        exact hrun

/-! ### All the pieces -/

/-- A piece that passes, then others. -/
theorem Placed.stranded (hf : Range.Merge f) {h h₁ h' : Store Range} (hwf : Range.AllWF h) {rs rs₁ rs' ps : List ℕ} {p : ℕ}
    (hs : SetWF h rs) (hp : Fragments h rs (p :: ps)) (hi : Placed f h rs p h₁ rs₁) (hst : Stranded L x h₁ rs₁ ps h' rs') :
    Stranded L x h rs (p :: ps) h' rs' := by
  have hobj := (hp.tail hi.toEntered).2
  have hle := hst.le
  obtain ⟨q, hq, hqL, hqx⟩ := hst.piece
  rw [hobj q hq] at hqL hqx
  have hp0 : ¬ ((h.obj p).start ≤ x ∧ x ≤ (h.obj p).stop) := fun e => by
    rcases (List.pairwise_cons.mp hp.disjoint).1 q hq with h1 | h1 <;> omega
  refine ⟨hle, ⟨q, List.mem_cons_of_mem _ hq, hqL, hqx⟩, ?_, hi.agrees.next_le.trans hst.next_le, hst.wf, hst.holding,
    fun o ho hon hd => ?_, ?_⟩
  · obtain ⟨o, ho, hox⟩ := hst.stored
    rcases hi.cover o ho with h1 | ⟨r, hr, h1⟩
    · exact absurd ⟨h1.1.trans hox.1, hox.2.trans h1.2⟩ hp0
    · exact ⟨r, hr, h1.1.trans hox.1, hox.2.trans h1.2⟩
  · have hoo : h₁.obj o = h.obj o := hi.agrees.obj_eq o ho (by
      rintro (rfl | ⟨-, h1⟩)
      · exact hon List.mem_cons_self
      · exact h1 (hd p List.mem_cons_self))
    refine hst.aside o (ho.trans_le hi.agrees.next_le) (fun e => hon (List.mem_cons_of_mem _ e)) fun q hq => ?_
    rw [hobj q hq, hoo]
    exact hd q (List.mem_cons_of_mem _ hq)
  · have hP : (h.obj p).rho x = 0 := box_of_not_mem hp0
    rw [hst.dens, hi.dens, hP, hf.zero _ (Range.rhoAt_nonneg (fun o ho => hwf o (hs.live o ho)) x), Range.rhoAt_congr hobj,
      Range.rhoAt_cons, hP, zero_add]

/-- The pieces after one that does not pass. -/
theorem Stranded.cons {h h' : Store Range} {rs rs' ps : List ℕ} {p : ℕ} (hp : Fragments h rs (p :: ps))
    (hst : Stranded L x h rs [p] h' rs') : Stranded L x h rs (p :: ps) h' rs' := by
  have hle := hst.le
  obtain ⟨q, hq, hqL, hqx⟩ := hst.piece
  have e := List.mem_singleton.mp hq
  rw [e] at hqL hqx
  refine ⟨hle, ⟨p, List.mem_cons_self, hqL, hqx⟩, hst.stored, hst.next_le, hst.wf, hst.holding, fun o ho hon hd => ?_, ?_⟩
  · refine hst.aside o ho (fun e => hon (List.mem_singleton.mp e ▸ List.mem_cons_self)) fun q hq => ?_
    rw [List.mem_singleton.mp hq]
    exact hd p List.mem_cons_self
  · have hps : Range.rhoAt h ps x = 0 := rhoAt_eq_zero fun o ho e => by
      rcases (List.pairwise_cons.mp hp.disjoint).1 o ho with h1 | h1 <;> omega
    rw [hst.dens, Range.rhoAt_cons, Range.rhoAt_cons, Range.rhoAt_nil, hps]

theorem add_pieces_strands (hf : Range.Merge f) {h : Store Range} (hwf : Range.AllWF h) {rs ps : List ℕ} (hs : SetWF h rs)
    (hp : Fragments h rs ps) (hc : ∃ p ∈ ps, ¬ Passes (rs.map h.obj) (h.obj p)) :
    ∃ L x h' rs', add_pieces (Range.op f) h rs ps = .ok (h', rs') ∧ Stranded L x h rs ps h' rs' := by
  induction ps generalizing h rs with
  | nil =>
    obtain ⟨p, hm, -⟩ := hc
    exact absurd hm List.not_mem_nil
  | cons p ps ih =>
    have hpm : p ∈ p :: ps := List.mem_cons_self
    by_cases hpass : Passes (rs.map h.obj) (h.obj p)
    · obtain ⟨h₁, rs₁, hrun, hi⟩ := add_with2_passes hf hwf hs (hp.live p hpm) (hp.fresh p hpm) hpass
      obtain ⟨q, hq, hnot⟩ := hc
      have hq' : q ∈ ps := (List.mem_cons.mp hq).resolve_left fun e => hnot (e ▸ hpass)
      obtain ⟨L, x, h', rs', hrun', hst⟩ := ih hi.wf hi.set (hp.tail hi.toEntered).1
        ⟨q, hq', fun h1 => hnot ((hi.passes_iff hp hq').mp h1)⟩
      refine ⟨L, x, h', rs', ?_, hi.stranded hf hwf hs hp hst⟩
      rw [add_pieces, hrun]
      exact hrun'
    · obtain ⟨L, x, h₁, rs₁, hrun, hst⟩ :=
        add_with2_loop_strands hf hwf (hp.live p hpm) [] hs (hp.fresh p hpm) (by simp) hpass
      have hpend : Pending (Aside L x) h₁ ps := fun q hq => by
        have hqn := hp.live q (List.mem_cons_of_mem _ hq)
        refine ⟨hqn.trans_le hst.next_le, hst.aside q hqn (fun e => ?_) fun o ho => ?_⟩
        · exact (List.nodup_cons.mp hp.nodup).1 (List.mem_singleton.mp e ▸ hq)
        · rw [List.mem_singleton.mp ho]
          exact (List.pairwise_cons.mp hp.disjoint).1 q hq
      obtain ⟨h', rs', hrun', hcar⟩ := add_pieces_carried (stable_aside hst.le) hf hst.wf hst.holding hpend
      refine ⟨L, x, h', rs', ?_, (hst.carried hcar).cons hp⟩
      rw [add_pieces, add_with2, hrun]
      exact hrun'

/-- **Inserting a range** of which a piece that is left over does not pass. -/
theorem add_with_strands (hf : Range.Merge f) {h : Store Range} (hwf : Range.AllWF h) {rs : List ℕ} (hs : SetWF h rs)
    {new : ℕ} (hn : new < h.next) (hnew : new ∉ rs) (hc : ¬ Reaches (rs.map h.obj) (h.obj new)) :
    ∃ L x h' rs', add_with (Range.op f) h rs new = .ok (h', rs') ∧ Stranded L x h rs [new] h' rs' := by
  obtain ⟨h₀, d, w, hd, hout⟩ := decompose_range_spec hwf hs.live hn hnew
  rcases hout with ⟨hlast, -⟩ | ⟨-, hrun, hw⟩
  · refine absurd (fun p hp => ?_) hc
    rw [show frontier _ 30 _ = [] from not_not.mp hlast.not_givesUp] at hp
    exact absurd hp List.not_mem_nil
  have hobj : ∀ o < h.next, o ≠ new → h₀.obj o = h.obj o := fun o ho hne =>
    hd.agrees.obj_eq o ho fun e => hne (List.mem_singleton.mp e)
  have hrs : ∀ r ∈ rs, h₀.obj r = h.obj r := fun r hr => hobj r (hs.live r hr) fun e => hnew (e ▸ hr)
  unfold Reaches at hc
  push Not at hc
  obtain ⟨v, hv, hnot⟩ := hc
  rw [← hw] at hv
  obtain ⟨p, hp, rfl⟩ := List.mem_map.mp hv
  obtain ⟨L, x, h', rs', hrun', hst⟩ := add_pieces_strands hf hd.wf (hs.congr hd.agrees.next_le hrs) (hd.fragments hs)
    ⟨p, List.mem_append_right _ hp, by rw [List.map_congr_left hrs]; exact hnot⟩
  refine ⟨L, x, h', rs', ?_, hst.le, ?_, ?_, hd.agrees.next_le.trans hst.next_le, hst.wf, hst.holding, fun o ho hon hdis => ?_,
    ?_⟩
  · rw [add_with, hrun]
    exact hrun'
  · obtain ⟨q, hq, h1, h2⟩ := hst.piece
    have hin := hd.parts.within q hq
    exact ⟨new, List.mem_singleton_self _, hin.1.trans_lt h1, h2.trans hin.2⟩
  · obtain ⟨q, hq, hqx⟩ := hst.stored
    exact ⟨q, hq, hrs q hq ▸ hqx⟩
  · have hne : o ≠ new := fun e => hon (List.mem_singleton.mpr e)
    refine hst.aside o (ho.trans_le hd.agrees.next_le) (fun e => ?_) fun q hq => ?_
    · rcases hd.refs o e with e | e
      · exact hne (List.mem_singleton.mp e)
      · omega
    · rw [hobj o ho hne]
      exact disjoint_mono_left (hdis new (List.mem_singleton_self _)) (hd.parts.within q hq)
  · rw [hst.dens, Range.rhoAt_congr hrs, hd.parts.dens, Range.rhoAt_cons, Range.rhoAt_nil, add_zero]

end RangeSet

end SEDiff.Juxta
