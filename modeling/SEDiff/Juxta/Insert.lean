import SEDiff.Juxta.RangeSet
import Mathlib.Data.List.Pairwise
import Mathlib.Tactic.Ring

/-!
# Inserting settled pieces

A piece is settled in a set when every stored range covers it or avoids it.

## What is proved

* `RangeSet.add_with2_settled` — `__add_with2` puts a settled piece into a set of pairwise
  disjoint ranges: the set stays one, and the densities are combined pointwise.
* `RangeSet.add_with2_self` — a piece that is put in a second time only has its weight
  combined with itself.
-/

namespace SEDiff.Juxta

open Foundation

namespace RangeSet

variable {f : ℚ → ℚ → ℚ}

/-- Every range of the set covers `p` or avoids it. -/
def Settled (h : Store Range) (rs : List ℕ) (p : Range) : Prop :=
  ∀ r ∈ rs, p.Disjoint (h.obj r) ∨ p.Within (h.obj r)

instance symm_disjoint (h : Store Range) : Std.Symm fun a b => (h.obj a).Disjoint (h.obj b) :=
  ⟨fun _ _ hd => hd.symm⟩

/-- A set of pairwise disjoint ranges, each its own object. -/
structure SetWF (h : Store Range) (rs : List ℕ) : Prop where
  /-- The ranges are allocated. -/
  live : ∀ o ∈ rs, o < h.next
  /-- No range is held twice. -/
  nodup : rs.Nodup
  /-- No integer lies in two of the ranges. -/
  disjoint : rs.Pairwise fun a b => (h.obj a).Disjoint (h.obj b)

/-- The order of a set's list does not matter. -/
theorem SetWF.perm {h : Store Range} {rs ss : List ℕ} (hs : SetWF h rs) (hp : rs.Perm ss) : SetWF h ss :=
  ⟨fun o ho => hs.live o (hp.mem_iff.mpr ho), hp.nodup_iff.mp hs.nodup,
    (hp.pairwise_iff fun hd => hd.symm).mp hs.disjoint⟩

/-- A set reads its ranges only. -/
theorem SetWF.congr {h h' : Store Range} {rs : List ℕ} (hs : SetWF h rs) (hn : h.next ≤ h'.next)
    (ho : ∀ o ∈ rs, h'.obj o = h.obj o) : SetWF h' rs :=
  ⟨fun o hm => (hs.live o hm).trans_le hn, hs.nodup,
    hs.disjoint.imp_of_mem fun ha hb hd => by rw [ho _ ha, ho _ hb]; exact hd⟩

/-- Merging with ranges disjoint from `new` only moves them over. -/
theorem add_with2_loop_append {h : Store Range} (hwf : Range.AllWF h) {new : ℕ} (hn : new < h.next)
    (l tail acc : List ℕ) (hl : ∀ r ∈ l, r < h.next ∧ new ≠ r ∧ (h.obj new).Disjoint (h.obj r)) :
    add_with2_loop (Range.op f) new h (l ++ tail) acc =
      add_with2_loop (Range.op f) new h tail (acc ++ l) := by
  induction l generalizing acc with
  | nil => simp
  | cons r l ih =>
    obtain ⟨hr, hne, hd⟩ := hl r List.mem_cons_self
    have ih := ih (acc ++ [r]) fun q hq => hl q (List.mem_cons_of_mem _ hq)
    rw [List.cons_append, add_with2_loop]
    rcases Range.op_disjoint hwf hn hr hd with hop | hop <;> rw [hop] <;>
      simpa [hne.symm, List.append_assoc] using ih

/-- A list without repetition is `new` and the rest. -/
theorem perm_cons_filter_ne {xs : List ℕ} (hx : xs.Nodup) {new : ℕ} (hm : new ∈ xs) :
    xs.Perm (new :: xs.filter (· ≠ new)) := by
  have := List.perm_cons_erase hm
  rwa [hx.erase_eq_filter, show (fun a : ℕ => a != new) = (fun a => decide (a ≠ new)) by
    funext a; by_cases ha : a = new <;> simp [ha]] at this

/-- What stands in the place of a range, and the others. -/
theorem perm_append_middle (acc ys rs : List ℕ) : (acc ++ ys ++ rs).Perm (ys ++ (acc ++ rs)) := by
  rw [List.append_assoc]
  exact List.perm_append_comm_assoc acc ys rs

/-- What one merge of the loop of `__add_with2` does: `ys` are the results but the new range. -/
structure Merged (f : ℚ → ℚ → ℚ) (h : Store Range) (new r : ℕ) (h' : Store Range) (ys : List ℕ) : Prop where
  /-- Only the two operands change. -/
  agrees : h.Agrees h' fun o => o = new ∨ o = r
  /-- Every range is well formed again. -/
  wf : Range.AllWF h'
  /-- No range is kept twice. -/
  nodup : ys.Nodup
  /-- What is kept is the stored range or a fresh one. -/
  refs : ∀ o ∈ ys, o ≠ new ∧ (o = r ∨ h.next ≤ o) ∧ o < h'.next
  /-- The densities are combined pointwise. -/
  dens : ∀ x, (h'.obj new).rho x + Range.rhoAt h' ys x = f ((h.obj new).rho x) ((h.obj r).rho x)

theorem merged_of_opSpec {h h' : Store Range} {new r : ℕ} {xs : List ℕ} (hspec : Range.OpSpec f h new r h' xs) :
    Merged f h new r h' (xs.filter (· ≠ new)) := by
  refine ⟨hspec.agrees, hspec.wf, hspec.nodup.filter _, fun o ho => ?_, fun x => ?_⟩
  · obtain ⟨h1, h2⟩ := List.mem_filter.mp ho
    have h3 : o ≠ new := by simpa using h2
    exact ⟨h3, (hspec.refs o h1).resolve_left h3, hspec.live o h1⟩
  · have hd := hspec.dens x
    rw [Range.rhoAt_perm (perm_cons_filter_ne hspec.nodup hspec.mem), Range.rhoAt_cons] at hd
    exact hd

/-- What becomes of the set `acc ++ r :: rs` when `ys` take the place of `r`. -/
structure Replaced (h : Store Range) (acc : List ℕ) (r : ℕ) (rs : List ℕ) (new : ℕ) (h' : Store Range)
    (ys : List ℕ) : Prop where
  /-- The new ranges and the others. -/
  perm : (acc ++ ys ++ rs).Perm (ys ++ (acc ++ rs))
  /-- The ranges are allocated. -/
  live : ∀ o ∈ acc ++ ys ++ rs, o < h'.next
  /-- No range is held twice. -/
  nodup : (acc ++ ys ++ rs).Nodup
  /-- The ranges were held before or are fresh. -/
  back : ∀ o ∈ acc ++ ys ++ rs, o ∈ acc ++ r :: rs ∨ h.next ≤ o
  /-- The others were held before, -/
  other : ∀ q ∈ acc ++ rs, q ∈ acc ++ r :: rs ∧ q ≠ r
  /-- and are as they were. -/
  keep : ∀ q ∈ acc ++ rs, q ≠ new → h'.obj q = h.obj q

theorem Merged.replaced {h h' : Store Range} {acc rs ys : List ℕ} {new r : ℕ} (hm : Merged f h new r h' ys)
    (hl : ∀ o ∈ acc ++ r :: rs, o < h.next) (hnd : (acc ++ r :: rs).Nodup) : Replaced h acc r rs new h' ys := by
  have hmid : (acc ++ r :: rs).Perm (r :: (acc ++ rs)) := List.perm_middle
  obtain ⟨hr, hnd'⟩ := List.nodup_cons.mp (hmid.nodup_iff.mp hnd)
  have hother : ∀ q ∈ acc ++ rs, q ∈ acc ++ r :: rs ∧ q ≠ r := fun q hq =>
    ⟨hmid.mem_iff.mpr (List.mem_cons_of_mem _ hq), fun e => hr (e ▸ hq)⟩
  have hreord := perm_append_middle acc ys rs
  refine ⟨hreord, fun o ho => ?_, hreord.nodup_iff.mpr (hm.nodup.append hnd' fun o h1 h2 => ?_), fun o ho => ?_, hother,
    fun q hq hne => ?_⟩
  · rcases List.mem_append.mp (hreord.mem_iff.mp ho) with ho | ho
    · exact (hm.refs o ho).2.2
    · exact (hl o (hother o ho).1).trans_le hm.agrees.next_le
  · obtain ⟨h3, h4⟩ := hother o h2
    rcases (hm.refs o h1).2.1 with e | e
    · exact h4 e
    · exact absurd (hl o h3) (not_lt.mpr e)
  · rcases List.mem_append.mp (hreord.mem_iff.mp ho) with ho | ho
    · exact (hm.refs o ho).2.1.imp_left fun e : o = r => hmid.mem_iff.mpr (e ▸ List.mem_cons_self)
    · exact .inl (hother o ho).1
  · obtain ⟨h1, h2⟩ := hother q hq
    exact hm.agrees.obj_eq q (hl q h1) (not_or.mpr ⟨hne, h2⟩)

/-- Where a settled piece `p` ends up: its object is left as it is in a gap of the set, and
becomes a part `q` of the stored range around `p` otherwise. -/
def Stored (f : ℚ → ℚ → ℚ) (h : Store Range) (rs : List ℕ) (p q : Range) : Prop :=
  ((∀ r ∈ rs, p.Disjoint (h.obj r)) ∧ q = p) ∨
    ∃ r ∈ rs, p.Within (h.obj r) ∧ q.Within (h.obj r) ∧ q.weight = Range.kept f p (h.obj r)

/-- What inserting a range `new` does to a set of pairwise disjoint ranges. -/
structure Entered (f : ℚ → ℚ → ℚ) (h : Store Range) (rs : List ℕ) (new : ℕ) (h' : Store Range) (rs' : List ℕ) : Prop where
  /-- Only the range and the stored ranges it overlaps change. -/
  agrees : h.Agrees h' fun o => o = new ∨ o ∈ rs ∧ ¬ (h.obj new).Disjoint (h.obj o)
  /-- Every range is well formed again. -/
  wf : Range.AllWF h'
  /-- The set is a set of pairwise disjoint ranges again. -/
  set : SetWF h' rs'
  /-- It holds the range, ranges it held before, and fresh ones. -/
  refs : ∀ o ∈ rs', o = new ∨ o ∈ rs ∨ h.next ≤ o
  /-- The densities are combined pointwise. -/
  dens : ∀ x, Range.rhoAt h' rs' x = f (Range.rhoAt h rs x) ((h.obj new).rho x)
  /-- The ranges of the set cover what the range or a stored one covered. -/
  cover : ∀ o ∈ rs', (h'.obj o).Within (h.obj new) ∨ ∃ r ∈ rs, (h'.obj o).Within (h.obj r)

/-- What inserting a settled piece `new` does to a set of pairwise disjoint ranges. -/
structure Inserted (f : ℚ → ℚ → ℚ) (h : Store Range) (rs : List ℕ) (new : ℕ) (h' : Store Range)
    (rs' : List ℕ) : Prop extends Entered f h rs new h' rs' where
  /-- The piece is in it. -/
  mem : new ∈ rs'
  /-- It still holds every range that avoids the piece. -/
  keeps : ∀ r ∈ rs, (h.obj new).Disjoint (h.obj r) → r ∈ rs'
  /-- What becomes of the object of the piece. -/
  stored : Stored f h rs (h.obj new) (h'.obj new)
  /-- A piece elsewhere that was settled is settled still. -/
  settled : ∀ p : Range, p.start ≤ p.stop → p.Disjoint (h.obj new) → Settled h rs p → Settled h' rs' p

/-- A range that covers no integer of `rs` contributes nothing there. -/
theorem rhoAt_eq_zero {h : Store Range} {rs : List ℕ} {x : ℤ}
    (hx : ∀ r ∈ rs, ¬ ((h.obj r).start ≤ x ∧ x ≤ (h.obj r).stop)) : Range.rhoAt h rs x = 0 :=
  List.sum_eq_zero fun v hv => by
    obtain ⟨r, hr, rfl⟩ := List.mem_map.mp hv
    exact box_of_not_mem (hx r hr)

/-- A piece in a gap of the set is put beside the stored ranges. -/
theorem add_with2_gap (hf : Range.Merge f) {h : Store Range} (hwf : Range.AllWF h) {rs : List ℕ}
    (hs : SetWF h rs) {new : ℕ} (hn : new < h.next) (hnew : new ∉ rs)
    (hd : ∀ r ∈ rs, (h.obj new).Disjoint (h.obj r)) :
    add_with2 (Range.op f) h rs new = .ok (h, rs ++ [new]) ∧ Inserted f h rs new h (rs ++ [new]) := by
  have wn := hwf new hn
  have hne : ∀ r ∈ rs, new ≠ r := fun r hr e => hnew (e ▸ hr)
  constructor
  · have := add_with2_loop_append (f := f) hwf hn rs [] [] fun r hr => ⟨hs.live r hr, hne r hr, hd r hr⟩
    rw [List.append_nil, List.nil_append] at this
    exact this
  · refine ⟨⟨.refl _ _, hwf, ⟨?_, ?_, ?_⟩, by simp; tauto, fun x => ?_, fun o ho => ?_⟩, by simp,
      fun r hr _ => by simp [hr], .inl ⟨hd, rfl⟩, fun p _ hp hset r hr => ?_⟩
    · simpa [or_imp, forall_and, hn] using hs.live
    · rw [List.nodup_append]
      exact ⟨hs.nodup, by simp, fun a ha b hb => by
        rw [List.mem_singleton.mp hb]; exact (hne a ha).symm⟩
    · rw [List.pairwise_append]
      exact ⟨hs.disjoint, by simp, fun a ha b hb => by
        rw [List.mem_singleton.mp hb]; exact (hd a ha).symm⟩
    · rw [Range.rhoAt_append, Range.rhoAt_cons, Range.rhoAt_nil, add_zero]
      by_cases hx : (h.obj new).start ≤ x ∧ x ≤ (h.obj new).stop
      · have h0 : Range.rhoAt h rs x = 0 := rhoAt_eq_zero fun r hr hxr => by
          rcases hd r hr with hlt | hlt <;> omega
        rw [h0, zero_add, hf.zero_left (Range.rho_nonneg wn x)]
      · rw [Range.rho, box_of_not_mem hx, add_zero,
          hf.zero _ (Range.rhoAt_nonneg (fun o ho => hwf o (hs.live o ho)) x)]
    · rcases List.mem_append.mp ho with ho | ho
      · exact .inr ⟨o, ho, le_rfl, le_rfl⟩
      · rw [List.mem_singleton.mp ho]; exact .inl ⟨le_rfl, le_rfl⟩
    · rcases List.mem_append.mp hr with hr | hr
      · exact hset r hr
      · rw [List.mem_singleton.mp hr]; exact .inl hp

/-- A piece within a stored range is merged with that range only. -/
theorem add_with2_within (hf : Range.Merge f) {h : Store Range} (hwf : Range.AllWF h) {rs : List ℕ}
    (hs : SetWF h rs) {new r : ℕ} (hn : new < h.next) (hnew : new ∉ rs) (hr : r ∈ rs)
    (hin : (h.obj new).Within (h.obj r)) :
    ∃ h' rs', add_with2 (Range.op f) h rs new = .ok (h', rs') ∧ Inserted f h rs new h' rs' := by
  have wn := hwf new hn
  have hrn := hs.live r hr
  have wr := hwf r hrn
  have hne : new ≠ r := fun e => hnew (e ▸ hr)
  have hsn := wn.sane
  obtain ⟨l₁, l₂, rfl⟩ := List.append_of_mem hr
  -- every other stored range avoids `r`, and so `new`
  have hperm : (l₁ ++ r :: l₂).Perm (r :: (l₁ ++ l₂)) := List.perm_middle
  have hs' := hs.perm hperm
  have hother : ∀ q ∈ l₁ ++ l₂, q < h.next ∧ q ≠ r ∧ new ≠ q ∧ (h.obj r).Disjoint (h.obj q) := by
    intro q hq
    have hmem : q ∈ r :: (l₁ ++ l₂) := List.mem_cons_of_mem _ hq
    have hqr : q ≠ r := fun e => (List.nodup_cons.mp hs'.nodup).1 (e ▸ hq)
    exact ⟨hs'.live q hmem, hqr, fun e => hnew (hperm.mem_iff.mpr (e ▸ hmem)),
      (List.pairwise_cons.mp hs'.disjoint).1 q hq⟩
  have havoid : ∀ (p q : Range), p.start ≤ p.stop → p.Within (h.obj r) → (h.obj r).Disjoint q → p.Disjoint q := by
    rintro p q hp ⟨h1, h2⟩ (h3 | h3)
    · exact .inl (by omega)
    · exact .inr (by omega)
  obtain ⟨h', xs, hop, hspec, hparts, hpair, hkept⟩ := Range.op_within hf hwf hn hrn hne hin
  have hwithin : ∀ o ∈ xs, (h'.obj o).Within (h.obj r) := by
    intro o ho
    obtain ⟨h1, h2⟩ := hin
    have := (hspec.wf o (hspec.live o ho)).sane
    rcases hparts o ho with ⟨e1, e2⟩ | ⟨e1, e2⟩ | ⟨e1, e2⟩ <;> exact ⟨by omega, by omega⟩
  have hkeep : ∀ q ∈ l₁ ++ l₂, h'.obj q = h.obj q := fun q hq =>
    hspec.agrees.obj_eq q (hother q hq).1 (by
      rintro (e | e)
      · exact (hother q hq).2.2.1 e.symm
      · exact (hother q hq).2.1 e)
  have hnx : ∀ q ∈ l₁ ++ l₂, q ∉ xs := by
    intro q hq hx
    obtain ⟨hlt, hqr, hqn, -⟩ := hother q hq
    rcases hspec.refs q hx with e | e | e
    · exact hqn e.symm
    · exact hqr e
    · omega
  let ys := xs.filter (· ≠ new)
  have hxs : xs.Perm (new :: ys) := perm_cons_filter_ne hspec.nodup hspec.mem
  -- the loop
  have hrun : add_with2 (Range.op f) h (l₁ ++ r :: l₂) new = .ok (h', l₁ ++ ys ++ l₂ ++ [new]) := by
    have h₁ := add_with2_loop_append (f := f) hwf hn l₁ (r :: l₂) [] fun q hq => by
      have := hother q (List.mem_append_left _ hq)
      exact ⟨this.1, this.2.2.1, havoid _ _ hsn hin this.2.2.2⟩
    have h₂ := add_with2_loop_append (f := f) hspec.wf (lt_of_lt_of_le hn hspec.agrees.next_le) l₂ []
      (l₁ ++ ys) fun q hq => by
      have hq' := List.mem_append_right l₁ hq
      have := hother q hq'
      refine ⟨lt_of_lt_of_le this.1 hspec.agrees.next_le, this.2.2.1, ?_⟩
      rw [hkeep q hq']
      exact havoid _ _ (hspec.wf new (hspec.live new hspec.mem)).sane (hwithin new hspec.mem) this.2.2.2
    rw [add_with2, h₁, List.nil_append, add_with2_loop, hop]
    rw [List.append_nil] at h₂
    exact h₂
  have hres : (l₁ ++ ys ++ l₂ ++ [new]).Perm (xs ++ (l₁ ++ l₂)) := by
    refine List.Perm.trans ?_ (hxs.symm.append_right _)
    rw [List.perm_iff_count]
    intro a
    simp only [List.count_append, List.count_cons, List.count_nil]
    omega
  refine ⟨h', _, hrun, ⟨?_, hspec.wf, SetWF.perm ?_ hres.symm, ?_, fun x => ?_, ?_⟩, by simp, ?_,
    .inr ⟨r, hr, hin, hwithin new hspec.mem, hkept⟩, ?_⟩
  · refine hspec.agrees.mono fun o ho => ?_
    rcases ho with e | e
    · exact .inl e
    · obtain ⟨h1, h2⟩ := hin
      refine .inr ⟨e ▸ hr, ?_⟩
      rw [e]
      rintro (h3 | h3) <;> omega
  · refine ⟨?_, ?_, ?_⟩
    · intro o ho
      rcases List.mem_append.mp ho with ho | ho
      · exact hspec.live o ho
      · exact lt_of_lt_of_le (hother o ho).1 hspec.agrees.next_le
    · rw [List.nodup_append]
      exact ⟨hspec.nodup, (List.nodup_cons.mp hs'.nodup).2, fun a ha b hb e => hnx b hb (e ▸ ha)⟩
    · rw [List.pairwise_append]
      refine ⟨hpair, ?_, fun a ha b hb => ?_⟩
      · exact (List.pairwise_cons.mp hs'.disjoint).2.imp_of_mem fun ha hb hd => by
          rw [hkeep _ ha, hkeep _ hb]; exact hd
      · rw [hkeep b hb]
        exact havoid _ _ (hspec.wf a (hspec.live a ha)).sane (hwithin a ha) (hother b hb).2.2.2
  · intro o ho
    rcases List.mem_append.mp (hres.mem_iff.mp ho) with ho | ho
    · rcases hspec.refs o ho with e | e | e
      · exact .inl e
      · exact .inr (.inl (e ▸ hr))
      · exact .inr (.inr e)
    · exact .inr (.inl (hperm.mem_iff.mpr (List.mem_cons_of_mem _ ho)))
  · rw [Range.rhoAt_perm hres, Range.rhoAt_append, hspec.dens, Range.rhoAt_congr hkeep,
      Range.rhoAt_perm hperm, Range.rhoAt_cons]
    by_cases hx : (h.obj r).start ≤ x ∧ x ≤ (h.obj r).stop
    · have h0 : Range.rhoAt h (l₁ ++ l₂) x = 0 := rhoAt_eq_zero fun q hq hxq => by
        rcases (hother q hq).2.2.2 with hlt | hlt <;> omega
      rw [h0, add_zero, add_zero, hf.comm]
    · have h0 : (h.obj new).rho x = 0 := box_of_not_mem fun hxn => hx ⟨by have := hin.1; omega, by
        have := hin.2; omega⟩
      have h1 : (h.obj r).rho x = 0 := box_of_not_mem hx
      have hnn : 0 ≤ Range.rhoAt h (l₁ ++ l₂) x :=
        Range.rhoAt_nonneg (fun q hq => hwf q (hother q hq).1) x
      rw [h0, h1, hf.zero 0 le_rfl, zero_add, hf.zero _ hnn]
  · intro o ho
    rcases List.mem_append.mp (hres.mem_iff.mp ho) with ho | ho
    · exact .inr ⟨r, hr, hwithin o ho⟩
    · rw [hkeep o ho]
      exact .inr ⟨o, hperm.mem_iff.mpr (List.mem_cons_of_mem _ ho), le_rfl, le_rfl⟩
  · intro q hq hd
    rcases List.mem_cons.mp (hperm.mem_iff.mp hq) with e | hq
    · obtain ⟨h1, h2⟩ := hin
      rw [e] at hd
      rcases hd with hd | hd <;> omega
    · exact hres.mem_iff.mpr (List.mem_append_right _ hq)
  · intro p hp hpn hset q hq
    rcases List.mem_append.mp (hres.mem_iff.mp hq) with hq | hq
    · obtain ⟨h1, h2⟩ := hwithin q hq
      obtain ⟨h3, h4⟩ := hin
      rcases hset r hr with hd | ⟨h5, h6⟩
      · rcases hd with hd | hd
        · exact .inl (.inl (by omega))
        · exact .inl (.inr (by omega))
      · -- `p` lies within `r` and avoids `new`: it lies in one of the parts
        rcases hpn with hd | hd <;> rcases hparts q hq with ⟨e1, e2⟩ | ⟨e1, e2⟩ | ⟨e1, e2⟩
        · exact .inl (.inl (by omega))
        · exact .inr ⟨by omega, by omega⟩
        · exact .inl (.inl (by omega))
        · exact .inl (.inr (by omega))
        · exact .inl (.inr (by omega))
        · exact .inr ⟨by omega, by omega⟩
    · rw [hkeep q hq]
      exact hset q (hperm.mem_iff.mpr (List.mem_cons_of_mem _ hq))

/-- A settled piece is inserted into a set of pairwise disjoint ranges. -/
theorem add_with2_settled (hf : Range.Merge f) {h : Store Range} (hwf : Range.AllWF h) {rs : List ℕ}
    (hs : SetWF h rs) {new : ℕ} (hn : new < h.next) (hnew : new ∉ rs) (hset : Settled h rs (h.obj new)) :
    ∃ h' rs', add_with2 (Range.op f) h rs new = .ok (h', rs') ∧ Inserted f h rs new h' rs' := by
  by_cases hall : ∀ r ∈ rs, (h.obj new).Disjoint (h.obj r)
  · exact ⟨h, _, add_with2_gap hf hwf hs hn hnew hall⟩
  · push Not at hall
    obtain ⟨r, hr, hd⟩ := hall
    exact add_with2_within hf hwf hs hn hnew hr ((hset r hr).resolve_left hd)

/-- The weight of a range combined with itself. -/
def doubled (f : ℚ → ℚ → ℚ) (r : Range) : Range := { r with weight := f r.weight r.weight }

theorem rho_doubled (hf : Range.Merge f) (r : Range) (x : ℤ) :
    (doubled f r).rho x = f (r.rho x) (r.rho x) := by
  by_cases hx : r.start ≤ x ∧ x ≤ r.stop
  · have h1 : r.rho x = r.weight := box_of_mem hx
    rw [h1]
    exact box_of_mem hx
  · have h1 : r.rho x = 0 := box_of_not_mem hx
    rw [h1, hf.zero 0 le_rfl]
    exact box_of_not_mem hx

/-- Inserting a range that the set holds only combines its weight with itself. -/
theorem add_with2_self (hf : Range.Merge f) {h : Store Range} (hwf : Range.AllWF h) {rs : List ℕ}
    (hs : SetWF h rs) {new : ℕ} (hnew : new ∈ rs) :
    ∃ rs', rs'.Perm rs ∧
      add_with2 (Range.op f) h rs new = .ok (h.set new (doubled f (h.obj new)), rs') := by
  have hn := hs.live new hnew
  have wn := hwf new hn
  obtain ⟨l₁, l₂, rfl⟩ := List.append_of_mem hnew
  have hs' := hs.perm List.perm_middle
  have hother : ∀ q ∈ l₁ ++ l₂, q < h.next ∧ new ≠ q ∧ (h.obj new).Disjoint (h.obj q) := by
    intro q hq
    exact ⟨hs'.live q (List.mem_cons_of_mem _ hq),
      fun e => (List.nodup_cons.mp hs'.nodup).1 (e ▸ hq), (List.pairwise_cons.mp hs'.disjoint).1 q hq⟩
  have hwf' : Range.AllWF (h.set new (doubled f (h.obj new))) :=
    hwf.set wn.sane (hf.nonneg _ _ wn.nonneg wn.nonneg)
  refine ⟨l₁ ++ l₂ ++ [new], ?_, ?_⟩
  · rw [List.append_assoc]
    exact (List.perm_append_singleton new l₂).append_left l₁
  · have h₁ := add_with2_loop_append (f := f) hwf hn l₁ (new :: l₂) [] fun q hq =>
      hother q (List.mem_append_left _ hq)
    have h₂ := add_with2_loop_append (f := f) hwf' hn l₂ [] l₁ fun q hq => by
      obtain ⟨hlt, hne, hd⟩ := hother q (List.mem_append_right l₁ hq)
      refine ⟨hlt, hne, ?_⟩
      rw [Store.obj_set_self, Store.obj_set_of_ne _ _ hne.symm]
      exact hd
    rw [add_with2, h₁, List.nil_append, add_with2_loop, Range.op_self]
    rw [List.append_nil] at h₂
    simpa [doubled, add_with2_loop] using h₂

/-! ### Inserting the pieces -/

/-- Pieces apart from each other, none of them in the set. -/
structure Fragments (h : Store Range) (rs ps : List ℕ) : Prop where
  /-- The pieces are allocated. -/
  live : ∀ p ∈ ps, p < h.next
  /-- No piece is listed twice. -/
  nodup : ps.Nodup
  /-- No piece is stored already. -/
  fresh : ∀ p ∈ ps, p ∉ rs
  /-- No integer lies in two of the pieces. -/
  disjoint : ps.Pairwise fun a b => (h.obj a).Disjoint (h.obj b)
  /-- No stored range overlaps two of the pieces. -/
  sep : ∀ r ∈ rs, ps.Pairwise fun a b => (h.obj a).Disjoint (h.obj r) ∨ (h.obj b).Disjoint (h.obj r)

/-- Pieces apart from each other, all settled in the set, none of them in it. -/
structure Pieces (h : Store Range) (rs ps : List ℕ) : Prop extends Fragments h rs ps where
  /-- Every piece is settled. -/
  settled : ∀ p ∈ ps, Settled h rs (h.obj p)

/-- What is left to insert after the first piece. -/
theorem Fragments.tail {h h' : Store Range} {rs rs' : List ℕ} {p : ℕ} {ps : List ℕ} (hp : Fragments h rs (p :: ps))
    (hi : Entered f h rs p h' rs') : Fragments h' rs' ps ∧ ∀ q ∈ ps, h'.obj q = h.obj q := by
  obtain ⟨hd, hdis⟩ := List.pairwise_cons.mp hp.disjoint
  obtain ⟨hnp, hnd⟩ := List.nodup_cons.mp hp.nodup
  have hobj : ∀ q ∈ ps, h'.obj q = h.obj q := fun q hq =>
    hi.agrees.obj_eq q (hp.live q (List.mem_cons_of_mem _ hq)) (by
      rintro (e | ⟨e, -⟩)
      · exact hnp (e ▸ hq)
      · exact hp.fresh q (List.mem_cons_of_mem _ hq) e)
  refine ⟨⟨fun q hq => lt_of_lt_of_le (hp.live q (List.mem_cons_of_mem _ hq)) hi.agrees.next_le, hnd,
    fun q hq hm => ?_, ?_, fun o ho => ?_⟩, hobj⟩
  · rcases hi.refs q hm with e | e | e
    · exact hnp (e ▸ hq)
    · exact hp.fresh q (List.mem_cons_of_mem _ hq) e
    · exact absurd (hp.live q (List.mem_cons_of_mem _ hq)) (not_lt.mpr e)
  · exact hdis.imp_of_mem fun ha hb hab => by rw [hobj _ ha, hobj _ hb]; exact hab
  · rcases hi.cover o ho with hin | ⟨r, hr, hin⟩
    · refine hdis.imp_of_mem fun ha _ _ => .inl ?_
      rw [hobj _ ha]
      exact (hd _ ha).symm.mono_right hin
    · refine (List.pairwise_cons.mp (hp.sep r hr)).2.imp_of_mem fun ha hb hab => ?_
      rw [hobj _ ha, hobj _ hb]
      exact hab.imp (fun h1 => h1.mono_right hin) fun h1 => h1.mono_right hin

theorem Pieces.tail {h h' : Store Range} {rs rs' : List ℕ} {p : ℕ} {ps : List ℕ} (hwf : Range.AllWF h)
    (hp : Pieces h rs (p :: ps)) (hi : Inserted f h rs p h' rs') :
    Pieces h' rs' ps ∧ ∀ q ∈ ps, h'.obj q = h.obj q := by
  obtain ⟨hp', hobj⟩ := hp.toFragments.tail hi.toEntered
  refine ⟨⟨hp', fun q hq => ?_⟩, hobj⟩
  rw [hobj q hq]
  exact hi.settled _ (hwf q (hp.live q (List.mem_cons_of_mem _ hq))).sane
    ((List.pairwise_cons.mp hp.disjoint).1 q hq).symm (hp.settled q (List.mem_cons_of_mem _ hq))

/-- What inserting all of `ps` does to a set of pairwise disjoint ranges. -/
structure AllInserted (f : ℚ → ℚ → ℚ) (h : Store Range) (rs ps : List ℕ) (h' : Store Range)
    (rs' : List ℕ) : Prop where
  /-- Only the pieces and the stored ranges around them change. -/
  agrees : h.Agrees h' fun o => o ∈ ps ∨ o ∈ rs ∧ ∃ p ∈ ps, ¬ (h.obj p).Disjoint (h.obj o)
  /-- Every range is well formed again. -/
  wf : Range.AllWF h'
  /-- The set is a set of pairwise disjoint ranges again. -/
  set : SetWF h' rs'
  /-- The pieces are in it. -/
  mem : ∀ p ∈ ps, p ∈ rs'
  /-- It still holds every range that avoids the pieces. -/
  keeps : ∀ r ∈ rs, (∀ p ∈ ps, (h.obj p).Disjoint (h.obj r)) → r ∈ rs'
  /-- It holds the pieces, ranges it held before, and fresh ones. -/
  refs : ∀ o ∈ rs', o ∈ ps ∨ o ∈ rs ∨ h.next ≤ o
  /-- What becomes of the objects of the pieces. -/
  stored : ∀ p ∈ ps, Stored f h rs (h.obj p) (h'.obj p)
  /-- The densities are combined pointwise. -/
  dens : ∀ x, Range.rhoAt h' rs' x = f (Range.rhoAt h rs x) (Range.rhoAt h ps x)

/-- Where a later piece ends up does not depend on the pieces before it. -/
theorem Stored.of_tail {h h' : Store Range} {rs rs' : List ℕ} {p q : ℕ} {ps : List ℕ} {v : Range}
    (hwf : Range.AllWF h) (hs : SetWF h rs) (hp : Pieces h rs (p :: ps)) (hi : Inserted f h rs p h' rs')
    (hq : q ∈ ps) (hv : Stored f h' rs' (h.obj q) v) : Stored f h rs (h.obj q) v := by
  have hqs : q ∈ p :: ps := List.mem_cons_of_mem _ hq
  have wq := (hwf q (hp.live q hqs)).sane
  have hpq := (List.pairwise_cons.mp hp.disjoint).1 q hq
  -- a stored range around `q` avoids `p`, and so is still there
  have hsame : ∀ r ∈ rs, (h.obj q).Within (h.obj r) → r ∈ rs' ∧ h'.obj r = h.obj r := by
    intro r hr hin
    have hd : (h.obj p).Disjoint (h.obj r) := by
      refine ((List.pairwise_cons.mp (hp.sep r hr)).1 q hq).resolve_right ?_
      rintro (h1 | h1) <;> have := hin.1 <;> have := hin.2 <;> omega
    refine ⟨hi.keeps r hr hd, hi.agrees.obj_eq r (hs.live r hr) ?_⟩
    rintro (e | ⟨-, h1⟩)
    · exact hp.fresh p List.mem_cons_self (e ▸ hr)
    · exact h1 hd
  rcases hv with ⟨hgap, rfl⟩ | ⟨r', hr', hin, hvin, hw⟩
  · refine .inl ⟨fun r hr => (hp.settled q hqs r hr).resolve_right fun hin => ?_, rfl⟩
    obtain ⟨hm, ho⟩ := hsame r hr hin
    have hd := hgap r hm
    rw [ho] at hd
    rcases hd with h1 | h1 <;> have := hin.1 <;> have := hin.2 <;> omega
  · rcases hi.cover r' hr' with hc | ⟨r, hr, hc⟩
    · have := hin.1
      have := hin.2
      have := hc.1
      have := hc.2
      rcases hpq with h1 | h1 <;> omega
    · have hqr : (h.obj q).Within (h.obj r) := ⟨hc.1.trans hin.1, hin.2.trans hc.2⟩
      obtain ⟨hm, ho⟩ := hsame r hr hqr
      have hrr : r' = r := by
        by_contra hne
        have hd := hi.set.disjoint.forall hr' hm hne
        rw [ho] at hd
        have := hin.1
        have := hin.2
        have := hqr.1
        have := hqr.2
        rcases hd with h1 | h1 <;> omega
      subst hrr
      rw [ho] at hin hvin hw
      exact .inr ⟨r', hr, hin, hvin, hw⟩

/-- Settled pieces are inserted one by one. -/
theorem add_pieces_settled (hf : Range.Merge f) {h : Store Range} (hwf : Range.AllWF h) {rs : List ℕ}
    (hs : SetWF h rs) {ps : List ℕ} (hp : Pieces h rs ps) :
    ∃ h' rs', add_pieces (Range.op f) h rs ps = .ok (h', rs') ∧ AllInserted f h rs ps h' rs' := by
  induction ps generalizing h rs with
  | nil =>
    refine ⟨h, rs, rfl, .refl _ _, hwf, hs, by simp, by simp +contextual, by simp +contextual, by simp,
      fun x => ?_⟩
    rw [Range.rhoAt_nil, hf.zero _ (Range.rhoAt_nonneg (fun o ho => hwf o (hs.live o ho)) x)]
  | cons p ps ih =>
    have hpm : p ∈ p :: ps := List.mem_cons_self
    have hpn := hp.live p hpm
    obtain ⟨h₁, rs₁, hrun, hi⟩ :=
      add_with2_settled hf hwf hs hpn (hp.fresh p hpm) (hp.settled p hpm)
    obtain ⟨hp₁, hobj⟩ := hp.tail hwf hi
    obtain ⟨h', rs', hrun', ha⟩ := ih hi.wf hi.set hp₁
    have hpq := (List.pairwise_cons.mp hp.disjoint).1
    -- the pieces after `p` avoid what became of the object of `p`
    have havoid : ∀ q ∈ ps, (h.obj q).Disjoint (h₁.obj p) := by
      intro q hq
      rcases hi.stored with ⟨-, e⟩ | ⟨r, hr, hin, hin', -⟩
      · rw [e]
        exact (hpq q hq).symm
      · refine Range.Disjoint.mono_right ?_ hin'
        refine ((List.pairwise_cons.mp (hp.sep r hr)).1 q hq).resolve_left ?_
        have := (hwf p hpn).sane
        rintro (h1 | h1) <;> have := hin.1 <;> have := hin.2 <;> omega
    have hpp : h'.obj p = h₁.obj p := by
      refine ha.agrees.obj_eq p (hpn.trans_le hi.agrees.next_le) ?_
      rintro (e | ⟨-, q, hq, h1⟩)
      · exact (List.nodup_cons.mp hp.nodup).1 e
      · rw [hobj q hq] at h1
        exact h1 (havoid q hq)
    refine ⟨h', rs', ?_, ?_, ha.wf, ha.set, ?_, ?_, ?_, ?_, fun x => ?_⟩
    · rw [add_pieces, hrun]
      exact hrun'
    · refine ⟨hi.agrees.next_le.trans ha.agrees.next_le, fun o ho hn => ?_⟩
      push Not at hn
      obtain ⟨hops, hors⟩ := hn
      have hop : o ≠ p := fun e => hops (e ▸ hpm)
      have h1 : h₁.obj o = h.obj o := hi.agrees.obj_eq o ho (by
        rintro (e | ⟨hor, hd⟩)
        · exact hop e
        · exact hd (hors hor p hpm))
      rw [← h1]
      refine ha.agrees.obj_eq o (ho.trans_le hi.agrees.next_le) ?_
      rintro (e | ⟨hor, q, hq, hd⟩)
      · exact hops (List.mem_cons_of_mem _ e)
      · rw [hobj q hq, h1] at hd
        rcases hi.refs o hor with e | e | e
        · exact hop e
        · exact hd (hors e q (List.mem_cons_of_mem _ hq))
        · omega
    · intro q hq
      rcases List.mem_cons.mp hq with rfl | hq
      · refine ha.keeps q hi.mem fun p hp' => ?_
        rw [hobj p hp']
        exact havoid p hp'
      · exact ha.mem q hq
    · intro r hr hd
      have hdp := hd p hpm
      refine ha.keeps r (hi.keeps r hr hdp) fun q hq => ?_
      rw [hobj q hq, hi.agrees.obj_eq r (hs.live r hr) (by
        rintro (e | ⟨-, h1⟩)
        · exact hp.fresh p hpm (e ▸ hr)
        · exact h1 hdp)]
      exact hd q (List.mem_cons_of_mem _ hq)
    · intro o ho
      rcases ha.refs o ho with e | e | e
      · exact .inl (List.mem_cons_of_mem _ e)
      · rcases hi.refs o e with e | e | e
        · exact .inl (e ▸ hpm)
        · exact .inr (.inl e)
        · exact .inr (.inr e)
      · exact .inr (.inr (hi.agrees.next_le.trans e))
    · intro q hq
      rcases List.mem_cons.mp hq with rfl | hq
      · rw [hpp]
        exact hi.stored
      · have := ha.stored q hq
        rw [hobj q hq] at this
        exact this.of_tail hwf hs hp hi hq
    · have hps : Range.rhoAt h₁ ps x = Range.rhoAt h ps x := Range.rhoAt_congr hobj x
      rw [ha.dens, hi.dens, hps, Range.rhoAt_cons]
      have h0 : 0 ≤ Range.rhoAt h rs x := Range.rhoAt_nonneg (fun o ho => hwf o (hs.live o ho)) x
      have h1 := Range.rho_nonneg (hwf p hpn) x
      by_cases hx : (h.obj p).start ≤ x ∧ x ≤ (h.obj p).stop
      · have : Range.rhoAt h ps x = 0 := rhoAt_eq_zero fun q hq hxq => by
          rcases hpq q hq with hlt | hlt <;> omega
        rw [this, add_zero, hf.zero _ (hf.nonneg _ _ h0 h1)]
      · have : (h.obj p).rho x = 0 := box_of_not_mem hx
        rw [this, zero_add, hf.zero _ h0]

/-- Combining a range's weight with itself moves nothing. -/
theorem SetWF.set_doubled {h : Store Range} {rs : List ℕ} (hs : SetWF h rs) (p : ℕ) :
    SetWF (h.set p (doubled f (h.obj p))) rs := by
  have hends : ∀ o, ((h.set p (doubled f (h.obj p))).obj o).start = (h.obj o).start ∧
      ((h.set p (doubled f (h.obj p))).obj o).stop = (h.obj o).stop := by
    intro o
    by_cases ho : o = p
    · rw [ho, Store.obj_set_self]
      exact ⟨rfl, rfl⟩
    · rw [Store.obj_set_of_ne _ _ ho]
      exact ⟨rfl, rfl⟩
  refine ⟨hs.live, hs.nodup, hs.disjoint.imp fun hd => ?_⟩
  rw [Range.Disjoint, (hends _).1, (hends _).2, (hends _).1, (hends _).2]
  exact hd

/-- What inserting pieces that are in the set already does. -/
structure AllDoubled (f : ℚ → ℚ → ℚ) (h : Store Range) (rs ps : List ℕ) (h' : Store Range)
    (rs' : List ℕ) : Prop where
  /-- Only the pieces change. -/
  agrees : h.Agrees h' fun o => o ∈ ps
  /-- Every range is well formed again. -/
  wf : Range.AllWF h'
  /-- The set is a set of pairwise disjoint ranges again. -/
  set : SetWF h' rs'
  /-- The set holds the same ranges. -/
  perm : rs'.Perm rs
  /-- The weight of every piece is combined with itself. -/
  obj : ∀ p ∈ ps, h'.obj p = doubled f (h.obj p)
  /-- The density changes by what the pieces change. -/
  dens : ∀ x, Range.rhoAt h' rs' x =
    Range.rhoAt h rs x + (Range.rhoAt h' ps x - Range.rhoAt h ps x)

/-- Pieces that are in the set already are inserted again. -/
theorem add_pieces_doubled (hf : Range.Merge f) {h : Store Range} (hwf : Range.AllWF h) {rs : List ℕ}
    (hs : SetWF h rs) {ps : List ℕ} (hnd : ps.Nodup) (hm : ∀ p ∈ ps, p ∈ rs) :
    ∃ h' rs', add_pieces (Range.op f) h rs ps = .ok (h', rs') ∧ AllDoubled f h rs ps h' rs' := by
  induction ps generalizing h rs with
  | nil => exact ⟨h, rs, rfl, .refl _ _, hwf, hs, .refl _, by simp, by simp⟩
  | cons p ps ih =>
    obtain ⟨hp, hnd⟩ := List.nodup_cons.mp hnd
    have hpm := hm p List.mem_cons_self
    have wp := hwf p (hs.live p hpm)
    obtain ⟨rs₁, hperm, hrun⟩ := add_with2_self hf hwf hs hpm
    set h₁ := h.set p (doubled f (h.obj p)) with hh₁
    have hwf₁ : Range.AllWF h₁ := hwf.set wp.sane (hf.nonneg _ _ wp.nonneg wp.nonneg)
    have hs₁ : SetWF h₁ rs₁ := (hs.set_doubled p).perm hperm.symm
    obtain ⟨h', rs', hrun', hd⟩ := ih hwf₁ hs₁ hnd fun q hq =>
      hperm.mem_iff.mpr (hm q (List.mem_cons_of_mem _ hq))
    have hobj : ∀ q, q ≠ p → h₁.obj q = h.obj q := fun q hq => Store.obj_set_of_ne _ _ hq
    have hpp : h'.obj p = doubled f (h.obj p) := by
      rw [hd.agrees.obj_eq p (hs.live p hpm) hp, hh₁, Store.obj_set_self]
    have hne : ∀ q ∈ ps, q ≠ p := fun q hq e => hp (e ▸ hq)
    refine ⟨h', rs', ?_, ?_, hd.wf, hd.set, hd.perm.trans hperm, ?_, fun x => ?_⟩
    · rw [add_pieces, hrun]
      exact hrun'
    · refine ⟨hd.agrees.next_le, fun o ho hn => ?_⟩
      obtain ⟨h1, h2⟩ := not_or.mp (fun e => hn (List.mem_cons.mpr e))
      rw [hd.agrees.obj_eq o ho h2, hobj o h1]
    · intro q hq
      rcases List.mem_cons.mp hq with rfl | hq
      · exact hpp
      · rw [hd.obj q hq, hobj q (hne q hq)]
    · have h1 : Range.rhoAt h₁ ps x = Range.rhoAt h ps x :=
        Range.rhoAt_congr (fun q hq => hobj q (hne q hq)) x
      obtain ⟨l₁, l₂, rfl⟩ := List.append_of_mem hpm
      have hmid : (l₁ ++ p :: l₂).Perm (p :: (l₁ ++ l₂)) := List.perm_middle
      have h2 : Range.rhoAt h₁ (l₁ ++ l₂) x = Range.rhoAt h (l₁ ++ l₂) x :=
        Range.rhoAt_congr (fun q hq => hobj q fun e =>
          (List.nodup_cons.mp (hs.perm hmid).nodup).1 (e ▸ hq)) x
      rw [hd.dens, Range.rhoAt_perm (hperm.trans hmid), Range.rhoAt_perm hmid, Range.rhoAt_cons,
        Range.rhoAt_cons, Range.rhoAt_cons, Range.rhoAt_cons, h1, h2, hpp, hh₁, Store.obj_set_self]
      ring

end RangeSet

end SEDiff.Juxta
