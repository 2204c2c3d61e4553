import SEDiff.Juxta.Addition

/-!
# Nothing is lost

Inserting with `intersection_assign` never takes density away, whatever the set and however often a
range is inserted: what `__decompose_range` returns twice is counted twice, and nothing is dropped.

## What is proved

* `RangeSet.add_with_gains` — an insertion into any set adds the density of the new range and an
  excess that is not negative; there is none when the range is added once, and for pairwise disjoint
  ranges only then.
* `RangeSet.add_all_gains` — so the excesses of the insertions of `intersection_assign` add up.
-/

namespace SEDiff.Juxta

open Foundation

namespace RangeSet

/-- Insertions that lose nothing. -/
structure Monotone (h : Store Range) (rs xs : List ℕ) (h' : Store Range) (rs' : List ℕ) : Prop where
  /-- Nothing else is touched. -/
  touches : Touches h rs xs h' rs'
  /-- Every range is well formed again. -/
  wf : Range.AllWF h'
  /-- The ranges of the set are allocated. -/
  live : ∀ o ∈ rs', o < h'.next
  /-- No range is held twice. -/
  nodup : rs'.Nodup
  /-- No density is lost. -/
  dens : ∀ x, Range.rhoAt h rs x ≤ Range.rhoAt h' rs' x

theorem Added.monotone {h h' : Store Range} {rs rs' : List ℕ} {new : ℕ} (hn : (h.obj new).WF)
    (ha : Added h rs [new] h' rs') : Monotone h rs [new] h' rs' := by
  refine ⟨ha.touches, ha.wf, ha.live, ha.nodup, fun x => ?_⟩
  rw [ha.dens, Range.rhoAt_cons, Range.rhoAt_nil, add_zero]
  exact le_add_of_nonneg_right (Range.rho_nonneg hn x)

/-- Inserting a range that the set may hold already. -/
theorem add_with2_loop_monotone {h : Store Range} (hwf : Range.AllWF h) {new : ℕ} (hn : new < h.next)
    {rs : List ℕ} (acc : List ℕ) (hl : ∀ r ∈ acc ++ rs, r < h.next) (hnd : (acc ++ rs).Nodup)
    (hacc : new ∉ acc) :
    ∃ h' rs', add_with2_loop Range.intersection_assign new h rs acc = .ok (h', rs') ∧
      Monotone h (acc ++ rs) [new] h' rs' := by
  induction rs generalizing h acc with
  | nil =>
    obtain ⟨h', rs', hrun, ha⟩ := add_with2_loop_added hwf hn acc hl hnd (by simpa using hacc)
    exact ⟨h', rs', hrun, ha.monotone (hwf new hn)⟩
  | cons r rs ih =>
    by_cases hmem : new ∈ r :: rs
    swap
    · obtain ⟨h', rs', hrun, ha⟩ := add_with2_loop_added hwf hn acc hl hnd (by simp [hacc, hmem])
      exact ⟨h', rs', hrun, ha.monotone (hwf new hn)⟩
    have hmid : (acc ++ r :: rs).Perm (r :: (acc ++ rs)) := List.perm_middle
    obtain ⟨hr, hnd'⟩ := List.nodup_cons.mp (hmid.nodup_iff.mp hnd)
    have hother : ∀ q ∈ acc ++ rs, q < h.next ∧ q ≠ r := fun q hq =>
      ⟨hl q (hmid.mem_iff.mpr (List.mem_cons_of_mem _ hq)), fun e => hr (e ▸ hq)⟩
    by_cases hrn : r = new
    · -- the range meets itself: its weight doubles
      subst hrn
      set h₁ := h.set r { h.obj r with weight := Range.add_two (h.obj r).weight (h.obj r).weight } with hh₁
      have hwr := hwf r hn
      have hdouble : 0 ≤ Range.add_two (h.obj r).weight (h.obj r).weight := add_nonneg hwr.nonneg hwr.nonneg
      have hwf₁ : Range.AllWF h₁ := hwf.set hwr.sane hdouble
      obtain ⟨h', rs', hrun, ha⟩ := add_with2_loop_added hwf₁ hn acc (fun q hq => (hother q hq).1) hnd' hr
      have hobj : h₁.obj r = { h.obj r with weight := Range.add_two (h.obj r).weight (h.obj r).weight } :=
        Store.obj_set_self _ _ _
      refine ⟨h', rs', ?_, ⟨?_, fun o ho => ?_⟩, ha.wf, ha.live, ha.nodup, fun x => ?_⟩
      · have hop : Range.intersection_assign h r r = .ok (h₁, [r]) := Range.op_self h r
        rw [add_with2_loop, hop]
        simpa using hrun
      · have hag₁ : h.Agrees h₁ fun o => o ∈ [r] ∨ o ∈ acc ++ r :: rs :=
          ⟨le_rfl, fun o _ ho => Store.obj_set_of_ne _ _ fun e => ho (.inl (List.mem_singleton.mpr e))⟩
        exact hag₁.trans ha.touches.agrees fun o _ e => e.imp_right fun e =>
          hmid.mem_iff.mpr (List.mem_cons_of_mem _ e)
      · rcases ha.touches.refs o ho with e | e | e
        · exact .inl e
        · exact .inr (.inl (hmid.mem_iff.mpr (List.mem_cons_of_mem _ e)))
        · exact .inr (.inr e)
      · have hkeep : ∀ q ∈ acc ++ rs, h₁.obj q = h.obj q := fun q hq =>
          Store.obj_set_of_ne _ _ (hother q hq).2
        have hle : (h.obj r).rho x ≤ (h₁.obj r).rho x := by
          rw [hobj, Range.rho_def, Range.rho_def]
          split_ifs
          · exact le_add_of_nonneg_right hwr.nonneg
          · exact le_rfl
        rw [ha.dens, Range.rhoAt_perm hmid, Range.rhoAt_cons, Range.rhoAt_cons, Range.rhoAt_nil, add_zero,
          Range.rhoAt_congr hkeep, add_comm]
        exact add_le_add_right hle _
    · -- the range is further on in the set
      have hin : new ∈ rs := (List.mem_cons.mp hmem).resolve_left (Ne.symm hrn)
      obtain ⟨h₁, xs, hop, hspec⟩ := Range.op_spec Range.merge_add_two hwf hn (hl r (by simp))
      have hm := merged_of_opSpec hspec
      have hrep := hm.replaced hl hnd
      have hle := hm.agrees.next_le
      obtain ⟨h', rs', hrun, hmono⟩ := ih hm.wf (hn.trans_le hle) (acc ++ xs.filter (· ≠ new)) hrep.live hrep.nodup
        fun hm' => by
          rcases List.mem_append.mp hm' with e | e
          · exact hacc e
          · exact (hm.refs new e).1 rfl
      refine ⟨h', rs', ?_, ⟨?_, fun o ho => ?_⟩, hmono.wf, hmono.live, hmono.nodup, fun x => ?_⟩
      · have hop' : Range.intersection_assign h new r = .ok (h₁, xs) := hop
        rw [add_with2_loop, hop']
        exact hrun
      · refine Store.Agrees.trans (hm.agrees.mono fun o e => ?_) hmono.touches.agrees fun o ho e => ?_
        · exact e.imp (fun e => List.mem_singleton.mpr e) fun e : o = r =>
            hmid.mem_iff.mpr (e ▸ List.mem_cons_self)
        · refine e.imp_right fun e => (hrep.back o e).resolve_right ?_
          omega
      · rcases hmono.touches.refs o ho with e | e | e
        · exact .inl e
        · exact .inr (hrep.back o e)
        · exact .inr (.inr (hle.trans e))
      · -- the new range is counted among the others on both sides
        refine le_trans (le_of_eq ?_) (hmono.dens x)
        have hperm : (acc ++ rs).Perm (new :: (acc ++ rs).erase new) :=
          List.perm_cons_erase (List.mem_append_right _ hin)
        have hkeep : ∀ q ∈ (acc ++ rs).erase new, h₁.obj q = h.obj q := fun q hq => by
          obtain ⟨hne, hq'⟩ := hnd'.mem_erase_iff.mp hq
          exact hrep.keep q hq' hne
        have hd := hm.dens x
        unfold Range.add_two at hd
        rw [Range.rhoAt_perm hmid, Range.rhoAt_cons, Range.rhoAt_perm hperm, Range.rhoAt_perm hrep.perm,
          Range.rhoAt_append, Range.rhoAt_perm hperm, Range.rhoAt_cons, Range.rhoAt_cons, Range.rhoAt_congr hkeep]
        linarith

/-- Pieces, in the set already or not. -/
theorem add_pieces_monotone {h : Store Range} (hwf : Range.AllWF h) {rs ps : List ℕ}
    (hl : ∀ r ∈ rs, r < h.next) (hnd : rs.Nodup) (hp : ∀ p ∈ ps, p < h.next) :
    ∃ h' rs', add_pieces Range.intersection_assign h rs ps = .ok (h', rs') ∧ Monotone h rs ps h' rs' := by
  induction ps generalizing h rs with
  | nil => exact ⟨h, rs, rfl, .nil _ _, hwf, hl, hnd, fun _ => le_rfl⟩
  | cons p ps ih =>
    obtain ⟨h₁, rs₁, hrun₁, hm⟩ := add_with2_loop_monotone hwf (hp p List.mem_cons_self) [] hl hnd (by simp)
    obtain ⟨h', rs', hrun, hm'⟩ := ih hm.wf hm.live hm.nodup fun q hq =>
      (hp q (List.mem_cons_of_mem _ hq)).trans_le hm.touches.agrees.next_le
    refine ⟨h', rs', ?_, hm.touches.cons hm'.touches, hm'.wf, hm'.live, hm'.nodup,
      fun x => (hm.dens x).trans (hm'.dens x)⟩
    rw [add_pieces, add_with2, hrun₁]
    exact hrun

/-! ### The excess of an insertion -/

/-- Inserting `xs` adds their density and the excess `E`. -/
structure Gains (h : Store Range) (rs xs : List ℕ) (h' : Store Range) (rs' : List ℕ) (E : ℤ → ℚ) : Prop where
  /-- Nothing else is touched. -/
  touches : Touches h rs xs h' rs'
  /-- Every range is well formed again. -/
  wf : Range.AllWF h'
  /-- The ranges of the set are allocated. -/
  live : ∀ o ∈ rs', o < h'.next
  /-- No range is held twice. -/
  nodup : rs'.Nodup
  /-- The excess is not negative. -/
  nonneg : ∀ x, 0 ≤ E x
  /-- The densities are added, and the excess comes on top. -/
  dens : ∀ x, Range.rhoAt h' rs' x = Range.rhoAt h rs x + Range.rhoAt h xs x + E x

theorem Added.gains {h h' : Store Range} {rs xs rs' : List ℕ} (ha : Added h rs xs h' rs') :
    Gains h rs xs h' rs' fun _ => 0 :=
  ⟨ha.touches, ha.wf, ha.live, ha.nodup, fun _ => le_rfl, fun x => by rw [ha.dens, add_zero]⟩

/-- An insertion, whatever becomes of the pieces that are returned twice. -/
theorem add_with_monotone {h : Store Range} (hwf : Range.AllWF h) {rs : List ℕ} (hl : ∀ r ∈ rs, r < h.next)
    (hnd : rs.Nodup) {new : ℕ} (hn : new < h.next) (hnew : new ∉ rs) (hg : ¬ GivesUp (rs.map h.obj) (h.obj new)) :
    ∃ h' rs' E, add_with Range.intersection_assign h rs new = .ok (h', rs') ∧ Gains h rs [new] h' rs' E := by
  obtain ⟨h₀, d, w, hd, hout⟩ := decompose_range_spec hwf hl hn hnew
  rcases hout with ⟨-, hrun₀, -⟩ | ⟨hgives, -, -⟩
  swap
  · exact absurd hgives hg
  have hrs : ∀ r ∈ rs, h₀.obj r = h.obj r := fun r hr =>
    hd.agrees.obj_eq r (hl r hr) fun e => hnew (List.mem_singleton.mp e ▸ hr)
  obtain ⟨h₁, rs₁, hrun₁, ha⟩ := add_pieces_added hd.wf
    (fun r hr => (hl r hr).trans_le hd.agrees.next_le) hnd ⟨hd.parts.live, hd.parts.nodup, hd.parts.fresh⟩
  have hwl : ∀ p ∈ w, p < h₁.next := fun p hp =>
    (hd.parts.live p (List.mem_append_right _ hp)).trans_le ha.touches.agrees.next_le
  obtain ⟨h', rs', hrun', hm⟩ := add_pieces_monotone ha.wf ha.live ha.nodup hwl
  have hsum : ∀ x, Range.rhoAt h₁ rs₁ x = Range.rhoAt h rs x + Range.rhoAt h [new] x := fun x => by
    rw [ha.dens, Range.rhoAt_congr hrs, hd.parts.dens, Range.rhoAt_cons, Range.rhoAt_nil, add_zero]
  have hle₀ := hd.agrees.next_le
  have hle₁ := ha.touches.agrees.next_le
  -- what the pieces and the set after the first insertions are made of
  have hpieces : ∀ o ∈ d ++ w, o = new ∨ h.next ≤ o := fun o ho =>
    (hd.refs o ho).imp_left fun e => List.mem_singleton.mp e
  have hset : ∀ o ∈ rs₁, o = new ∨ o ∈ rs ∨ h.next ≤ o := fun o ho => by
    rcases ha.touches.refs o ho with e | e | e
    · exact (hpieces o e).imp_right .inr
    · exact .inr (.inl e)
    · exact .inr (.inr (hle₀.trans e))
  refine ⟨h', rs', fun x => Range.rhoAt h' rs' x - Range.rhoAt h₁ rs₁ x, ?_, ⟨⟨?_, fun o ho hne => ?_⟩, fun o ho => ?_⟩,
    hm.wf, hm.live, hm.nodup, fun x => sub_nonneg.mpr (hm.dens x), fun x => ?_⟩
  · rw [add_with, hrun₀]
    simp only [ok_bind]
    rw [add_pieces_append, hrun₁]
    exact hrun'
  · exact (hle₀.trans hle₁).trans hm.touches.agrees.next_le
  · obtain ⟨hnn, hnr⟩ := not_or.mp hne
    have hnn : o ≠ new := fun e => hnn (List.mem_singleton.mpr e)
    have hnp : o ∉ d ++ w := fun hm => (hpieces o hm).elim hnn (not_le.mpr ho)
    have hns : o ∉ rs₁ := fun hm => (hset o hm).elim hnn fun e => e.elim hnr (not_le.mpr ho)
    rw [hm.touches.agrees.obj_eq o ((ho.trans_le hle₀).trans_le hle₁)
        (not_or.mpr ⟨fun e => hnp (List.mem_append_right _ e), hns⟩),
      ha.touches.agrees.obj_eq o (ho.trans_le hle₀) (not_or.mpr ⟨hnp, hnr⟩),
      hd.agrees.obj_eq o ho fun e => hnn (List.mem_singleton.mp e)]
  · rcases hm.touches.refs o ho with e | e | e
    · exact (hpieces o (List.mem_append_right _ e)).imp (fun e => List.mem_singleton.mpr e) .inr
    · exact (hset o e).imp_left fun e => List.mem_singleton.mpr e
    · exact .inr (.inr ((hle₀.trans hle₁).trans e))
  · rw [hsum]
    ring

/-- An insertion into a set of disjoint ranges adds once. -/
def OnceIfDisjoint (rs : List Range) (N : Range) : Prop := rs.Pairwise Range.Disjoint → AddsOnce rs N

/-- **One insertion** into any set: there is no excess when the new range is added once, and for
disjoint ranges only then. -/
theorem add_with_gains {h : Store Range} (hwf : Range.AllWF h) {rs : List ℕ} (hl : ∀ r ∈ rs, r < h.next)
    (hnd : rs.Nodup) {new : ℕ} (hn : new < h.next) (hnew : new ∉ rs) :
    ∃ h' rs' E, add_with Range.intersection_assign h rs new = .ok (h', rs') ∧ Gains h rs [new] h' rs' E ∧
      (AddsOnce (rs.map h.obj) (h.obj new) → ∀ x, E x = 0) ∧
      ((∀ x, E x = 0) → OnceIfDisjoint (rs.map h.obj) (h.obj new)) := by
  by_cases hg : GivesUp (rs.map h.obj) (h.obj new)
  · obtain ⟨h', rs', hrun, ha⟩ := add_with_givesUp hwf hl hnd hn hnew hg
    exact ⟨h', rs', _, hrun, ha.gains, fun _ _ => rfl, fun _ _ => .inl hg⟩
  by_cases hd : (rs.map h.obj).Pairwise Range.Disjoint
  · obtain ⟨h', rs', E, hrun, he⟩ :=
      add_exceeds hwf ⟨hl, hnd, List.pairwise_map.mp hd⟩ hn hnew (settles_of_not_givesUp hg)
    refine ⟨h', rs', E, hrun, ⟨he.touches, he.wf, he.set.live, he.set.nodup, he.nonneg, fun x => ?_⟩,
      he.zero_iff.mpr, fun hz _ => he.zero_iff.mp hz⟩
    rw [he.dens, Range.rhoAt_cons, Range.rhoAt_nil, add_zero]
  · obtain ⟨h', rs', E, hrun, hgain⟩ := add_with_monotone hwf hl hnd hn hnew hg
    exact ⟨h', rs', E, hrun, hgain, fun honce => absurd (honce.resolve_left hg).1 hd, fun _ hd' => absurd hd' hd⟩

theorem Gains.cons {h h₁ h' : Store Range} {rs rs₁ rs' xs : List ℕ} {y : ℕ} {E₁ E : ℤ → ℚ}
    (hargs : Args h rs (y :: xs)) (hy : Gains h rs [y] h₁ rs₁ E₁) (hxs : Gains h₁ rs₁ xs h' rs' E) :
    Gains h rs (y :: xs) h' rs' fun x => E₁ x + E x := by
  refine ⟨hy.touches.cons hxs.touches, hxs.wf, hxs.live, hxs.nodup,
    fun x => add_nonneg (hy.nonneg x) (hxs.nonneg x), fun x => ?_⟩
  rw [hxs.dens, hy.dens, Range.rhoAt_congr (hargs.tail hy.touches).2, Range.rhoAt_cons, Range.rhoAt_cons,
    Range.rhoAt_nil]
  ring

/-- Two excesses cancel only when both are zero. -/
theorem add_excess_eq_zero_iff {E F : ℤ → ℚ} (hE : ∀ x, 0 ≤ E x) (hF : ∀ x, 0 ≤ F x) :
    (∀ x, E x + F x = 0) ↔ (∀ x, E x = 0) ∧ ∀ x, F x = 0 := by
  rw [← forall_and]
  exact forall_congr' fun x => add_eq_zero_iff_of_nonneg (hE x) (hF x)

/-- **Many insertions** into any set. -/
theorem add_all_gains {h : Store Range} (hwf : Range.AllWF h) {rs xs : List ℕ} (hl : ∀ r ∈ rs, r < h.next)
    (hnd : rs.Nodup) (hx : Args h rs xs) :
    ∃ h' rs' E, add_all Range.intersection_assign h rs xs = .ok (h', rs') ∧ Gains h rs xs h' rs' E ∧
      (BeforeEach Range.intersection_assign AddsOnce h rs xs → ∀ x, E x = 0) ∧
      ((∀ x, E x = 0) → BeforeEach Range.intersection_assign OnceIfDisjoint h rs xs) := by
  induction xs generalizing h rs with
  | nil =>
    exact ⟨h, rs, fun _ => 0, rfl, ⟨.nil _ _, hwf, hl, hnd, fun _ => le_rfl, by simp⟩, fun _ _ => rfl,
      fun _ => trivial⟩
  | cons y xs ih =>
    have hym : y ∈ y :: xs := List.mem_cons_self
    obtain ⟨h₁, rs₁, E₁, hrun₁, hg₁, honce₁, hzero₁⟩ := add_with_gains hwf hl hnd (hx.live y hym) (hx.fresh y hym)
    obtain ⟨h', rs', E, hrun, hg, honce, hzero⟩ := ih hg₁.wf hg₁.live hg₁.nodup (hx.tail hg₁.touches).1
    refine ⟨h', rs', fun x => E₁ x + E x, ?_, hg₁.cons hx hg, ?_, ?_⟩
    · rw [add_all, hrun₁]
      exact hrun
    · rw [beforeEach_cons hrun₁, add_excess_eq_zero_iff hg₁.nonneg hg.nonneg]
      exact fun hb => ⟨honce₁ hb.1, honce hb.2⟩
    · rw [beforeEach_cons hrun₁, add_excess_eq_zero_iff hg₁.nonneg hg.nonneg]
      exact fun hz => ⟨hzero₁ hz.1, hzero hz.2⟩

end RangeSet

end SEDiff.Juxta
