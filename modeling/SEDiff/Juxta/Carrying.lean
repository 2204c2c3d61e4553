import SEDiff.Juxta.AddWith
import SEDiff.Juxta.Meeting

/-!
# What an insertion keeps

An insertion only cuts and merges ranges, into whatever set and whatever objects the set shares with the new range. So it keeps
what cutting and merging keep, and the density where no range that is inserted reaches.

## What is proved

* `RangeSet.add_with_carried`, `RangeSet.add_all_carried` — this, for an insertion and for any number of them.
* `RangeSet.stable_weight` — it holds of weights that are positive.
* `RangeSet.stable_aside` — and of a line that no range of the set crosses and no range that is inserted touches.
-/

namespace SEDiff.Juxta

open Foundation

namespace RangeSet

variable {f : ℚ → ℚ → ℚ} {A M : Range → Prop}

/-- Cutting and merging keep the property `A` of ranges that are inserted and the property `M` of ranges that a set holds. -/
structure Stable (f : ℚ → ℚ → ℚ) (A M : Range → Prop) : Prop where
  /-- What is inserted is held then. -/
  held : ∀ r, A r → M r
  /-- Cutting. -/
  part : ∀ p r : Range, p.Within r → p.weight = r.weight → A r → A p
  /-- Merging: what is put beside the receiver, -/
  beside : ∀ n r : Range, n.WF → r.WF → A n → M r → ∀ o ∈ (Range.meet f n r).1, M o
  /-- the receiver, -/
  receiver : ∀ n r : Range, n.WF → r.WF → A n → M r → A (Range.meet f n r).2
  /-- and what is put beside it when both ranges are to be inserted. -/
  both : ∀ n r : Range, n.WF → r.WF → A n → A r → ∀ o ∈ (Range.meet f n r).1, A o
  /-- Merging a range with itself. -/
  again : ∀ r, A r → A (doubled f r)

/-- A set whose ranges have the property `M`. -/
structure Holding (M : Range → Prop) (h : Store Range) (rs : List ℕ) : Prop where
  /-- The ranges are allocated. -/
  live : ∀ o ∈ rs, o < h.next
  /-- No range is held twice. -/
  nodup : rs.Nodup
  /-- They have the property. -/
  held : ∀ o ∈ rs, M (h.obj o)

/-- What inserting ranges with the property `A` keeps. -/
structure Carried (A M : Range → Prop) (h : Store Range) (rs : List ℕ) (h' : Store Range) (rs' : List ℕ) : Prop where
  /-- References are never taken back. -/
  next_le : h.next ≤ h'.next
  /-- Every range is well formed. -/
  wf : Range.AllWF h'
  /-- The ranges of the set have the property `M`. -/
  holding : Holding M h' rs'
  /-- A range that has the property `A` keeps it. -/
  keep : ∀ o < h.next, A (h.obj o) → A (h'.obj o)
  /-- The density is the same where no range with the property `A` is. -/
  dens : ∀ x, (∀ r, A r → r.rho x = 0) → Range.rhoAt h' rs' x = Range.rhoAt h rs x

theorem Carried.trans {h h₁ h' : Store Range} {rs rs₁ rs' : List ℕ} (h₁₁ : Carried A M h rs h₁ rs₁)
    (h₁₂ : Carried A M h₁ rs₁ h' rs') : Carried A M h rs h' rs' :=
  ⟨h₁₁.next_le.trans h₁₂.next_le, h₁₂.wf, h₁₂.holding,
    fun o ho hA => h₁₂.keep o (ho.trans_le h₁₁.next_le) (h₁₁.keep o ho hA),
    fun x hx => (h₁₂.dens x hx).trans (h₁₁.dens x hx)⟩

/-- Ranges with the property `A`, to be inserted. -/
def Pending (A : Range → Prop) (h : Store Range) (ps : List ℕ) : Prop := ∀ p ∈ ps, p < h.next ∧ A (h.obj p)

theorem Carried.pending {h h' : Store Range} {rs rs' ps : List ℕ} (hc : Carried A M h rs h' rs') (hp : Pending A h ps) :
    Pending A h' ps :=
  fun p hm => ⟨(hp p hm).1.trans_le hc.next_le, hc.keep p (hp p hm).1 (hp p hm).2⟩

/-- Densities at `x` are read through the ranges that reach `x`. -/
theorem rhoAt_congr_rho {h h' : Store Range} {rs : List ℕ} {x : ℤ} (ho : ∀ o ∈ rs, (h'.obj o).rho x = (h.obj o).rho x) :
    Range.rhoAt h' rs x = Range.rhoAt h rs x := by
  unfold Range.rhoAt
  rw [List.map_congr_left ho]

/-- One range changes, and has the property `A` before and after. -/
theorem carried_of_agrees (hst : Stable f A M) {h h' : Store Range} {rs : List ℕ} {new : ℕ} (hs : Holding M h rs)
    (hag : h.Agrees h' fun o => o = new) (hwf : Range.AllWF h') (hA : A (h.obj new)) (hA' : A (h'.obj new)) :
    Carried A M h rs h' rs := by
  have hsame : ∀ o < h.next, h'.obj o = h.obj o ∨ o = new := fun o ho => by
    by_cases e : o = new
    · exact .inr e
    · exact .inl (hag.obj_eq o ho e)
  refine ⟨hag.next_le, hwf, ⟨fun o ho => (hs.live o ho).trans_le hag.next_le, hs.nodup, fun o ho => ?_⟩, fun o ho h1 => ?_,
    fun x hx => rhoAt_congr_rho fun o ho => ?_⟩
  · rcases hsame o (hs.live o ho) with e | rfl
    · exact e ▸ hs.held o ho
    · exact hst.held _ hA'
  · rcases hsame o ho with e | rfl
    · exact e ▸ h1
    · exact hA'
  · rcases hsame o (hs.live o ho) with e | rfl
    · rw [e]
    · rw [hx _ hA, hx _ hA']

/-! ### Cutting -/

/-- The pieces are parts of the range. -/
theorem Cut.part {h h' : Store Range} {rs d w : List ℕ} {new : ℕ} (hn : new < h.next) (hc : Cut h rs new h' d w) :
    ∀ o ∈ new :: (d ++ w), (h'.obj o).Within (h.obj new) ∧ (h'.obj o).weight = (h.obj new).weight := by
  have hnn : h.next ≠ new := Nat.ne_of_gt hn
  have hnn' : h.next + 1 ≠ new := by omega
  have hself : (h.obj new).Within (h.obj new) := ⟨le_rfl, le_rfl⟩
  cases hc with
  | gap hd => simp [hself]
  | within r hr hin => simp [hself]
  | head r hr hs hm he =>
    simp [Store.obj_set_of_ne _ _ hnn, Range.Within]
    omega
  | tail r hr hs hm he =>
    simp [Store.obj_set_of_ne _ _ hnn, Range.Within]
    omega
  | middle r hr hs hm he =>
    have hmid : ∀ v t : Range, ((h.alloc v).1.alloc t).1.obj h.next = v := fun v t => by
      rw [Store.obj_alloc_of_lt _ _ (Nat.lt_succ_self _), Store.obj_alloc_next]
    have hlast : ∀ v t : Range, ((h.alloc v).1.alloc t).1.obj (h.next + 1) = t := fun v t =>
      Store.obj_alloc_next (h.alloc v).1 t
    simp [Store.obj_set_of_ne _ _ hnn, Store.obj_set_of_ne _ _ hnn', hmid, hlast, Range.Within]
    omega

theorem decompose_range2_carried (hst : Stable f A M) {h : Store Range} (hwf : Range.AllWF h) {rs : List ℕ}
    (hs : Holding M h rs) {new : ℕ} (hn : new < h.next) (hA : A (h.obj new)) :
    ∃ h' d w, decompose_range2 h new rs = .ok (h', d, w) ∧ Carried A M h rs h' rs ∧ Pending A h' (d ++ w) := by
  obtain ⟨h', d, w, hrun, hcut, -⟩ := decompose_range2_cut hwf hn hs.live
  have hsplit := hcut.split hwf hn hs.live
  have hpart : ∀ o ∈ new :: (d ++ w), A (h'.obj o) := fun o ho => by
    obtain ⟨h1, h2⟩ := hcut.part hn o ho
    exact hst.part _ _ h1 h2 hA
  exact ⟨h', d, w, hrun, carried_of_agrees hst hs hsplit.agrees hsplit.wf hA (hpart new List.mem_cons_self),
    fun p hp => ⟨hsplit.live p hp, hpart p (List.mem_cons_of_mem _ hp)⟩⟩

theorem decompose_round_carried (hst : Stable f A M) {h : Store Range} (hwf : Range.AllWF h) {rs ws : List ℕ}
    (hs : Holding M h rs) (hw : Pending A h ws) :
    ∃ h' d w, decompose_round rs h ws = .ok (h', d, w) ∧ Carried A M h rs h' rs ∧ Pending A h' (d ++ w) := by
  induction ws generalizing h with
  | nil => exact ⟨h, [], [], rfl, ⟨le_rfl, hwf, hs, fun _ _ hA => hA, fun _ _ => rfl⟩, by simp [Pending]⟩
  | cons n ws ih =>
    obtain ⟨hn, hA⟩ := hw n List.mem_cons_self
    obtain ⟨h₁, d₁, w₁, hrun₁, hc₁, hp₁⟩ := decompose_range2_carried hst hwf hs hn hA
    obtain ⟨h', d₂, w₂, hrun₂, hc₂, hp₂⟩ :=
      ih hc₁.wf hc₁.holding (hc₁.pending fun p hp => hw p (List.mem_cons_of_mem _ hp))
    refine ⟨h', d₁ ++ d₂, w₁ ++ w₂, ?_, hc₁.trans hc₂, fun p hp => ?_⟩
    · rw [decompose_round, hrun₁]
      simp only [ok_bind, hrun₂]
      rfl
    · have hm : p ∈ d₁ ++ w₁ ∨ p ∈ d₂ ++ w₂ := by
        simp only [List.mem_append] at hp ⊢
        tauto
      exact hm.elim (hc₂.pending hp₁ p) (hp₂ p)

theorem decompose_rounds_carried (hst : Stable f A M) (n : ℕ) {h : Store Range} (hwf : Range.AllWF h) {rs : List ℕ}
    (ds ws : List ℕ) (hs : Holding M h rs) (hp : Pending A h (ds ++ ws)) :
    ∃ h' ps, decompose_rounds rs n h ds ws = .ok (h', ps) ∧ Carried A M h rs h' rs ∧ Pending A h' ps := by
  induction n generalizing h ds ws with
  | zero => exact ⟨h, ds ++ ws, rfl, ⟨le_rfl, hwf, hs, fun _ _ hA => hA, fun _ _ => rfl⟩, hp⟩
  | succ n ih =>
    obtain ⟨h₁, d, w, hrun, hc, hp₁⟩ := decompose_round_carried hst hwf hs fun p hw => hp p (List.mem_append_right _ hw)
    have hold := hc.pending hp
    have hnew : Pending A h₁ (ds ++ d ++ w) := fun p hm => by
      rw [List.append_assoc] at hm
      exact (List.mem_append.mp hm).elim (fun e => hold p (List.mem_append_left _ e)) (hp₁ p)
    rw [decompose_rounds, hrun]
    simp only [ok_bind]
    split_ifs
    · refine ⟨h₁, ds ++ d ++ ws, rfl, hc, fun p hm => ?_⟩
      rcases List.mem_append.mp hm with hm | hm
      · exact hnew p (List.mem_append_left _ hm)
      · exact hold p (List.mem_append_right _ hm)
    · obtain ⟨h', ps, hrun', hc', hp'⟩ := ih hc.wf _ _ hc.holding hnew
      exact ⟨h', ps, hrun', hc.trans hc', hp'⟩

/-! ### Merging -/

/-- `__op` keeps what is stable. -/
theorem op_stable (hst : Stable f A M) (hf : Range.Merge f) {h : Store Range} (hwf : Range.AllWF h) {new r : ℕ}
    (hn : new < h.next) (hr : r < h.next) (hA : A (h.obj new)) (hM : M (h.obj r)) :
    ∃ h' xs, Range.op f h new r = .ok (h', xs) ∧ Range.OpSpec f h new r h' xs ∧ A (h'.obj new) ∧
      (∀ o ∈ xs.filter (· ≠ new), M (h'.obj o)) ∧ (A (h.obj r) → A (h'.obj r)) := by
  by_cases hne : new = r
  · -- the range meets itself
    subst hne
    obtain ⟨h', xs, hop, hspec⟩ := Range.op_spec hf hwf hn hn
    obtain ⟨rfl, rfl⟩ := Prod.mk.inj (Except.ok.inj (hop.symm.trans (Range.op_self h new)))
    have hA' : A ((h.set new (doubled f (h.obj new))).obj new) := by
      rw [Store.obj_set_self]
      exact hst.again _ hA
    exact ⟨_, _, hop, hspec, hA', by simp, fun _ => hA'⟩
  · obtain ⟨h', xs, hop, hspec, hys, hnew, hrest⟩ := Range.op_meet hf hwf hn hr hne
    have hmem : ∀ o ∈ xs.filter (· ≠ new), h'.obj o ∈ (Range.meet f (h.obj new) (h.obj r)).1 := fun o ho =>
      hys ▸ List.mem_map_of_mem ho
    refine ⟨h', xs, hop, hspec, ?_, fun o ho => ?_, fun hAr => ?_⟩
    · rw [hnew]
      exact hst.receiver _ _ (hwf new hn) (hwf r hr) hA hM
    · exact hst.beside _ _ (hwf new hn) (hwf r hr) hA hM _ (hmem o ho)
    · rcases hrest with hr' | hr'
      · exact hst.both _ _ (hwf new hn) (hwf r hr) hA hAr _ (hmem r (List.mem_filter.mpr ⟨hr', by simpa using Ne.symm hne⟩))
      · rw [hr']
        exact hAr

/-- One merge of the loop. -/
theorem op_carried (hst : Stable f A M) (hf : Range.Merge f) {h : Store Range} (hwf : Range.AllWF h) {acc rs : List ℕ}
    {new r : ℕ} (hn : new < h.next) (hA : A (h.obj new)) (hs : Holding M h (acc ++ r :: rs)) :
    ∃ h' xs, Range.op f h new r = .ok (h', xs) ∧
      Carried A M h (acc ++ r :: rs) h' (acc ++ xs.filter (· ≠ new) ++ rs) := by
  have hrm : r ∈ acc ++ r :: rs := by simp
  have hrn := hs.live r hrm
  obtain ⟨h', xs, hop, hspec, hA', hM', hAr⟩ := op_stable hst hf hwf hn hrn hA (hs.held r hrm)
  have hm := merged_of_opSpec hspec
  have hrep := hm.replaced hs.live hs.nodup
  -- the others are as they were, but for the receiver
  have hsame : ∀ q ∈ acc ++ rs, h'.obj q = h.obj q ∨ q = new := fun q hq => by
    by_cases e : q = new
    · exact .inr e
    · exact .inl (hrep.keep q hq e)
  refine ⟨h', xs, hop, hspec.agrees.next_le, hspec.wf, ⟨hrep.live, hrep.nodup, fun o ho => ?_⟩, fun o ho hAo => ?_,
    fun x hx => ?_⟩
  · rcases List.mem_append.mp (hrep.perm.mem_iff.mp ho) with ho | ho
    · exact hM' o ho
    · rcases hsame o ho with e | rfl
      · exact e ▸ hs.held o (hrep.other o ho).1
      · exact hst.held _ hA'
  · by_cases e : o = new
    · exact e ▸ hA'
    · by_cases e' : o = r
      · exact e' ▸ hAr (e' ▸ hAo)
      · rw [hspec.agrees.obj_eq o ho (not_or.mpr ⟨e, e'⟩)]
        exact hAo
  · have hmid : (acc ++ r :: rs).Perm (r :: (acc ++ rs)) := List.perm_middle
    have hd := hm.dens x
    rw [hx _ hA, hx _ hA', zero_add, hf.zero_left (Range.rho_nonneg (hwf r hrn) x)] at hd
    rw [Range.rhoAt_perm hrep.perm, Range.rhoAt_append, hd, Range.rhoAt_perm hmid, Range.rhoAt_cons,
      rhoAt_congr_rho fun q hq => ?_]
    rcases hsame q hq with e | rfl
    · rw [e]
    · rw [hx _ hA, hx _ hA']

theorem add_with2_loop_carried (hst : Stable f A M) (hf : Range.Merge f) {h : Store Range} (hwf : Range.AllWF h) {new : ℕ}
    (hn : new < h.next) (hA : A (h.obj new)) {rs : List ℕ} (acc : List ℕ) (hs : Holding M h (acc ++ rs)) (hacc : new ∉ acc) :
    ∃ h' rs', add_with2_loop (Range.op f) new h rs acc = .ok (h', rs') ∧ Carried A M h (acc ++ rs) h' rs' := by
  induction rs generalizing h acc with
  | nil =>
    rw [List.append_nil] at hs ⊢
    refine ⟨h, acc ++ [new], rfl, le_rfl, hwf, ⟨?_, hs.nodup.append (by simp) (by simpa using hacc), ?_⟩,
      fun _ _ hA => hA, fun x hx => ?_⟩
    · simpa [or_imp, forall_and, hn] using hs.live
    · simpa [or_imp, forall_and, hst.held _ hA] using hs.held
    · rw [Range.rhoAt_append, Range.rhoAt_cons, Range.rhoAt_nil, hx _ hA, add_zero, add_zero]
  | cons r rs ih =>
    obtain ⟨h₁, xs, hop, hc⟩ := op_carried hst hf hwf hn hA hs
    obtain ⟨h', rs', hrun, hc'⟩ := ih hc.wf (hn.trans_le hc.next_le) (hc.keep new hn hA) (acc ++ xs.filter (· ≠ new))
      hc.holding (by simp [hacc])
    refine ⟨h', rs', ?_, hc.trans hc'⟩
    rw [add_with2_loop, hop]
    exact hrun

theorem add_pieces_carried (hst : Stable f A M) (hf : Range.Merge f) {h : Store Range} (hwf : Range.AllWF h) {rs ps : List ℕ}
    (hs : Holding M h rs) (hp : Pending A h ps) :
    ∃ h' rs', add_pieces (Range.op f) h rs ps = .ok (h', rs') ∧ Carried A M h rs h' rs' := by
  induction ps generalizing h rs with
  | nil => exact ⟨h, rs, rfl, le_rfl, hwf, hs, fun _ _ hA => hA, fun _ _ => rfl⟩
  | cons p ps ih =>
    obtain ⟨hn, hA⟩ := hp p List.mem_cons_self
    obtain ⟨h₁, rs₁, hrun₁, hc₁⟩ := add_with2_loop_carried hst hf hwf hn hA [] hs List.not_mem_nil
    obtain ⟨h', rs', hrun, hc⟩ := ih hc₁.wf hc₁.holding (hc₁.pending fun q hq => hp q (List.mem_cons_of_mem _ hq))
    refine ⟨h', rs', ?_, hc₁.trans hc⟩
    rw [add_pieces, add_with2, hrun₁]
    exact hrun

/-- **An insertion** keeps what is stable, into any set. -/
theorem add_with_carried (hst : Stable f A M) (hf : Range.Merge f) {h : Store Range} (hwf : Range.AllWF h) {rs : List ℕ}
    (hs : Holding M h rs) {new : ℕ} (hn : new < h.next) (hA : A (h.obj new)) :
    ∃ h' rs', add_with (Range.op f) h rs new = .ok (h', rs') ∧ Carried A M h rs h' rs' := by
  obtain ⟨h₁, ps, hrun₁, hc₁, hp⟩ := decompose_rounds_carried hst 30 hwf [] [new] hs (by simp [Pending, hn, hA])
  obtain ⟨h', rs', hrun, hc⟩ := add_pieces_carried hst hf hc₁.wf hc₁.holding hp
  refine ⟨h', rs', ?_, hc₁.trans hc⟩
  rw [add_with, decompose_range, hrun₁]
  exact hrun

/-- **Any number of insertions.** -/
theorem add_all_carried (hst : Stable f A M) (hf : Range.Merge f) {h : Store Range} (hwf : Range.AllWF h) {rs xs : List ℕ}
    (hs : Holding M h rs) (hx : Pending A h xs) :
    ∃ h' rs', add_all (Range.op f) h rs xs = .ok (h', rs') ∧ Carried A M h rs h' rs' := by
  induction xs generalizing h rs with
  | nil => exact ⟨h, rs, rfl, le_rfl, hwf, hs, fun _ _ hA => hA, fun _ _ => rfl⟩
  | cons x xs ih =>
    obtain ⟨hn, hA⟩ := hx x List.mem_cons_self
    obtain ⟨h₁, rs₁, hrun₁, hc₁⟩ := add_with_carried hst hf hwf hs hn hA
    obtain ⟨h', rs', hrun, hc⟩ := ih hc₁.wf hc₁.holding (hc₁.pending fun q hq => hx q (List.mem_cons_of_mem _ hq))
    refine ⟨h', rs', ?_, hc₁.trans hc⟩
    rw [add_all, hrun₁]
    exact hrun

/-! ### Two properties -/

/-- The weight is positive. -/
def Positive (r : Range) : Prop := 0 < r.weight

theorem stable_weight : Stable max Positive Positive where
  held r hr := hr
  part p r _ hw hr := by
    rw [Positive, hw]
    exact hr
  beside n r _ _ hn hr := (Range.meet_weight (P := (0 < ·)) hn hr (lt_max_of_lt_left hn)).1
  receiver n r _ _ hn hr := (Range.meet_weight (P := (0 < ·)) hn hr (lt_max_of_lt_left hn)).2
  both n r _ _ hn hr := (Range.meet_weight (P := (0 < ·)) hn hr (lt_max_of_lt_left hn)).1
  again r hr := by
    rw [Positive, doubled]
    exact lt_max_of_lt_left hr

variable {L x : ℤ}

/-- The range ends before `L` or begins after `x`. -/
def Aside (L x : ℤ) (r : Range) : Prop := r.stop < L ∨ x < r.start

/-- The range does not go on from before `L` to `L`. -/
def Whole (L : ℤ) (r : Range) : Prop := r.stop < L ∨ L ≤ r.start

theorem Aside.rho_eq_zero {r : Range} (hr : Aside L x r) (hL : L ≤ x) : r.rho x = 0 :=
  box_of_not_mem fun h => by
    rcases hr with h1 | h1 <;> omega

theorem stable_aside (hL : L ≤ x) : Stable f (Aside L x) (Whole L) where
  held r hr := hr.imp_right fun h => by omega
  part p r hin _ hr := hr.imp hin.2.trans_lt fun h => h.trans_le hin.1
  beside n r hn hr hA hM o ho := by
    have h1 := hn.sane
    have h2 := hr.sane
    unfold Range.meet at ho
    unfold Aside at hA
    unfold Whole at hM ⊢
    split_ifs at ho <;> simp only [Range.overlap, List.mem_cons, List.not_mem_nil, or_false] at ho <;>
      rcases ho with rfl | rfl <;> simp only [Range.Disjoint, Range.Within] at * <;> omega
  receiver n r hn hr hA hM := by
    have h1 := hn.sane
    have h2 := hr.sane
    unfold Aside at hA
    unfold Whole at hM
    unfold Range.meet
    unfold Aside
    split_ifs <;> simp only [Range.overlap, Range.Disjoint, Range.Within] at * <;> omega
  both n r hn hr hA hA' o ho := by
    have h1 := hn.sane
    have h2 := hr.sane
    unfold Range.meet at ho
    unfold Aside at hA hA' ⊢
    split_ifs at ho <;> simp only [Range.overlap, List.mem_cons, List.not_mem_nil, or_false] at ho <;>
      rcases ho with rfl | rfl <;> simp only [Range.Disjoint, Range.Within] at * <;> omega
  again r hr := hr

end RangeSet

end SEDiff.Juxta
