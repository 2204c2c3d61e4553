import SEDiff.Juxta.Decompose

/-!
# Inserting a range

`__add_with` cuts the new range against the set and inserts the pieces.

## What is proved

* `RangeSet.add_with_settled` — when every piece is settled after thirty rounds, the set is a
  set of pairwise disjoint ranges again and the densities are combined pointwise, except that
  the weights of the pieces of the last round are combined with themselves once more.
* `RangeSet.settles_of_overlapping_le` — so it is for a range that overlaps at most thirty stored ranges.
* `RangeSet.add_with_total` — an insertion never fails, whatever the set and whatever objects
  it shares with the new range.
* `RangeSet.add_with_givesUp` — when the cutting gives up, `add` still adds the densities.
-/

namespace SEDiff.Juxta

open Foundation

namespace RangeSet

variable {f : ℚ → ℚ → ℚ}

/-! ### What an insertion touches -/

/-- Inserting `xs` into `rs` touches nothing else. -/
structure Touches (h : Store Range) (rs xs : List ℕ) (h' : Store Range) (rs' : List ℕ) : Prop where
  /-- Only the new ranges and the stored ranges change. -/
  agrees : h.Agrees h' fun o => o ∈ xs ∨ o ∈ rs
  /-- The set holds new ranges, ranges it held before, and fresh ones. -/
  refs : ∀ o ∈ rs', o ∈ xs ∨ o ∈ rs ∨ h.next ≤ o

theorem Touches.nil (h : Store Range) (rs : List ℕ) : Touches h rs [] h rs :=
  ⟨.refl _ _, by simp +contextual⟩

/-- One insertion, then the others. -/
theorem Touches.cons {h h₁ h' : Store Range} {rs rs₁ rs' xs : List ℕ} {x : ℕ}
    (hx : Touches h rs [x] h₁ rs₁) (hxs : Touches h₁ rs₁ xs h' rs') : Touches h rs (x :: xs) h' rs' := by
  have hmem : ∀ o, o ∈ [x] → o ∈ x :: xs := fun o ho => List.mem_singleton.mp ho ▸ List.mem_cons_self
  constructor
  · refine Store.Agrees.trans (hx.agrees.mono fun o => Or.imp_left (hmem o)) hxs.agrees fun o ho e => ?_
    rcases e with e | e
    · exact .inl (List.mem_cons_of_mem _ e)
    · rcases hx.refs o e with e | e | e
      · exact .inl (hmem o e)
      · exact .inr e
      · omega
  · intro o ho
    rcases hxs.refs o ho with e | e | e
    · exact .inl (List.mem_cons_of_mem _ e)
    · exact (hx.refs o e).imp_left (hmem o)
    · exact .inr (.inr (hx.agrees.next_le.trans e))

/-- Ranges to be inserted into a set: each its own object, none held by the set. -/
structure Args (h : Store Range) (rs xs : List ℕ) : Prop where
  /-- The ranges are allocated. -/
  live : ∀ x ∈ xs, x < h.next
  /-- No range is listed twice. -/
  nodup : xs.Nodup
  /-- No range is held by the set. -/
  fresh : ∀ x ∈ xs, x ∉ rs

/-- The ranges still to be inserted after the first. -/
theorem Args.tail {h h' : Store Range} {rs rs' xs : List ℕ} {x : ℕ} (hx : Args h rs (x :: xs))
    (ht : Touches h rs [x] h' rs') : Args h' rs' xs ∧ ∀ y ∈ xs, h'.obj y = h.obj y := by
  obtain ⟨hxs, hnd⟩ := List.nodup_cons.mp hx.nodup
  have hy : ∀ y ∈ xs, y < h.next ∧ y ∉ [x] ∧ y ∉ rs := fun y hy =>
    ⟨hx.live y (List.mem_cons_of_mem _ hy), fun e => hxs (List.mem_singleton.mp e ▸ hy),
      hx.fresh y (List.mem_cons_of_mem _ hy)⟩
  refine ⟨⟨fun y hm => (hy y hm).1.trans_le ht.agrees.next_le, hnd, fun y hm hr => ?_⟩, fun y hm => ?_⟩
  · obtain ⟨h1, h2, h3⟩ := hy y hm
    rcases ht.refs y hr with e | e | e
    · exact h2 e
    · exact h3 e
    · omega
  · obtain ⟨h1, h2, h3⟩ := hy y hm
    exact ht.agrees.obj_eq y h1 (not_or.mpr ⟨h2, h3⟩)

/-! ### Every piece settled -/

/-- After thirty rounds nothing is left that a range of the set overlaps in part. -/
def Settles (rs : List Range) (N : Range) : Prop :=
  ∀ p ∈ frontier rs 30 [N], ∀ r ∈ rs, p.Disjoint r ∨ p.Within r

instance (rs : List Range) (N : Range) : Decidable (Settles rs N) :=
  inferInstanceAs (Decidable (∀ p ∈ _, ∀ r ∈ _, _ ∨ _))

/-- When the cutting comes to an end, everything is settled. -/
theorem settles_of_not_givesUp {rs : List Range} {N : Range} (hg : ¬ GivesUp rs N) : Settles rs N := by
  intro p hp
  have hnil : frontier rs 30 [N] = [] := not_not.mp hg
  rw [hnil] at hp
  exact absurd hp List.not_mem_nil

/-- How many ranges of `rs` overlap `p`. -/
def overlapping (rs : List Range) (p : Range) : ℕ := rs.countP fun r => ¬ p.Disjoint r

/-- What is left of `p` avoids a range that overlapped it. -/
theorem leftovers_disjoint {rs : List Range} {p q : Range} (hq : q ∈ leftovers rs p) :
    q.Within p ∧ ∃ r ∈ rs, ¬ p.Disjoint r ∧ q.Disjoint r := by
  induction rs with
  | nil => exact absurd hq List.not_mem_nil
  | cons r rs ih =>
    rw [leftovers] at hq
    by_cases hgt : max r.start p.start > min r.stop p.stop
    · obtain ⟨hin, s, hs, hover⟩ := ih (by simpa [hgt] using hq)
      exact ⟨hin, s, List.mem_cons_of_mem _ hs, hover⟩
    · have hover : ¬ p.Disjoint r := by
        rintro (h1 | h1) <;> omega
      simp only [if_neg hgt] at hq
      suffices h1 : q.Within p ∧ q.Disjoint r from ⟨h1.1, r, List.mem_cons_self, hover, h1.2⟩
      unfold Range.Within Range.Disjoint
      split_ifs at hq with h1 h2 h3
      · exact absurd hq List.not_mem_nil
      · rw [List.mem_singleton.mp hq]
        simp only
        omega
      · rw [List.mem_singleton.mp hq]
        simp only
        omega
      · rcases List.mem_cons.mp hq with e | hq
        · rw [e]
          simp only
          omega
        · rw [List.mem_singleton.mp hq]
          simp only
          omega

/-- Each cut leaves fewer overlaps. -/
theorem overlapping_lt {rs : List Range} {p q : Range} (hq : q ∈ leftovers rs p) :
    overlapping rs q < overlapping rs p := by
  obtain ⟨hin, r, hr, hp, hqr⟩ := leftovers_disjoint hq
  have hmono : ∀ ss : List Range, overlapping ss q ≤ overlapping ss p := fun ss =>
    List.countP_mono_left fun s _ hs => by
      simp only [decide_eq_true_eq] at hs ⊢
      exact fun hd => hs (disjoint_mono_left hd hin)
  obtain ⟨l₁, l₂, rfl⟩ := List.append_of_mem hr
  have h1 := hmono l₁
  have h2 := hmono l₂
  unfold overlapping at h1 h2 ⊢
  rw [List.countP_append, List.countP_append, List.countP_cons_of_neg (by simpa using hqr),
    List.countP_cons_of_pos (by simpa using hp)]
  omega

/-- Every round takes one overlap away. -/
theorem overlapping_frontier {rs : List Range} (k : ℕ) {ps : List Range} {q : Range}
    (hq : q ∈ frontier rs k ps) : ∃ p ∈ ps, overlapping rs q + k ≤ overlapping rs p := by
  induction k generalizing ps with
  | zero => exact ⟨q, hq, le_rfl⟩
  | succ k ih =>
    obtain ⟨p', hp', hle⟩ := ih hq
    obtain ⟨p, hp, hm⟩ := List.mem_flatMap.mp hp'
    have hlt := overlapping_lt hm
    exact ⟨p, hp, by omega⟩

/-- A range that overlaps at most thirty stored ranges settles. -/
theorem settles_of_overlapping_le {rs : List Range} {N : Range} (hle : overlapping rs N ≤ 30) :
    Settles rs N := by
  intro q hq r hr
  obtain ⟨p, hp, hk⟩ := overlapping_frontier 30 hq
  rw [List.mem_singleton.mp hp] at hk
  have h0 : overlapping rs q = 0 := by omega
  have := List.countP_eq_zero.mp h0 r hr
  exact .inl (by simpa using this)

theorem add_pieces_append (op : Op) (h : Store Range) (rs ps qs : List ℕ) :
    add_pieces op h rs (ps ++ qs) =
      (do let (h, rs) ← add_pieces op h rs ps; add_pieces op h rs qs) := by
  induction ps generalizing h rs with
  | nil => rfl
  | cons p ps ih =>
    rw [List.cons_append, add_pieces, add_pieces]
    cases hp : add_with2 op h rs p with
    | error e => rfl
    | ok y => exact ih y.1 y.2

/-- What inserting a range that settles does to a set of pairwise disjoint ranges; `w` are the
pieces of the last round and `h₁` is the store before they are inserted a second time. -/
structure AddedWith (f : ℚ → ℚ → ℚ) (h : Store Range) (rs : List ℕ) (new : ℕ) (h' : Store Range)
    (rs' : List ℕ) (h₁ : Store Range) (w : List ℕ) : Prop where
  /-- Nothing else is touched. -/
  touches : Touches h rs [new] h' rs'
  /-- Of the stored ranges, only those that overlap the new one change. -/
  near : h.Agrees h' fun o => o = new ∨ o ∈ rs ∧ ¬ (h.obj new).Disjoint (h.obj o)
  /-- Every range is well formed again. -/
  wf : Range.AllWF h'
  /-- The set is a set of pairwise disjoint ranges again. -/
  set : SetWF h' rs'
  /-- The densities are combined, and those of the last pieces are combined again. -/
  dens : ∀ x, Range.rhoAt h' rs' x = f (Range.rhoAt h rs x) ((h.obj new).rho x) +
    (Range.rhoAt h' w x - Range.rhoAt h₁ w x)
  /-- The last pieces, before and after. -/
  again : ∀ p ∈ w, (h₁.obj p).WF ∧ h'.obj p = doubled f (h₁.obj p)
  /-- Which pieces are inserted a second time. -/
  last : (GivesUp (rs.map h.obj) (h.obj new) ∧ w = []) ∨
    ∃ vs, LastRound (rs.map h.obj) (h.obj new) vs ∧
      List.Forall₂ (fun v p => v.start ≤ v.stop ∧ Stored f h rs v (h₁.obj p)) vs w

/-- **Inserting a range that settles.** -/
theorem add_with_settled (hf : Range.Merge f) {h : Store Range} (hwf : Range.AllWF h) {rs : List ℕ}
    (hs : SetWF h rs) {new : ℕ} (hn : new < h.next) (hnew : new ∉ rs)
    (hset : Settles (rs.map h.obj) (h.obj new)) :
    ∃ h' rs' h₁ w, add_with (Range.op f) h rs new = .ok (h', rs') ∧
      AddedWith f h rs new h' rs' h₁ w := by
  obtain ⟨h₀, d, w, hd, hout⟩ := decompose_range_spec hwf hs.live hn hnew
  have hrs : ∀ r ∈ rs, h₀.obj r = h.obj r := fun r hr =>
    hd.agrees.obj_eq r (hs.live r hr) fun e => hnew (List.mem_singleton.mp e ▸ hr)
  have hs₀ := hs.congr hd.agrees.next_le hrs
  have hw : ∀ p ∈ w, Settled h₀ rs (h₀.obj p) := by
    rcases hout with ⟨-, -, h1⟩ | ⟨-, -, h1⟩
    · exact h1 hs
    · intro p hp r hr
      rw [hrs r hr]
      exact hset _ (h1 ▸ List.mem_map_of_mem hp) _ (List.mem_map_of_mem hr)
  have hp : Pieces h₀ rs (d ++ w) := by
    refine ⟨hd.fragments hs, fun p hp => ?_⟩
    rcases List.mem_append.mp hp with hp | hp
    · exact hd.settled hs (by simp) p hp
    · exact hw p hp
  obtain ⟨h₁, rs₁, hrun₁, ha⟩ := add_pieces_settled hf hd.wf hs₀ hp
  have hnear : h.Agrees h₁ fun o => o = new ∨ o ∈ rs ∧ ¬ (h.obj new).Disjoint (h.obj o) := by
    refine Store.Agrees.trans (hd.agrees.mono fun o e => .inl (List.mem_singleton.mp e)) ha.agrees fun o ho e => ?_
    rcases e with e | ⟨e, p, hp, hover⟩
    · rcases hd.refs o e with e | e
      · exact .inl (List.mem_singleton.mp e)
      · omega
    · refine .inr ⟨e, fun hdis => hover ?_⟩
      rw [hrs o e]
      exact disjoint_mono_left hdis (hd.parts.within p hp)
  have ht₁ : Touches h rs [new] h₁ rs₁ := by
    constructor
    · refine Store.Agrees.trans (hd.agrees.mono fun o => .inl) ha.agrees fun o ho e => ?_
      rcases e with e | ⟨e, -⟩
      · rcases hd.refs o e with e | e
        · exact .inl e
        · omega
      · exact .inr e
    · intro o ho
      rcases ha.refs o ho with e | e | e
      · exact (hd.refs o e).imp_right .inr
      · exact .inr (.inl e)
      · exact .inr (.inr (hd.agrees.next_le.trans e))
  have hdens₁ : ∀ x, Range.rhoAt h₁ rs₁ x = f (Range.rhoAt h rs x) ((h.obj new).rho x) := fun x => by
    rw [ha.dens, Range.rhoAt_congr hrs, hd.parts.dens]
  have hstored : ∀ p ∈ w, Stored f h rs (h₀.obj p) (h₁.obj p) := by
    intro p hpw
    refine (ha.stored p (List.mem_append_right _ hpw)).imp ?_ ?_
    · rintro ⟨hgap, e⟩
      exact ⟨fun r hr => hrs r hr ▸ hgap r hr, e⟩
    · rintro ⟨r, hr, h1⟩
      exact ⟨r, hr, hrs r hr ▸ h1⟩
  rcases hout with ⟨hlast, hrun, -⟩ | ⟨hg, hrun, -⟩
  · -- the rounds come to an end: the last pieces are inserted again
    have hnd : w.Nodup := (List.nodup_append.mp hd.parts.nodup).2.1
    have hm : ∀ p ∈ w, p ∈ rs₁ := fun p hpw => ha.mem p (List.mem_append_right _ hpw)
    obtain ⟨h', rs', hrun', hdd⟩ := add_pieces_doubled hf ha.wf ha.set hnd hm
    refine ⟨h', rs', h₁, w, ?_, ⟨?_, fun o ho => ht₁.refs o (hdd.perm.mem_iff.mp ho)⟩, ?_, hdd.wf, hdd.set,
      fun x => ?_, fun p hpw => ⟨ha.wf p (ha.set.live p (hm p hpw)), hdd.obj p hpw⟩, .inr ⟨_, hlast, ?_⟩⟩
    · rw [add_with, hrun]
      simp only [ok_bind]
      rw [add_pieces_append, hrun₁]
      exact hrun'
    · refine Store.Agrees.trans ht₁.agrees hdd.agrees fun o ho e => ?_
      rcases hd.refs o (List.mem_append_right _ e) with e | e
      · exact .inl e
      · omega
    · refine Store.Agrees.trans hnear hdd.agrees fun o ho e => ?_
      rcases hd.refs o (List.mem_append_right _ e) with e | e
      · exact .inl (List.mem_singleton.mp e)
      · omega
    · rw [hdd.dens, hdens₁]
    · rw [List.forall₂_map_left_iff]
      exact List.forall₂_same.mpr fun p hpw =>
        ⟨(hd.wf p (hd.parts.live p (List.mem_append_right _ hpw))).sane, hstored p hpw⟩
  · -- the cutting gives up, but what is left is settled
    refine ⟨h₁, rs₁, h₁, [], ?_, ht₁, hnear, ha.wf, ha.set, fun x => ?_, by simp, .inl ⟨hg, rfl⟩⟩
    · rw [add_with, hrun]
      exact hrun₁
    · rw [hdens₁, Range.rhoAt_nil, sub_zero, add_zero]

/-! ### Before each insertion -/

/-- `P` holds of the set and the next range before each insertion of `add_all`. -/
def BeforeEach (op : Op) (P : List Range → Range → Prop) :
    Store Range → List ℕ → List ℕ → Prop
  | _, _, [] => True
  | h, rs, x :: xs => P (rs.map h.obj) (h.obj x) ∧
      match add_with op h rs x with
      | .ok (h', rs') => BeforeEach op P h' rs' xs
      | .error _ => True

theorem beforeEach_cons {op : Op} {P : List Range → Range → Prop} {h h' : Store Range}
    {rs rs' xs : List ℕ} {x : ℕ} (hrun : add_with op h rs x = .ok (h', rs')) :
    BeforeEach op P h rs (x :: xs) ↔ P (rs.map h.obj) (h.obj x) ∧ BeforeEach op P h' rs' xs := by
  rw [BeforeEach, hrun]

instance (op : Op) (P : List Range → Range → Prop) [∀ S N, Decidable (P S N)] :
    (h : Store Range) → (rs xs : List ℕ) → Decidable (BeforeEach op P h rs xs)
  | _, _, [] => inferInstanceAs (Decidable True)
  | h, rs, x :: xs =>
    match hrun : add_with op h rs x with
    | .ok (h', rs') =>
      have := instDecidableBeforeEach op P h' rs' xs
      decidable_of_iff _ (beforeEach_cons hrun).symm
    | .error _ => decidable_of_iff (P (rs.map h.obj) (h.obj x)) (by rw [BeforeEach, hrun, and_true])

/-! ### No insertion fails -/

/-- A later store whose ranges are well formed and in which the ranges of `rs` are allocated. -/
structure Sound (h h' : Store Range) (rs : List ℕ) : Prop where
  /-- References are never taken back. -/
  next_le : h.next ≤ h'.next
  /-- Every range is well formed. -/
  wf : Range.AllWF h'
  /-- The ranges of `rs` are allocated. -/
  live : ∀ o ∈ rs, o < h'.next

theorem Sound.trans {h h₁ h' : Store Range} {rs ss : List ℕ} (h₁₁ : Sound h h₁ rs) (h₁₂ : Sound h₁ h' ss) :
    Sound h h' ss :=
  ⟨h₁₁.next_le.trans h₁₂.next_le, h₁₂.wf, h₁₂.live⟩

theorem decompose_round_total {h : Store Range} (hwf : Range.AllWF h) {rs ws : List ℕ}
    (hl : ∀ r ∈ rs, r < h.next) (hw : ∀ p ∈ ws, p < h.next) :
    ∃ h' d w, decompose_round rs h ws = .ok (h', d, w) ∧ Sound h h' (d ++ w) := by
  induction ws generalizing h with
  | nil => exact ⟨h, [], [], rfl, le_rfl, hwf, by simp⟩
  | cons n ws ih =>
    have hn := hw n List.mem_cons_self
    obtain ⟨h₁, d₁, w₁, hrun₁, hcut, -⟩ := decompose_range2_cut hwf hn hl
    have hc := hcut.split hwf hn hl
    obtain ⟨h', d₂, w₂, hrun₂, hs⟩ := ih hc.wf (fun r hr => (hl r hr).trans_le hc.agrees.next_le)
      fun p hp => (hw p (List.mem_cons_of_mem _ hp)).trans_le hc.agrees.next_le
    refine ⟨h', d₁ ++ d₂, w₁ ++ w₂, ?_, hc.agrees.next_le.trans hs.next_le, hs.wf, fun o ho => ?_⟩
    · rw [decompose_round, hrun₁]
      simp only [ok_bind, hrun₂]
      rfl
    · have hm : o ∈ d₁ ++ w₁ ∨ o ∈ d₂ ++ w₂ := by
        simp only [List.mem_append] at ho ⊢
        tauto
      rcases hm with hm | hm
      · exact (hc.live o hm).trans_le hs.next_le
      · exact hs.live o hm

theorem decompose_rounds_total (n : ℕ) {h : Store Range} (hwf : Range.AllWF h) {rs : List ℕ}
    (ds ws : List ℕ) (hl : ∀ r ∈ rs, r < h.next) (hw : ∀ p ∈ ds ++ ws, p < h.next) :
    ∃ h' ps, decompose_rounds rs n h ds ws = .ok (h', ps) ∧ Sound h h' ps := by
  induction n generalizing h ds ws with
  | zero => exact ⟨h, ds ++ ws, rfl, le_rfl, hwf, hw⟩
  | succ n ih =>
    obtain ⟨h₁, d, w, hrun, hs⟩ :=
      decompose_round_total hwf hl fun p hp => hw p (List.mem_append_right _ hp)
    have hold : ∀ p ∈ ds ++ ws, p < h₁.next := fun p hp => (hw p hp).trans_le hs.next_le
    have hnew : ∀ p ∈ ds ++ d ++ w, p < h₁.next := by
      intro p hp
      rw [List.append_assoc] at hp
      rcases List.mem_append.mp hp with hp | hp
      · exact hold p (List.mem_append_left _ hp)
      · exact hs.live p hp
    rw [decompose_rounds, hrun]
    simp only [ok_bind]
    split_ifs
    · refine ⟨h₁, ds ++ d ++ ws, rfl, hs.next_le, hs.wf, fun p hp => ?_⟩
      rcases List.mem_append.mp hp with hp | hp
      · exact hnew p (List.mem_append_left _ hp)
      · exact hold p (List.mem_append_right _ hp)
    · obtain ⟨h', ps, hrun', hs'⟩ := ih hs.wf _ _ (fun r hr => (hl r hr).trans_le hs.next_le) hnew
      exact ⟨h', ps, hrun', hs.trans hs'⟩

theorem add_with2_loop_total (hf : Range.Merge f) {h : Store Range} (hwf : Range.AllWF h) {new : ℕ}
    (hn : new < h.next) {rs : List ℕ} (acc : List ℕ) (hl : ∀ r ∈ acc ++ rs, r < h.next) :
    ∃ h' rs', add_with2_loop (Range.op f) new h rs acc = .ok (h', rs') ∧ Sound h h' rs' := by
  induction rs generalizing h acc with
  | nil =>
    refine ⟨h, acc ++ [new], rfl, le_rfl, hwf, ?_⟩
    simpa [or_imp, forall_and, hn] using hl
  | cons r rs ih =>
    obtain ⟨h₁, xs, hop, hspec⟩ := Range.op_spec hf hwf hn (hl r (by simp))
    have hle := hspec.agrees.next_le
    obtain ⟨h', rs', hrun, hs⟩ := ih hspec.wf (hn.trans_le hle) (acc ++ xs.filter (· ≠ new))
      fun o ho => by
        rcases List.mem_append.mp ho with ho | ho
        · rcases List.mem_append.mp ho with ho | ho
          · exact (hl o (by simp [ho])).trans_le hle
          · exact hspec.live o (List.mem_filter.mp ho).1
        · exact (hl o (by simp [ho])).trans_le hle
    refine ⟨h', rs', ?_, hle.trans hs.next_le, hs.wf, hs.live⟩
    rw [add_with2_loop, hop]
    exact hrun

theorem add_pieces_total (hf : Range.Merge f) {h : Store Range} (hwf : Range.AllWF h) {rs ps : List ℕ}
    (hl : ∀ r ∈ rs, r < h.next) (hp : ∀ p ∈ ps, p < h.next) :
    ∃ h' rs', add_pieces (Range.op f) h rs ps = .ok (h', rs') ∧ Sound h h' rs' := by
  induction ps generalizing h rs with
  | nil => exact ⟨h, rs, rfl, le_rfl, hwf, hl⟩
  | cons p ps ih =>
    obtain ⟨h₁, rs₁, hrun₁, hs₁⟩ :=
      add_with2_loop_total hf hwf (hp p List.mem_cons_self) [] hl
    obtain ⟨h', rs', hrun, hs⟩ := ih hs₁.wf hs₁.live fun q hq =>
      (hp q (List.mem_cons_of_mem _ hq)).trans_le hs₁.next_le
    refine ⟨h', rs', ?_, hs₁.trans hs⟩
    rw [add_pieces, add_with2, hrun₁]
    exact hrun

/-- **An insertion never fails**, whatever the set, and also when the new range is shared. -/
theorem add_with_total (hf : Range.Merge f) {h : Store Range} (hwf : Range.AllWF h) {rs : List ℕ}
    (hl : ∀ r ∈ rs, r < h.next) {new : ℕ} (hn : new < h.next) :
    ∃ h' rs', add_with (Range.op f) h rs new = .ok (h', rs') ∧ Sound h h' rs' := by
  obtain ⟨h₁, ps, hrun₁, hs₁⟩ := decompose_rounds_total 30 hwf [] [new] hl (by simp [hn])
  obtain ⟨h', rs', hrun, hs⟩ :=
    add_pieces_total hf hs₁.wf (fun r hr => (hl r hr).trans_le hs₁.next_le) hs₁.live
  refine ⟨h', rs', ?_, hs₁.trans hs⟩
  rw [add_with, decompose_range, hrun₁]
  exact hrun

theorem add_all_total (hf : Range.Merge f) {h : Store Range} (hwf : Range.AllWF h) {rs xs : List ℕ}
    (hl : ∀ r ∈ rs, r < h.next) (hx : ∀ x ∈ xs, x < h.next) :
    ∃ h' rs', add_all (Range.op f) h rs xs = .ok (h', rs') ∧ Sound h h' rs' := by
  induction xs generalizing h rs with
  | nil => exact ⟨h, rs, rfl, le_rfl, hwf, hl⟩
  | cons x xs ih =>
    obtain ⟨h₁, rs₁, hrun₁, hs₁⟩ := add_with_total hf hwf hl (hx x List.mem_cons_self)
    obtain ⟨h', rs', hrun, hs⟩ := ih hs₁.wf hs₁.live fun q hq =>
      (hx q (List.mem_cons_of_mem _ hq)).trans_le hs₁.next_le
    refine ⟨h', rs', ?_, hs₁.trans hs⟩
    rw [add_all, hrun₁]
    exact hrun

/-! ### Adding densities to any set -/

/-- What adding ranges to a set does, whatever their positions. -/
structure Added (h : Store Range) (rs xs : List ℕ) (h' : Store Range) (rs' : List ℕ) : Prop where
  /-- Nothing else is touched. -/
  touches : Touches h rs xs h' rs'
  /-- Every range is well formed again. -/
  wf : Range.AllWF h'
  /-- The ranges of the set are allocated. -/
  live : ∀ o ∈ rs', o < h'.next
  /-- No range is held twice. -/
  nodup : rs'.Nodup
  /-- The densities are added. -/
  dens : ∀ x, Range.rhoAt h' rs' x = Range.rhoAt h rs x + Range.rhoAt h xs x

/-- One addition, then the others. -/
theorem Added.cons {h h₁ h' : Store Range} {rs rs₁ rs' xs : List ℕ} {y : ℕ}
    (hargs : Args h rs (y :: xs)) (hy : Added h rs [y] h₁ rs₁) (hxs : Added h₁ rs₁ xs h' rs') :
    Added h rs (y :: xs) h' rs' := by
  refine ⟨hy.touches.cons hxs.touches, hxs.wf, hxs.live, hxs.nodup, fun x => ?_⟩
  rw [hxs.dens, hy.dens, Range.rhoAt_congr (hargs.tail hy.touches).2, Range.rhoAt_cons, Range.rhoAt_cons,
    Range.rhoAt_nil]
  ring

theorem add_with2_loop_added {h : Store Range} (hwf : Range.AllWF h) {new : ℕ} (hn : new < h.next)
    {rs : List ℕ} (acc : List ℕ) (hl : ∀ r ∈ acc ++ rs, r < h.next) (hnd : (acc ++ rs).Nodup)
    (hnew : new ∉ acc ++ rs) :
    ∃ h' rs', add_with2_loop Range.intersection_assign new h rs acc = .ok (h', rs') ∧
      Added h (acc ++ rs) [new] h' rs' := by
  induction rs generalizing h acc with
  | nil =>
    refine ⟨h, acc ++ [new], rfl, ⟨.refl _ _, by simp; tauto⟩, hwf, ?_, ?_, fun x => by simp⟩
    · simpa [or_imp, forall_and, hn] using hl
    · rw [List.append_nil] at hnd hnew
      exact hnd.append (by simp) (by simpa using hnew)
  | cons r rs ih =>
    have hrn := hl r (by simp)
    have hne : new ≠ r := fun e => hnew (by simp [e])
    obtain ⟨h₁, xs, hop, hspec⟩ := Range.op_spec Range.merge_add_two hwf hn hrn
    have hle := hspec.agrees.next_le
    have hmid : (acc ++ r :: rs).Perm (r :: (acc ++ rs)) := List.perm_middle
    have hm := merged_of_opSpec hspec
    have hrep := hm.replaced hl hnd
    have hkeep : ∀ q ∈ acc ++ rs, h₁.obj q = h.obj q := fun q hq =>
      hrep.keep q hq fun e => hnew (e ▸ (hrep.other q hq).1)
    obtain ⟨h', rs', hrun, ha⟩ := ih hspec.wf (hn.trans_le hle) (acc ++ xs.filter (· ≠ new)) hrep.live hrep.nodup
      fun hmem => by
        rcases hrep.back new hmem with e | e
        · exact hnew e
        · omega
    refine ⟨h', rs', ?_, ⟨?_, fun o ho => ?_⟩, ha.wf, ha.live, ha.nodup, fun x => ?_⟩
    · have hop' : Range.intersection_assign h new r = .ok (h₁, xs) := hop
      rw [add_with2_loop, hop']
      exact hrun
    · refine Store.Agrees.trans (hspec.agrees.mono fun o e => ?_) ha.touches.agrees fun o ho e => ?_
      · exact e.imp (fun e => List.mem_singleton.mpr e) fun e : o = r =>
          hmid.mem_iff.mpr (e ▸ List.mem_cons_self)
      · refine e.imp_right fun e => (hrep.back o e).resolve_right ?_
        omega
    · rcases ha.touches.refs o ho with e | e | e
      · exact .inl e
      · exact .inr (hrep.back o e)
      · exact .inr (.inr (hle.trans e))
    · have h1 := hm.dens x
      rw [ha.dens, Range.rhoAt_perm hrep.perm, Range.rhoAt_append, Range.rhoAt_congr hkeep,
        Range.rhoAt_perm hmid, Range.rhoAt_cons, Range.rhoAt_cons, Range.rhoAt_cons, Range.rhoAt_nil,
        Range.rhoAt_nil]
      unfold Range.add_two at h1
      linarith

/-- Pieces that the set does not hold are added one by one. -/
theorem add_pieces_added {h : Store Range} (hwf : Range.AllWF h) {rs ps : List ℕ}
    (hl : ∀ r ∈ rs, r < h.next) (hnd : rs.Nodup) (hp : Args h rs ps) :
    ∃ h' rs', add_pieces Range.intersection_assign h rs ps = .ok (h', rs') ∧ Added h rs ps h' rs' := by
  induction ps generalizing h rs with
  | nil => exact ⟨h, rs, rfl, .nil _ _, hwf, hl, hnd, by simp⟩
  | cons p ps ih =>
    have hpm : p ∈ p :: ps := List.mem_cons_self
    obtain ⟨h₁, rs₁, hrun₁, ha⟩ :=
      add_with2_loop_added hwf (hp.live p hpm) [] hl hnd (hp.fresh p hpm)
    obtain ⟨h', rs', hrun, ha'⟩ := ih ha.wf ha.live ha.nodup (hp.tail ha.touches).1
    refine ⟨h', rs', ?_, ha.cons hp ha'⟩
    rw [add_pieces, add_with2, hrun₁]
    exact hrun

/-- **Giving up**: the pieces are not inserted twice, and `add` adds the densities to any set. -/
theorem add_with_givesUp {h : Store Range} (hwf : Range.AllWF h) {rs : List ℕ}
    (hl : ∀ r ∈ rs, r < h.next) (hnd : rs.Nodup) {new : ℕ} (hn : new < h.next) (hnew : new ∉ rs)
    (hg : GivesUp (rs.map h.obj) (h.obj new)) :
    ∃ h' rs', add_with Range.intersection_assign h rs new = .ok (h', rs') ∧
      Added h rs [new] h' rs' := by
  obtain ⟨h₀, d, w, hd, hout⟩ := decompose_range_spec hwf hl hn hnew
  rcases hout with ⟨hlast, -⟩ | ⟨-, hrun, -⟩
  · exact absurd hg hlast.not_givesUp
  · have hrs : ∀ r ∈ rs, h₀.obj r = h.obj r := fun r hr =>
      hd.agrees.obj_eq r (hl r hr) fun e => hnew (List.mem_singleton.mp e ▸ hr)
    obtain ⟨h', rs', hrun', ha⟩ := add_pieces_added hd.wf
      (fun r hr => (hl r hr).trans_le hd.agrees.next_le) hnd
      ⟨hd.parts.live, hd.parts.nodup, hd.parts.fresh⟩
    refine ⟨h', rs', ?_, ⟨?_, fun o ho => ?_⟩, ha.wf, ha.live, ha.nodup, fun x => ?_⟩
    · rw [add_with, hrun]
      exact hrun'
    · refine Store.Agrees.trans (hd.agrees.mono fun o => .inl) ha.touches.agrees fun o ho e => ?_
      refine e.imp_left fun e => (hd.refs o e).resolve_right ?_
      omega
    · rcases ha.touches.refs o ho with e | e | e
      · exact (hd.refs o e).imp_right .inr
      · exact .inr (.inl e)
      · exact .inr (.inr (hd.agrees.next_le.trans e))
    · rw [ha.dens, Range.rhoAt_congr hrs, hd.parts.dens, Range.rhoAt_cons, Range.rhoAt_nil, add_zero]

end RangeSet

end SEDiff.Juxta
