import SEDiff.Juxta.RangeSet

/-!
# Merging values

`__op` works on objects. What the values are that it leaves is a function of the values of its two operands, and so the values
of a set after `__add_with2` are a function of the values before it.

## What is proved

* `Range.op_meet` — the values that `__op` leaves.
* `Range.meet_region`, `Range.meet_receiver`, `Range.meet_apart` — where they lie.
-/

namespace SEDiff.Juxta

open Foundation

variable {f : ℚ → ℚ → ℚ}

namespace Range

/-- What lies in both ranges. -/
def overlap (f : ℚ → ℚ → ℚ) (n r : Range) : Range :=
  ⟨max n.start r.start, min n.stop r.stop, f n.weight r.weight, n.comments ∪ r.comments⟩

/-- What `__op` leaves of the receiver `n` and of `r`: the ranges beside the receiver, and the receiver. -/
def meet (f : ℚ → ℚ → ℚ) (n r : Range) : List Range × Range :=
  if n.Disjoint r then ([r], n)
  else if n.Within r then
    if r.start < n.start ∧ n.stop < r.stop then
      -- the receiver becomes what `r` has after it
      ([{ r with stop := n.start - 1 }, overlap f n r], { r with start := n.stop + 1 })
    else if r.start < n.start then ([{ r with stop := n.start - 1 }], overlap f n r)
    else if n.stop < r.stop then ([{ r with start := n.stop + 1 }], overlap f n r)
    else ([], overlap f n r)
  else if n.start < r.start then
    if r.stop < n.stop then
      -- `r` becomes what the receiver has after it
      ([overlap f n r, { n with start := r.stop + 1 }], { n with stop := r.start - 1 })
    else if n.stop < r.stop then ([overlap f n r, { r with start := n.stop + 1 }], { n with stop := r.start - 1 })
    else ([overlap f n r], { n with stop := r.start - 1 })
  else if r.start < n.start then ([{ r with stop := n.start - 1 }, overlap f n r], { n with start := r.stop + 1 })
  else ([overlap f n r], { n with start := r.stop + 1 })

/-- **The values that `__op` leaves.** -/
theorem op_meet (hf : Merge f) {h : Store Range} (hwf : AllWF h) {new r : ℕ} (hn : new < h.next) (hr : r < h.next)
    (hne : new ≠ r) : ∃ h' xs, op f h new r = .ok (h', xs) ∧ OpSpec f h new r h' xs ∧
      (xs.filter (· ≠ new)).map h'.obj = (meet f (h.obj new) (h.obj r)).1 ∧
      h'.obj new = (meet f (h.obj new) (h.obj r)).2 ∧ (r ∈ xs ∨ h'.obj r = h.obj r) := by
  obtain ⟨h', xs, hop, hspec⟩ := op_spec hf hwf hn hr
  refine ⟨h', xs, hop, hspec, ?_⟩
  have wn := hwf new hn
  have wr := hwf r hr
  have hsn := wn.sane
  have hsr := wr.sane
  have hnn : h.next ≠ new := Nat.ne_of_gt hn
  have hnr : h.next ≠ r := Nat.ne_of_gt hr
  by_cases hd : (h.obj new).Disjoint (h.obj r)
  · rw [meet, if_pos hd]
    rcases op_disjoint (f := f) hwf hn hr hd with hop' | hop' <;> rw [hop'] at hop <;>
      obtain ⟨rfl, rfl⟩ := Prod.mk.inj (Except.ok.inj hop) <;> simp [hne.symm]
  rw [meet, if_neg hd]
  have hd' : (h.obj r).start ≤ (h.obj new).stop ∧ (h.obj new).start ≤ (h.obj r).stop := by
    rw [Disjoint] at hd
    omega
  rcases lt_trichotomy (h.obj new).start (h.obj r).start with hs | hs | hs <;>
    rcases lt_trichotomy (h.obj new).stop (h.obj r).stop with he | he | he
  · -- `r` begins and ends later
    rw [op_three h hf wn wr hn hr hs hd'.1 he.ne, rest_of_lt he] at hop
    obtain ⟨rfl, rfl⟩ := Prod.mk.inj (Except.ok.inj hop)
    rw [if_neg fun e : Within _ _ => absurd e.1 (not_le.mpr hs), if_pos hs, if_neg he.not_gt, if_pos he]
    simp [hne, hne.symm, hnn, hnr, overlap, max_eq_right hs.le, min_eq_left he.le, Store.obj_set_of_ne]
  · -- the two end together
    rw [op_tail h wr hs he] at hop
    obtain ⟨rfl, rfl⟩ := Prod.mk.inj (Except.ok.inj hop)
    rw [if_neg fun e : Within _ _ => absurd e.1 (not_le.mpr hs), if_pos hs, if_neg he.not_gt, if_neg he.not_lt]
    simp [hne.symm, overlap, max_eq_right hs.le, he, Store.obj_set_of_ne]
  · -- `r` lies strictly inside
    rw [op_three h hf wn wr hn hr hs hd'.1 he.ne', rest_of_gt he] at hop
    obtain ⟨rfl, rfl⟩ := Prod.mk.inj (Except.ok.inj hop)
    rw [if_neg fun e : Within _ _ => absurd e.1 (not_le.mpr hs), if_pos hs, if_pos he]
    simp [hne, hne.symm, hnn, hnr, overlap, max_eq_right hs.le, min_eq_right he.le, Store.obj_set_of_ne]
  · -- the two begin together
    rw [op_head_left h wn hs he] at hop
    obtain ⟨rfl, rfl⟩ := Prod.mk.inj (Except.ok.inj hop)
    rw [if_pos ⟨hs.ge, he.le⟩, if_neg fun e => absurd e.1 hs.not_gt, if_neg hs.not_gt, if_pos he]
    simp [hne, hne.symm, overlap, hs, min_eq_left he.le, Store.obj_set_of_ne]
  · -- the two cover the same integers
    rw [op_same h hs he] at hop
    obtain ⟨rfl, rfl⟩ := Prod.mk.inj (Except.ok.inj hop)
    rw [if_pos ⟨hs.ge, he.le⟩, if_neg fun e => absurd e.1 hs.not_gt, if_neg hs.not_gt, if_neg he.not_lt]
    simp [overlap, hs, he, Store.obj_set_of_ne _ _ hne.symm]
  · -- the two begin together, and `r` is shorter
    rw [op_head_right h wr hs he] at hop
    obtain ⟨rfl, rfl⟩ := Prod.mk.inj (Except.ok.inj hop)
    rw [if_neg fun e : Within _ _ => absurd e.2 (not_le.mpr he), if_neg hs.not_lt, if_neg hs.not_gt]
    simp [hne.symm, overlap, hs, min_eq_right he.le, Store.obj_set_of_ne, hf.comm, Finset.union_comm]
  · -- the receiver lies strictly inside
    rw [op_of_lt h hs, op_three h hf wr wn hr hn hs hd'.2 he.ne', rest_of_gt he] at hop
    obtain ⟨rfl, rfl⟩ := Prod.mk.inj (Except.ok.inj hop)
    rw [if_pos ⟨hs.le, he.le⟩, if_pos ⟨hs, he⟩]
    simp [hne.symm, hnn, hnr, overlap, max_eq_left hs.le, min_eq_left he.le, min_eq_right he.le, Store.obj_set_of_ne,
      hf.comm, Finset.union_comm]
  · -- the two end together, and the receiver is shorter
    rw [op_of_lt h hs, op_tail h wn hs he.symm] at hop
    obtain ⟨rfl, rfl⟩ := Prod.mk.inj (Except.ok.inj hop)
    rw [if_pos ⟨hs.le, he.le⟩, if_neg fun e => absurd e.2 he.not_lt, if_pos hs]
    simp [hne, hne.symm, overlap, max_eq_left hs.le, he, Store.obj_set_of_ne, hf.comm, Finset.union_comm]
  · -- `r` begins and ends earlier
    rw [op_of_lt h hs, op_three h hf wr wn hr hn hs hd'.2 he.ne, rest_of_lt he] at hop
    obtain ⟨rfl, rfl⟩ := Prod.mk.inj (Except.ok.inj hop)
    rw [if_neg fun e : Within _ _ => absurd e.2 (not_le.mpr he), if_neg hs.not_gt, if_pos hs]
    simp [hne.symm, hnn, hnr, overlap, max_eq_left hs.le, min_eq_left he.le, min_eq_right he.le, Store.obj_set_of_ne,
      hf.comm, Finset.union_comm]

/-! ### Where the values lie -/

variable {n r : Range}

/-- `r` lies strictly inside the receiver: what the receiver has after it is put beside it. -/
theorem meet_inside (hr : r.start ≤ r.stop) (hs : n.start < r.start) (he : r.stop < n.stop) :
    meet f n r = ([overlap f n r, { n with start := r.stop + 1 }], { n with stop := r.start - 1 }) := by
  have hd : ¬ n.Disjoint r := by
    rintro (h1 | h1) <;> omega
  rw [meet, if_neg hd, if_neg fun e => absurd e.1 (not_le.mpr hs), if_pos hs, if_pos he]

/-- The weights are those of the operands, and the two combined. -/
theorem meet_weight {P : ℚ → Prop} (hn : P n.weight) (hr : P r.weight) (hf : P (f n.weight r.weight)) :
    (∀ o ∈ (meet f n r).1, P o.weight) ∧ P (meet f n r).2.weight := by
  unfold meet
  split_ifs <;> simp [overlap, hn, hr, hf]

/-- **Beside the receiver** there are parts of `r`, and of the receiver only what lies behind an `r` strictly inside it. -/
theorem meet_region {o : Range} (ho : o ∈ (meet f n r).1) :
    o.Within r ∨ (n.start < r.start ∧ r.stop < n.stop) ∧ o = { n with start := r.stop + 1 } := by
  unfold meet at ho
  split_ifs at ho <;> simp only [overlap, List.mem_cons, List.not_mem_nil, or_false] at ho <;>
    rcases ho with rfl | rfl <;> simp only [Disjoint, Within] at * <;>
      first | (left; omega) | (right; exact ⟨⟨by assumption, by assumption⟩, trivial⟩)

/-- The receiver stays within itself, or becomes a part of an `r` that it overlaps. -/
theorem meet_receiver : (meet f n r).2.Within n ∨ ¬ n.Disjoint r ∧ (meet f n r).2.Within r := by
  unfold meet
  split_ifs <;> simp only [overlap, Within, Disjoint] at * <;> omega

/-- No integer lies in two of the values. -/
theorem meet_apart (hn : n.start ≤ n.stop) (hr : r.start ≤ r.stop) :
    (meet f n r).1.Pairwise Disjoint ∧ ∀ o ∈ (meet f n r).1, o.Disjoint (meet f n r).2 := by
  unfold meet
  split_ifs <;> simp_all [overlap, Within, Disjoint] <;> omega

end Range

end SEDiff.Juxta
