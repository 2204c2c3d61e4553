import SEDiff.Juxta.Pieces

/-!
# What two range sets differ in

The overlaps of two range sets and the two lists of differences that `RangeSet.distance` records.

## What is proved

* `RangeSet.rhoOf_overlaps` — the overlaps have the density of what both sets have.
* `RangeSet.overlap_rows_diffs` — the differences are what the overlaps leave of either set.
-/

namespace SEDiff.Juxta

open Foundation

namespace RangeSet

/-! ### The overlaps of two sets -/

/-- Where two ranges overlap, and by which weight. -/
def overlap (s r : Range) : Range :=
  ⟨(s.overlapped_area r).2.1, (s.overlapped_area r).2.2.1, (s.overlapped_area r).2.2.2, ∅⟩

/-- The overlaps of a range with those of a set, as far as they weigh something. -/
def overlapsOf (s : Range) (rhs : List Range) : List Range := (rhs.map (overlap s)).filter fun g => 0 < g.weight

/-- The overlaps in the order in which `__histogram_intersection` meets them. -/
def overlaps (rs rhs : List Range) : List Range := rs.flatMap fun s => overlapsOf s rhs

/-- The density of an overlap is the smaller density. -/
theorem rho_overlap {s r : Range} (hs : s.WF) (hr : r.WF) (x : ℤ) :
    (overlap s r).rho x = min (s.rho x) (r.rho x) := by
  have hmin : min (s.rho x) (r.rho x) = box (max s.start r.start) (min s.stop r.stop) (min s.weight r.weight) x :=
    min_box hs.nonneg hr.nonneg x
  rw [hmin]
  unfold overlap Range.overlapped_area
  simp only
  split_ifs with hlt
  · rw [box_of_lt _ hlt]
    simp [Range.rho, box]
  · rfl

theorem overlap_spec {s r g : Range} (hg : g = overlap s r) (hpos : 0 < g.weight) :
    Overlap g ∧ g.Within s ∧ g.Within r := by
  subst hg
  unfold overlap Range.overlapped_area at hpos ⊢
  simp only at hpos ⊢
  split_ifs at hpos ⊢ with hlt
  · exact absurd hpos (lt_irrefl 0)
  · exact ⟨⟨not_lt.mp hlt, hpos⟩, ⟨le_max_left _ _, min_le_left _ _⟩, ⟨le_max_right _ _, min_le_right _ _⟩⟩

theorem overlapsOf_cons (s r : Range) (rhs : List Range) :
    overlapsOf s (r :: rhs) = overlapsOf s [r] ++ overlapsOf s rhs := by
  rw [overlapsOf, List.map_cons, ← List.singleton_append, List.filter_append]
  rfl

theorem mem_overlaps {rs rhs : List Range} {g : Range} (hg : g ∈ overlaps rs rhs) :
    ∃ s ∈ rs, ∃ r ∈ rhs, g = overlap s r ∧ 0 < g.weight := by
  obtain ⟨s, hs, hg⟩ := List.mem_flatMap.mp hg
  obtain ⟨hg, hpos⟩ := List.mem_filter.mp hg
  obtain ⟨r, hr, rfl⟩ := List.mem_map.mp hg
  exact ⟨s, hs, r, hr, rfl, of_decide_eq_true hpos⟩

theorem overlaps_overlap {rs rhs : List Range} : ∀ g ∈ overlaps rs rhs, Overlap g := by
  intro g hg
  obtain ⟨s, -, r, -, hg, hpos⟩ := mem_overlaps hg
  exact (overlap_spec hg hpos).1

/-- Ranges inside disjoint ranges are disjoint. -/
theorem disjoint_of_within {p q r s : Range} (h : r.Disjoint s) (hp : p.Within r) (hq : q.Within s) :
    p.Disjoint q := ((h.mono_right hq).symm.mono_right hp).symm

/-- The overlaps of two sets of disjoint ranges are disjoint. -/
theorem overlaps_disjoint {rs rhs : List Range} (hl : rs.Pairwise Range.Disjoint)
    (hr : rhs.Pairwise Range.Disjoint) : (overlaps rs rhs).Pairwise Range.Disjoint := by
  rw [overlaps, List.pairwise_flatMap]
  refine ⟨fun s _ => ?_, hl.imp fun hst g hg k hk => ?_⟩
  · rw [overlapsOf, List.pairwise_filter, List.pairwise_map]
    refine hr.imp fun hrr hg hk => ?_
    exact disjoint_of_within hrr (overlap_spec rfl (of_decide_eq_true hg)).2.2
      (overlap_spec rfl (of_decide_eq_true hk)).2.2
  · obtain ⟨hg, hgpos⟩ := List.mem_filter.mp hg
    obtain ⟨hk, hkpos⟩ := List.mem_filter.mp hk
    obtain ⟨r, -, rfl⟩ := List.mem_map.mp hg
    obtain ⟨r', -, rfl⟩ := List.mem_map.mp hk
    exact disjoint_of_within hst (overlap_spec rfl (of_decide_eq_true hgpos)).2.1
      (overlap_spec rfl (of_decide_eq_true hkpos)).2.1

theorem rhoOf_flatMap (f : Range → List Range) (rs : List Range) (x : ℤ) :
    rhoOf (rs.flatMap f) x = (rs.map fun r => rhoOf (f r) x).sum := by
  induction rs with
  | nil => rfl
  | cons r rs ih => rw [List.flatMap_cons, rhoOf_append, ih, List.map_cons, List.sum_cons]

/-- Ranges without weight do not show in the density. -/
theorem rhoOf_filter_pos {gs : List Range} (x : ℤ) (hgs : ∀ g ∈ gs, 0 ≤ g.rho x ∧ (g.weight ≤ 0 → g.rho x ≤ 0)) :
    rhoOf (gs.filter fun g => 0 < g.weight) x = rhoOf gs x := by
  induction gs with
  | nil => rfl
  | cons g gs ih =>
    have hrest := ih fun g' hg' => hgs g' (List.mem_cons_of_mem _ hg')
    obtain ⟨hnn, hzero⟩ := hgs g List.mem_cons_self
    rw [List.filter_cons]
    split_ifs with hpos
    · rw [rhoOf_cons, rhoOf_cons, hrest]
    · have hle : g.weight ≤ 0 := not_lt.mp fun h => hpos (decide_eq_true h)
      rw [rhoOf_cons, hrest, le_antisymm (hzero hle) hnn, zero_add]

/-- **The overlaps** have the density of what both sets have. -/
theorem rhoOf_overlaps {rs rhs : List Range} (hl : Tidy rs) (hr : Tidy rhs) (x : ℤ) :
    rhoOf (overlaps rs rhs) x = min (rhoOf rs x) (rhoOf rhs x) := by
  have hnn : ∀ {qs : List Range}, Tidy qs → ∀ f ∈ qs.map Range.rho, ∀ x, 0 ≤ f x := by
    intro qs hq f hf x
    obtain ⟨r, hm, rfl⟩ := List.mem_map.mp hf
    exact Range.rho_nonneg (hq.wf r hm) x
  have hap : ∀ {qs : List Range}, Tidy qs → (qs.map Range.rho).Pairwise Apart :=
    fun hq => List.pairwise_map.mpr (hq.disjoint.imp apart_of_disjoint)
  have hmin : min (rhoOf rs x) (rhoOf rhs x) =
      (rs.map fun s => (rhs.map fun r => min (s.rho x) (r.rho x)).sum).sum := by
    rw [rhoOf, rhoOf, min_listSum_of_disjoint (hnn hl) (hnn hr) (hap hl) (hap hr)]
    simp only [List.map_map, Function.comp_def]
  rw [hmin, overlaps, rhoOf_flatMap]
  congr 1
  refine List.map_congr_left fun s hs => ?_
  rw [overlapsOf, rhoOf_filter_pos]
  · rw [rhoOf, listSum, List.map_map, List.map_map]
    congr 1
    exact List.map_congr_left fun r hm => rho_overlap (hl.wf s hs) (hr.wf r hm) x
  · intro g hg
    obtain ⟨r, hm, rfl⟩ := List.mem_map.mp hg
    refine ⟨?_, fun hw => ?_⟩
    · rw [rho_overlap (hl.wf s hs) (hr.wf r hm)]
      exact le_min (Range.rho_nonneg (hl.wf s hs) x) (Range.rho_nonneg (hr.wf r hm) x)
    · rw [Range.rho_def]
      split_ifs
      · exact hw
      · exact le_rfl

/-! ### The two lists of differences -/

theorem pieces_append (ps gs hs : List Range) : pieces ps (gs ++ hs) = pieces (pieces ps gs) hs := by
  induction gs generalizing ps with
  | nil => rfl
  | cons g gs ih => exact ih _

theorem diff_out_create_diff (ps : List Range) (g : Range) :
    diff_out (create_diff ps) g.start g.stop g.weight = create_diff (ps.flatMap (cutBy g)) := by
  induction ps with
  | nil => rfl
  | cons p ps ih =>
    rw [create_diff, List.map_cons, diff_out, List.flatMap_cons]
    rw [List.flatMap_cons, create_diff, create_diff, List.map_append]
    exact congrArg _ ih

theorem overlap_row_diffs (s : Range) (rs : List Range) (o : ℚ) (ps qs : List Range) :
    (overlap_row s rs (o, create_diff ps, create_diff qs)).2 =
      (create_diff (pieces ps (overlapsOf s rs)), create_diff (pieces qs (overlapsOf s rs))) := by
  induction rs generalizing o ps qs with
  | nil => rfl
  | cons r rs ih =>
    rw [overlap_row, overlapsOf, List.map_cons, List.filter_cons]
    by_cases hw : (s.overlapped_area r).2.2.2 ≤ 0
    · have hdec : ¬ decide (0 < (overlap s r).weight) = true :=
        fun h => absurd (of_decide_eq_true h) (not_lt.mpr hw)
      simp only
      rw [if_pos hw, if_neg hdec, ih]
      rfl
    · have hdec : decide (0 < (overlap s r).weight) = true := decide_eq_true (not_le.mp hw)
      simp only
      rw [if_neg hw, if_pos hdec, pieces, pieces, ← overlapsOf, ← ih]
      have hd := fun ps => diff_out_create_diff ps (overlap s r)
      rw [← hd ps, ← hd qs]
      rfl

/-- **The differences** are the pieces of both sets that all the overlaps leave, with their areas. -/
theorem overlap_rows_diffs (rhs rs : List Range) (o : ℚ) (ps qs : List Range) :
    (overlap_rows rhs rs (o, create_diff ps, create_diff qs)).2 =
      (create_diff (pieces ps (overlaps rs rhs)), create_diff (pieces qs (overlaps rs rhs))) := by
  induction rs generalizing o ps qs with
  | nil => rfl
  | cons s rs ih =>
    have hrow := overlap_row_diffs s rhs o ps qs
    rw [overlap_rows, overlaps, List.flatMap_cons, pieces_append, pieces_append]
    rw [← Prod.mk.eta (p := overlap_row s rhs (o, create_diff ps, create_diff qs)), hrow, ih]
    rfl

/-- What `distance` records. -/
theorem distance_diffs {rs rhs : List Range} {y : ℚ × Diff × Diff} (hy : distance rs rhs = .ok y) :
    y.2.1 = sort_diff (create_diff (pieces rs (overlaps rs rhs))) ∧
      y.2.2 = sort_diff (create_diff (pieces rhs (overlaps rs rhs))) := by
  unfold distance at hy
  simp only [overlap_rows_diffs] at hy
  obtain ⟨_, -, hy⟩ := bind_eq_ok.mp hy
  obtain rfl := Except.ok.inj hy
  exact ⟨rfl, rfl⟩

end RangeSet

end SEDiff.Juxta
