import SEDiff.Juxta.Range
import Mathlib.Data.List.Sort

/-!
# The distance of two range sets

`RangeSet.__histogram_intersection` of `rsv.py`: the areas of all the ranges less the areas of
all the overlaps, and what each set has that the other has not. It reads the ranges of both
sets and works on copies, so it is modelled on the ranges' values.

## What is proved

* `RangeSet.distance_eq_area_max` — on sets of pairwise disjoint ranges the distance is the sum
  over all integers of the larger of the two densities. So it is symmetric, its assertion holds,
  and it depends on the densities only.
-/

namespace SEDiff.Juxta

open Foundation

namespace RangeSet

/-- The differences of a set: ranges with their areas. -/
abbrev Diff := List (ℚ × Range)

/-- `__create_diff`. -/
def create_diff (rs : List Range) : Diff := rs.map fun r => (r.calc_area, r)

/-- One range of `__diff_out`: what is left of `rs1` outside `[s, e]` and above the weight `w`. -/
def diff_out1 (s e : ℤ) (w : ℚ) (rs1 : Range) : List Range :=
  let ms := max rs1.start s
  let me := min rs1.stop e
  -- case 0. non-overlapped
  if ms > me ∨ rs1.weight ≤ 0 then [rs1]
  else
    let mw := min rs1.weight w
    let cut (r : Range) : List Range :=
      if 0 < rs1.weight - mw then [{ r with weight := rs1.weight - mw }] else []
    -- case 1. completely overlapped
    if rs1.start = ms ∧ rs1.stop = me then cut rs1
    -- case 2. partially overlapped, generating two new regions
    else if rs1.start < ms ∧ me < rs1.stop then
      [{ rs1 with stop := ms - 1 }, { rs1 with start := me + 1 }] ++ cut rs1
    -- case 3. partially overlapped, generating one new region
    else if rs1.start = ms then { rs1 with start := me + 1 } :: cut { rs1 with stop := me }
    else if rs1.stop = me then { rs1 with stop := ms - 1 } :: cut { rs1 with start := ms }
    else []

/-- `__diff_out`. -/
def diff_out (diff : Diff) (s e : ℤ) (w : ℚ) : Diff :=
  diff.flatMap fun d => create_diff (diff_out1 s e w d.2)

/-- The inner loop of `__histogram_intersection`. -/
def overlap_row (s : Range) : List Range → ℚ × Diff × Diff → ℚ × Diff × Diff
  | [], acc => acc
  | r :: rs, (overlap, ldiff, rdiff) =>
    let (area, start, stop, weight) := s.overlapped_area r
    let overlap := overlap + area
    if weight ≤ 0 then overlap_row s rs (overlap, ldiff, rdiff)
    else overlap_row s rs
      (overlap, diff_out ldiff start stop weight, diff_out rdiff start stop weight)

/-- The outer loop of `__histogram_intersection`. -/
def overlap_rows (rhs : List Range) : List Range → ℚ × Diff × Diff → ℚ × Diff × Diff
  | [], acc => acc
  | s :: rs, acc => overlap_rows rhs rs (overlap_row s rhs acc)

/-- `diff.sort(reverse=True)`; the order of ranges of the same area is not specified. -/
def sort_diff (diff : Diff) : Diff := diff.mergeSort fun d e => e.1 ≤ d.1

/-- `distance`: the distance, and the new `ldiff` and `rdiff` of the receiver. -/
def distance (rs rhs : List Range) : Except PyErr (ℚ × Diff × Diff) := do
  let total := (rs.map Range.calc_area).sum + (rhs.map Range.calc_area).sum
  let (overlap, ldiff, rdiff) := overlap_rows rhs rs (0, create_diff rs, create_diff rhs)
  let dist := total - overlap
  pyAssert (0 ≤ dist)
  return (dist, sort_diff ldiff, sort_diff rdiff)

/-! ### The overlap -/

/-- The density of a list of ranges. -/
def rhoOf (rs : List Range) : ℤ → ℚ := listSum (rs.map Range.rho)

theorem overlap_row_fst (s : Range) (rs : List Range) (acc : ℚ × Diff × Diff) :
    (overlap_row s rs acc).1 = acc.1 + (rs.map fun r => (s.overlapped_area r).1).sum := by
  induction rs generalizing acc with
  | nil => simp [overlap_row]
  | cons r rs ih =>
    rw [overlap_row]
    simp only [List.map_cons, List.sum_cons]
    split_ifs <;> rw [ih, add_assoc]

theorem overlap_rows_fst (rhs rs : List Range) (acc : ℚ × Diff × Diff) :
    (overlap_rows rhs rs acc).1 =
      acc.1 + (rs.map fun s => (rhs.map fun r => (s.overlapped_area r).1).sum).sum := by
  induction rs generalizing acc with
  | nil => simp [overlap_rows]
  | cons s rs ih => rw [overlap_rows, ih, overlap_row_fst, List.map_cons, List.sum_cons, add_assoc]

/-- The area of the overlap of two ranges is that of the smaller of their densities. -/
theorem overlapped_area_eq {s r : Range} (hs : s.WF) (hr : r.WF) :
    (s.overlapped_area r).1 = area fun x => min (s.rho x) (r.rho x) := by
  have hfun : (fun x => min (s.rho x) (r.rho x)) =
      box (max s.start r.start) (min s.stop r.stop) (min s.weight r.weight) :=
    funext fun x => min_box hs.nonneg hr.nonneg x
  rw [hfun, Range.overlapped_area]
  simp only
  split_ifs with hgt
  · have hzero : box (max s.start r.start) (min s.stop r.stop) (min s.weight r.weight) = fun _ => 0 :=
      funext fun x => box_of_lt _ hgt x
    rw [hzero, area_zero]
  · rw [area_box _ (by omega)]

theorem finite_support_min {f g : ℤ → ℚ} (hf : (Function.support f).Finite)
    (hg : (Function.support g).Finite) : (Function.support fun x => min (f x) (g x)).Finite :=
  finite_support_map₂ (min_self 0) hf hg

theorem finite_support_max {f g : ℤ → ℚ} (hf : (Function.support f).Finite)
    (hg : (Function.support g).Finite) : (Function.support fun x => max (f x) (g x)).Finite :=
  finite_support_map₂ (max_self 0) hf hg

/-- Disjoint ranges have densities that are never both nonzero. -/
theorem apart_of_disjoint {r s : Range} (h : r.Disjoint s) : Apart r.rho s.rho := by
  intro x
  by_cases hx : r.start ≤ x ∧ x ≤ r.stop
  · refine .inr (box_of_not_mem fun hs => ?_)
    rcases h with h | h <;> omega
  · exact .inl (box_of_not_mem hx)

theorem finite_support_rhos {rs : List Range} : ∀ f ∈ rs.map Range.rho, (Function.support f).Finite := by
  intro f hf
  obtain ⟨r, -, rfl⟩ := List.mem_map.mp hf
  exact finite_support_box _ _ _

/-- The areas of the overlaps add up to the area of the smaller density. -/
theorem sum_overlapped_area {rs rhs : List Range} (hl : ∀ r ∈ rs, r.WF) (hr : ∀ r ∈ rhs, r.WF)
    (hld : rs.Pairwise Range.Disjoint) (hrd : rhs.Pairwise Range.Disjoint) :
    (rs.map fun s => (rhs.map fun r => (s.overlapped_area r).1).sum).sum =
      area fun x => min (rhoOf rs x) (rhoOf rhs x) := by
  let row (s : Range) : List (ℤ → ℚ) := rhs.map fun r x => min (s.rho x) (r.rho x)
  have hrow : ∀ s, ∀ f ∈ row s, (Function.support f).Finite := by
    intro s f hf
    obtain ⟨r, -, rfl⟩ := List.mem_map.mp hf
    exact finite_support_min (finite_support_box _ _ _) (finite_support_box _ _ _)
  have hrows : ∀ f ∈ rs.map fun s => listSum (row s), (Function.support f).Finite := by
    intro f hf
    obtain ⟨s, -, rfl⟩ := List.mem_map.mp hf
    exact finite_support_listSum (hrow s)
  -- the smaller density, pair by pair
  have hmin : (fun x => min (rhoOf rs x) (rhoOf rhs x)) = listSum (rs.map fun s => listSum (row s)) := by
    funext x
    have hnn : ∀ {qs : List Range}, (∀ r ∈ qs, r.WF) → ∀ f ∈ qs.map Range.rho, ∀ x, 0 ≤ f x := by
      intro qs hq f hf x
      obtain ⟨r, hm, rfl⟩ := List.mem_map.mp hf
      exact Range.rho_nonneg (hq r hm) x
    have hap : ∀ {qs : List Range}, qs.Pairwise Range.Disjoint → (qs.map Range.rho).Pairwise Apart :=
      fun hq => List.pairwise_map.mpr (hq.imp apart_of_disjoint)
    rw [rhoOf, rhoOf, min_listSum_of_disjoint (hnn hl) (hnn hr) (hap hld) (hap hrd)]
    simp only [listSum, row, List.map_map, Function.comp_def]
  rw [hmin, area_listSum hrows, List.map_map]
  congr 1
  refine List.map_congr_left fun s hs => ?_
  rw [Function.comp_apply, area_listSum (hrow s), List.map_map]
  congr 1
  exact List.map_congr_left fun r hm => overlapped_area_eq (hl s hs) (hr r hm)

/-- The areas of the ranges add up to the area of their density. -/
theorem sum_calc_area {rs : List Range} (hl : ∀ r ∈ rs, r.WF) :
    (rs.map Range.calc_area).sum = area (rhoOf rs) := by
  rw [rhoOf, area_listSum finite_support_rhos, List.map_map]
  congr 1
  refine List.map_congr_left fun r hr => ?_
  have := (hl r hr).sane
  exact (area_box _ (by omega)).symm

theorem finite_support_rhoOf (rs : List Range) : (Function.support (rhoOf rs)).Finite :=
  finite_support_listSum finite_support_rhos

/-- All the ranges less the overlaps is the larger density. -/
theorem area_sub_min {f g : ℤ → ℚ} (hf : (Function.support f).Finite) (hg : (Function.support g).Finite) :
    area f + area g - area (fun x => min (f x) (g x)) = area fun x => max (f x) (g x) := by
  rw [sub_eq_iff_eq_add, ← area_add hf hg, ← area_add (finite_support_max hf hg) (finite_support_min hf hg)]
  exact congrArg area (funext fun x => (max_add_min (f x) (g x)).symm)

theorem rhoOf_nonneg {rs : List Range} (hl : ∀ r ∈ rs, r.WF) (x : ℤ) : 0 ≤ rhoOf rs x :=
  List.sum_nonneg fun v hv => by
    obtain ⟨f, hf, rfl⟩ := List.mem_map.mp hv
    obtain ⟨r, hr, rfl⟩ := List.mem_map.mp hf
    exact Range.rho_nonneg (hl r hr) x

/-- The value that `distance` returns. -/
theorem distance_spec {rs rhs : List Range} (hl : ∀ r ∈ rs, r.WF) (hr : ∀ r ∈ rhs, r.WF)
    (hld : rs.Pairwise Range.Disjoint) (hrd : rhs.Pairwise Range.Disjoint) :
    ∃ ldiff rdiff, distance rs rhs =
      .ok (area fun x => max (rhoOf rs x) (rhoOf rhs x), ldiff, rdiff) := by
  have hdist : (rs.map Range.calc_area).sum + (rhs.map Range.calc_area).sum -
      (overlap_rows rhs rs (0, create_diff rs, create_diff rhs)).1 =
        area fun x => max (rhoOf rs x) (rhoOf rhs x) := by
    rw [overlap_rows_fst, zero_add, sum_overlapped_area hl hr hld hrd, sum_calc_area hl, sum_calc_area hr,
      area_sub_min (finite_support_rhoOf rs) (finite_support_rhoOf rhs)]
  have hnn : 0 ≤ area fun x => max (rhoOf rs x) (rhoOf rhs x) :=
    finsum_nonneg fun x => le_max_of_le_left (rhoOf_nonneg hl x)
  let y := overlap_rows rhs rs (0, create_diff rs, create_diff rhs)
  refine ⟨sort_diff y.2.1, sort_diff y.2.2, ?_⟩
  unfold distance
  simp only [hdist]
  rw [pyAssert_of_true hnn]
  rfl

/-- **Distance**: on sets of pairwise disjoint ranges the distance is the area under the larger of
the two densities, the same in both directions and for all sets of the same densities. -/
theorem distance_eq_area_max (rs rhs : List Range) (hl : ∀ r ∈ rs, r.WF) (hr : ∀ r ∈ rhs, r.WF)
    (hld : rs.Pairwise Range.Disjoint) (hrd : rhs.Pairwise Range.Disjoint) :
    (∃ ldiff rdiff, distance rs rhs =
      .ok (area fun x => max (rhoOf rs x) (rhoOf rhs x), ldiff, rdiff)) ∧
    (distance rhs rs).map Prod.fst = (distance rs rhs).map Prod.fst ∧
    ∀ rs' rhs' : List Range, (∀ r ∈ rs', r.WF) → (∀ r ∈ rhs', r.WF) → rs'.Pairwise Range.Disjoint →
      rhs'.Pairwise Range.Disjoint → (∀ x, rhoOf rs' x = rhoOf rs x) → (∀ x, rhoOf rhs' x = rhoOf rhs x) →
      (distance rs' rhs').map Prod.fst = (distance rs rhs).map Prod.fst := by
  obtain ⟨ld, rd, hrun⟩ := distance_spec hl hr hld hrd
  refine ⟨⟨ld, rd, hrun⟩, ?_, fun rs' rhs' hl' hr' hld' hrd' hrs hrhs => ?_⟩
  · obtain ⟨ld', rd', hrun'⟩ := distance_spec hr hl hrd hld
    rw [hrun, hrun']
    exact congrArg Except.ok (congrArg area (funext fun x => max_comm _ _))
  · obtain ⟨ld', rd', hrun'⟩ := distance_spec hl' hr' hld' hrd'
    rw [hrun, hrun', funext hrs, funext hrhs]
    rfl

/-- Two ranges that overlap, and one of them cut in two. -/
theorem distance_eq_area_max_cut :
    (distance [⟨1, 4, 2, ∅⟩, ⟨5, 100, 2, ∅⟩] [⟨51, 200, 1, ∅⟩]).map Prod.fst =
      (distance [⟨1, 100, 2, ∅⟩] [⟨51, 200, 1, ∅⟩]).map Prod.fst := by
  refine (distance_eq_area_max [⟨1, 100, 2, ∅⟩] [⟨51, 200, 1, ∅⟩] (by decide) (by decide) (by decide)
    (by decide)).2.2 _ _ (by decide) (by decide) (by decide) (by decide) (fun x => ?_) fun x => rfl
  simp only [rhoOf, List.map_cons, List.map_nil, listSum_cons, listSum_nil, Range.rho_def]
  split_ifs <;> first | (exfalso; omega) | simp

end RangeSet

end SEDiff.Juxta
