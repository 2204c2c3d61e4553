import SEDiff.Juxta.RangeBuild

/-!
# Mixtures of ranges

`build` of `rsf.py` is meant to make a mixture: every range that is listed gets the same share of the area, spread evenly.
But a range that is added is inserted twice, which doubles what the set has there already.

## What is proved

* `Rsf.density_of_ranges` — of ranges that are pairwise equal or disjoint, one that is listed `k` times has `2 ^ (k + 1) - 2`
  times its weight before the set is resized.
* `Rsf.doubled_eq_mixture_iff` — so the set is the mixture exactly when all of them are listed equally often.
-/

namespace SEDiff.Juxta

open Foundation

namespace Rsf

/-! ### The mixture -/

/-- The density of the mixture: the area times the average, over all the ranges, of the even density. -/
def mixture (ranges : List Range) (range_area : ℚ) (x : ℤ) : ℚ :=
  range_area * ((ranges.map fun r => if r.start ≤ x ∧ x ≤ r.stop then 1 / ((r.stop : ℚ) - r.start + 1) else 0).sum /
    ranges.length)

/-- The interval that is listed. -/
def Listed (ranges : List Range) (p : ℤ × ℤ) : Prop := p ∈ ranges.map Range.ends

/-- How often an interval is listed. -/
def times (ranges : List Range) (p : ℤ × ℤ) : ℕ := (ranges.map Range.ends).count p

/-- Every interval is listed as often as any other. -/
def EquallyOften (ranges : List Range) : Prop :=
  ∀ p ∈ ranges.map Range.ends, ∀ q ∈ ranges.map Range.ends, times ranges p = times ranges q

/-! ### How often weights are doubled -/

/-- What a weight is multiplied by when it is listed `k` times, each time added and doubled. -/
def factor (k : ℕ) : ℚ := 2 ^ (k + 1) - 2

theorem factor_succ (k : ℕ) : factor (k + 1) = 2 * (factor k + 1) := by
  unfold factor
  ring

theorem factor_pos {k : ℕ} (hk : 0 < k) : 0 < factor k := by
  obtain ⟨j, rfl⟩ := Nat.exists_eq_succ_of_ne_zero hk.ne'
  have hpow : (1 : ℚ) ≤ 2 ^ j := one_le_pow₀ (by norm_num)
  unfold factor
  rw [pow_succ, pow_succ]
  linarith

/-- What is listed more often is favoured. -/
theorem factor_mul_lt {j k : ℕ} (hj : 0 < j) (hjk : j < k) : factor j * k < factor k * j := by
  induction k, hjk using Nat.le_induction with
  | base =>
    have hpos := factor_pos hj
    have h1 : (1 : ℚ) ≤ j := by exact_mod_cast hj
    rw [Nat.succ_eq_add_one, factor_succ]
    push_cast
    nlinarith
  | succ k hk ih =>
    have hpos := factor_pos (hj.trans hk)
    have hpos' := factor_pos hj
    have h1 : (1 : ℚ) ≤ j := by exact_mod_cast hj
    have h2 : (j : ℚ) < k := by exact_mod_cast hk
    rw [factor_succ]
    push_cast
    nlinarith

theorem factor_mul_eq_iff {j k : ℕ} (hj : 0 < j) (hk : 0 < k) : factor j * k = factor k * j ↔ j = k := by
  constructor
  · intro heq
    rcases lt_trichotomy j k with hlt | rfl | hlt
    · exact absurd heq (factor_mul_lt hj hlt).ne
    · rfl
    · exact absurd heq (factor_mul_lt hk hlt).ne'
  · rintro rfl
    rfl

/-- How many of the ranges cover an integer. -/
def cover (ranges : List Range) (x : ℤ) : ℕ := ranges.countP fun r => r.start ≤ x ∧ x ≤ r.stop

/-- The ranges that cover an integer all have the weight `w`. -/
theorem foldl_addDensity {ranges : List Range} {x : ℤ} {w : ℚ}
    (hw : ∀ r ∈ ranges, r.start ≤ x ∧ x ≤ r.stop → r.weight = w) (d : ℚ) :
    ranges.foldl (addDensity x) d = d * 2 ^ cover ranges x + w * factor (cover ranges x) ∧
      listedDensity ranges x = w * cover ranges x := by
  induction ranges generalizing d with
  | nil => simp [cover, factor, listedDensity]
  | cons r ranges ih =>
    obtain ⟨hr, hw⟩ := List.forall_mem_cons.mp hw
    by_cases hx : r.start ≤ x ∧ x ≤ r.stop
    · have hcover : cover (r :: ranges) x = cover ranges x + 1 := List.countP_cons_of_pos (by simpa using hx)
      have hrho : r.rho x = w := (box_of_mem hx).trans (hr hx)
      obtain ⟨hfold, hlisted⟩ := ih hw (2 * (d + w))
      rw [List.foldl_cons, addDensity, if_pos hx, hr hx, hfold, hcover]
      rw [listedDensity] at hlisted ⊢
      rw [List.map_cons, List.sum_cons, hrho, hlisted]
      unfold factor
      constructor
      · ring
      · push_cast
        ring
    · have hcover : cover (r :: ranges) x = cover ranges x := List.countP_cons_of_neg (by simpa using hx)
      have hrho : r.rho x = 0 := box_of_not_mem hx
      obtain ⟨hfold, hlisted⟩ := ih hw d
      rw [List.foldl_cons, addDensity, if_neg hx, hfold, hcover]
      rw [listedDensity] at hlisted ⊢
      rw [List.map_cons, List.sum_cons, hrho, hlisted, zero_add]
      exact ⟨rfl, rfl⟩

/-- Ranges over intervals that are equal or disjoint have one weight at each integer. -/
theorem weight_at {ranges : List Range} (hmass : ∀ r ∈ ranges, Massed r)
    (hP : RangeSet.EqualOrDisjoint (Listed ranges)) {r s : Range} (hr : r ∈ ranges) (hs : s ∈ ranges) {x : ℤ}
    (hrx : r.start ≤ x ∧ x ≤ r.stop) (hsx : s.start ≤ x ∧ x ≤ s.stop) : r.ends = s.ends ∧ r.weight = s.weight := by
  have hends : r.ends = s.ends := by
    refine (hP _ _ (List.mem_map_of_mem hr) (List.mem_map_of_mem hs)).resolve_right ?_
    simp only [Range.ends]
    omega
  obtain ⟨h1, h2⟩ := Prod.mk.inj hends
  refine ⟨hends, ?_⟩
  rw [(hmass r hr).weight_eq, (hmass s hs).weight_eq, h1, h2]

/-- **The density** before the set is resized: what is listed, by how often it is. -/
theorem density_of_ranges {ranges : List Range} (hmass : ∀ r ∈ ranges, Massed r)
    (hP : RangeSet.EqualOrDisjoint (Listed ranges)) (x : ℤ) :
    ranges.foldl (addDensity x) 0 = listedDensity ranges x * factor (cover ranges x) / cover ranges x := by
  by_cases hex : ∃ r ∈ ranges, r.start ≤ x ∧ x ≤ r.stop
  · obtain ⟨r, hr, hrx⟩ := hex
    have hpos : 0 < cover ranges x := List.countP_pos_iff.mpr ⟨r, hr, by simpa using hrx⟩
    have hk : (cover ranges x : ℚ) ≠ 0 := by exact_mod_cast hpos.ne'
    obtain ⟨hfold, hlisted⟩ := foldl_addDensity (w := r.weight)
      (fun s hs hsx => (weight_at hmass hP hs hr hsx hrx).2) 0
    rw [hfold, hlisted]
    field_simp
    ring
  · push Not at hex
    have hzero : cover ranges x = 0 := List.countP_eq_zero.mpr fun r hr => by
      simpa using hex r hr
    obtain ⟨hfold, hlisted⟩ := foldl_addDensity (w := 0) (fun s hs hsx => absurd hsx.2 (not_le.mpr (hex s hs hsx.1))) 0
    rw [hfold, hzero]
    simp [factor]

/-- The density before the set is resized. -/
def doubledDensity (ranges : List Range) (x : ℤ) : ℚ := listedDensity ranges x * factor (cover ranges x) / cover ranges x

theorem doubledDensity_perm {ranges others : List Range} (hp : ranges.Perm others) :
    doubledDensity ranges = doubledDensity others := by
  funext x
  have hlisted : listedDensity ranges x = listedDensity others x := (hp.map _).sum_eq
  have hcover : cover ranges x = cover others x := hp.countP_eq _
  rw [doubledDensity, doubledDensity, hlisted, hcover]

/-- An interval is listed as often as each of its integers is covered. -/
theorem cover_eq {ranges : List Range} (hmass : ∀ r ∈ ranges, Massed r)
    (hP : RangeSet.EqualOrDisjoint (Listed ranges)) {r : Range} (hr : r ∈ ranges) {x : ℤ}
    (hrx : r.start ≤ x ∧ x ≤ r.stop) : cover ranges x = times ranges r.ends := by
  rw [times, List.count, List.countP_map]
  refine List.countP_congr fun s hs => ?_
  simp only [decide_eq_true_eq, Function.comp_apply, beq_iff_eq]
  constructor
  · intro hsx
    exact (weight_at hmass hP hs hr hsx hrx).1
  · intro hends
    obtain ⟨h1, h2⟩ := Prod.mk.inj hends
    rw [h1, h2]
    exact hrx

/-- How often an interval is listed decides what is listed there, and what the density is. -/
theorem density_at {ranges : List Range} (hmass : ∀ r ∈ ranges, Massed r)
    (hP : RangeSet.EqualOrDisjoint (Listed ranges)) {r : Range} (hr : r ∈ ranges) {x : ℤ}
    (hrx : r.start ≤ x ∧ x ≤ r.stop) : listedDensity ranges x = r.weight * times ranges r.ends ∧
      doubledDensity ranges x = r.weight * factor (times ranges r.ends) := by
  have hpos : 0 < times ranges r.ends := List.count_pos_iff.mpr (List.mem_map_of_mem hr)
  have hk : (times ranges r.ends : ℚ) ≠ 0 := by exact_mod_cast hpos.ne'
  have hlisted := (foldl_addDensity (w := r.weight) (fun s hs hsx => (weight_at hmass hP hs hr hsx hrx).2) 0).2
  rw [cover_eq hmass hP hr hrx] at hlisted
  refine ⟨hlisted, ?_⟩
  rw [doubledDensity, hlisted, cover_eq hmass hP hr hrx]
  field_simp

/-- There is no density where nothing is listed. -/
theorem density_of_not_mem {ranges : List Range} {x : ℤ} (hx : ∀ r ∈ ranges, ¬ (r.start ≤ x ∧ x ≤ r.stop)) :
    listedDensity ranges x = 0 ∧ doubledDensity ranges x = 0 := by
  have hlisted : listedDensity ranges x = 0 := List.sum_eq_zero fun v hv => by
    obtain ⟨r, hr, rfl⟩ := List.mem_map.mp hv
    exact box_of_not_mem (hx r hr)
  refine ⟨hlisted, ?_⟩
  rw [doubledDensity, hlisted, zero_mul, zero_div]

/-! ### Areas -/

/-- What is listed has the same mass for each range. -/
theorem area_listed {ranges : List Range} (hmass : ∀ r ∈ ranges, Massed r) :
    area (listedDensity ranges) = RANGE_AREA * ranges.length := by
  have hsum : listedDensity ranges = listSum (ranges.map Range.rho) := by
    funext x
    rw [listSum, List.map_map]
    rfl
  have heach : ∀ r ∈ ranges, (area ∘ Range.rho) r = RANGE_AREA := fun r hr => by
    rw [← (hmass r hr).calc_area, Range.calc_area]
    exact area_box _ (by have := (hmass r hr).sane; omega)
  have hboxes : ∀ f ∈ ranges.map Range.rho, (Function.support f).Finite := fun f hf => by
    obtain ⟨r, -, rfl⟩ := List.mem_map.mp hf
    exact finite_support_box _ _ _
  rw [hsum, area_listSum hboxes, List.map_map, List.map_congr_left heach, List.map_const',
    List.sum_replicate, nsmul_eq_mul, mul_comm]

/-- The mixture is what is listed, brought to the area. -/
theorem mixture_eq {ranges : List Range} (hmass : ∀ r ∈ ranges, Massed r) (range_area : ℚ) (x : ℤ) :
    mixture ranges range_area x = range_area * listedDensity ranges x / area (listedDensity ranges) := by
  have heach : ∀ r ∈ ranges, r.rho x =
      (if r.start ≤ x ∧ x ≤ r.stop then 1 / ((r.stop : ℚ) - r.start + 1) else 0) * RANGE_AREA := fun r hr => by
    rw [Range.rho_def, (hmass r hr).weight_eq]
    split_ifs <;> ring
  have hlisted : listedDensity ranges x =
      (ranges.map fun r => if r.start ≤ x ∧ x ≤ r.stop then 1 / ((r.stop : ℚ) - r.start + 1) else 0).sum * RANGE_AREA := by
    rw [listedDensity, List.map_congr_left heach, List.sum_map_mul_right]
  have hne : RANGE_AREA ≠ 0 := by decide +kernel
  rw [area_listed hmass, hlisted, mixture]
  field_simp

/-! ### What is built -/

/-- **What `build` makes** of ranges that are pairwise equal or disjoint. -/
theorem build_doubled {number : Str.Num → Except Fault ℤ} {h : Store Range} (hwf : Range.AllWF h) {rs_strs : List Str}
    (hne : rs_strs ≠ []) (htexts : ∀ t ∈ rs_strs, RangeText number t)
    (hP : RangeSet.EqualOrDisjoint (Listed (allRanges number rs_strs))) {range_area : ℚ} (harea : 0 < range_area) :
    0 < area (doubledDensity (allRanges number rs_strs)) ∧
    ∃ h' range_set, build number h rs_strs range_area = .ok (h', range_set) ∧
      RangeSet.total_area h' range_set = range_area ∧ ∀ x, Range.rhoAt h' range_set x =
        range_area * doubledDensity (allRanges number rs_strs) x / area (doubledDensity (allRanges number rs_strs)) := by
  have hdoubled : addedDensity (allRanges number rs_strs) = doubledDensity (allRanges number rs_strs) := by
    funext x
    rw [addedDensity, density_of_ranges (massed_of_mem htexts) hP, doubledDensity]
  obtain ⟨h', rs, hrun, -, -, harea', hpos, hdens⟩ :=
    build_over hP hwf hne htexts (fun r hr => List.mem_map_of_mem hr) harea
  rw [hdoubled] at hpos hdens
  exact ⟨hpos, h', rs, hrun, harea', hdens⟩

/-- **In any order** of the texts. -/
theorem build_perm {number : Str.Num → Except Fault ℤ} {h : Store Range} (hwf : Range.AllWF h) {rs_strs others : List Str}
    (hperm : rs_strs.Perm others) (hne : rs_strs ≠ []) (htexts : ∀ t ∈ rs_strs, RangeText number t)
    (hP : RangeSet.EqualOrDisjoint (Listed (allRanges number rs_strs))) {range_area : ℚ} (harea : 0 < range_area) :
    ∃ h' range_set, build number h others range_area = .ok (h', range_set) ∧
      RangeSet.total_area h' range_set = range_area ∧ ∀ x, Range.rhoAt h' range_set x =
        range_area * doubledDensity (allRanges number rs_strs) x / area (doubledDensity (allRanges number rs_strs)) := by
  have hperm' : (allRanges number rs_strs).Perm (allRanges number others) := hperm.flatMap_right _
  have hsame : Listed (allRanges number rs_strs) = Listed (allRanges number others) :=
    funext fun p => propext (hperm'.map _).mem_iff
  rw [doubledDensity_perm hperm']
  exact (build_doubled hwf (fun e => hne (List.perm_nil.mp (e ▸ hperm))) (fun t ht => htexts t (hperm.mem_iff.mpr ht))
    (hsame ▸ hP) harea).2

/-- Ranges that are listed equally often are all doubled equally often. -/
theorem doubledDensity_of_equallyOften {ranges : List Range} (hmass : ∀ r ∈ ranges, Massed r)
    (hP : RangeSet.EqualOrDisjoint (Listed ranges)) (heq : EquallyOften ranges) :
    ∃ c, 0 < c ∧ ∀ x, doubledDensity ranges x = c * listedDensity ranges x := by
  rcases ranges.eq_nil_or_concat' with rfl | ⟨rest, r, rfl⟩
  · exact ⟨1, one_pos, fun x => by simp [doubledDensity, cover, factor, listedDensity]⟩
  set ranges := rest ++ [r]
  have hr : r ∈ ranges := List.mem_append_right _ (List.mem_singleton_self r)
  have hk : 0 < times ranges r.ends := List.count_pos_iff.mpr (List.mem_map_of_mem hr)
  have hk' : (0 : ℚ) < times ranges r.ends := by exact_mod_cast hk
  refine ⟨factor (times ranges r.ends) / times ranges r.ends, div_pos (factor_pos hk) hk', fun x => ?_⟩
  by_cases hex : ∃ s ∈ ranges, s.start ≤ x ∧ x ≤ s.stop
  · obtain ⟨s, hs, hsx⟩ := hex
    obtain ⟨hlisted, hdoubled⟩ := density_at hmass hP hs hsx
    have htimes : times ranges s.ends = times ranges r.ends :=
      heq _ (List.mem_map_of_mem hs) _ (List.mem_map_of_mem hr)
    rw [hlisted, hdoubled, htimes]
    field_simp
  · push Not at hex
    obtain ⟨hlisted, hdoubled⟩ := density_of_not_mem fun s hs hsx => absurd hsx.2 (not_le.mpr (hex s hs hsx.1))
    rw [hlisted, hdoubled, mul_zero]

/-- The doubled density is in proportion to what is listed only when the ranges are listed equally often. -/
theorem equallyOften_of_proportional {ranges : List Range} (hmass : ∀ r ∈ ranges, Massed r)
    (hP : RangeSet.EqualOrDisjoint (Listed ranges)) {c : ℚ} (hc : ∀ x, doubledDensity ranges x = c * listedDensity ranges x) :
    EquallyOften ranges := by
  -- the factor of each range, by how often it is listed
  have heach : ∀ r ∈ ranges, factor (times ranges r.ends) = c * times ranges r.ends := by
    intro r hr
    have hat := hc r.start
    obtain ⟨hlisted, hdoubled⟩ := density_at hmass hP hr ⟨le_rfl, (hmass r hr).sane⟩
    rw [hlisted, hdoubled, mul_left_comm] at hat
    exact mul_left_cancel₀ (hmass r hr).weight_pos.ne' hat
  intro p hp q hq
  obtain ⟨r, hr, rfl⟩ := List.mem_map.mp hp
  obtain ⟨s, hs, rfl⟩ := List.mem_map.mp hq
  refine (factor_mul_eq_iff (List.count_pos_iff.mpr hp) (List.count_pos_iff.mpr hq)).mp ?_
  rw [← times, ← times, heach r hr, heach s hs]
  ring

/-- **The mixture** of the ranges is made exactly when they are listed equally often. -/
theorem doubled_eq_mixture_iff {ranges : List Range} (hmass : ∀ r ∈ ranges, Massed r)
    (hP : RangeSet.EqualOrDisjoint (Listed ranges)) (hpos : 0 < area (doubledDensity ranges)) {range_area : ℚ}
    (harea : 0 < range_area) :
    (∀ x, range_area * doubledDensity ranges x / area (doubledDensity ranges) = mixture ranges range_area x) ↔
      EquallyOften ranges := by
  constructor
  · intro hmix
    refine equallyOften_of_proportional hmass hP (c := area (doubledDensity ranges) / area (listedDensity ranges)) fun x => ?_
    have hx := hmix x
    rw [mixture_eq hmass, mul_div_assoc, mul_div_assoc] at hx
    have hx' := mul_left_cancel₀ harea.ne' hx
    rw [div_eq_iff hpos.ne'] at hx'
    rw [hx']
    ring
  · intro heq x
    obtain ⟨c, hcpos, hc⟩ := doubledDensity_of_equallyOften hmass hP heq
    have harea_c : area (doubledDensity ranges) = c * area (listedDensity ranges) := by
      rw [funext hc]
      exact (mul_finsum _ _).symm
    have hne : area (listedDensity ranges) ≠ 0 := fun e => hpos.ne' (by rw [harea_c, e, mul_zero])
    rw [mixture_eq hmass, hc, harea_c]
    field_simp

end Rsf

end SEDiff.Juxta
