import SEDiff.Juxta.RangeConditions

/-!
# Exact conditions

When the condition of a list of ranges is true of exactly the values in the ranges, up to bounds that are those of an integer
type.

## What is proved

* `pair_exact_iff` — of two ranges: each bound that is not printed is that of a type, or the other range makes up for it.
* `parse_ranges_exact_iff` — the conditions that are exact are those of one or two ranges of which this holds.
-/

namespace SEDiff.Juxta.RangeCondition

open Foundation Foundation.Str

/-! ### What is to be shown -/

/-- The smallest value of an integer type. -/
def IsMinimum (n : ℤ) : Prop := n = 0 ∨ ∃ bits ∈ [8, 16, 32, 64], n = -2 ^ (bits - 1)

/-- The greatest value of an integer type. -/
def IsMaximum (n : ℤ) : Prop := ∃ bits ∈ [8, 16, 32, 64], n = 2 ^ (bits - 1) - 1 ∨ n = 2 ^ bits - 1

/-- The values in one of the ranges, some of whose bounds are left out. -/
def Within (lower upper : ℤ × ℤ → Prop) (ranges : List (ℤ × ℤ)) (x : ℤ) : Prop :=
  ∃ r ∈ ranges, (lower r ∨ r.1 ≤ x) ∧ (upper r ∨ x ≤ r.2)

/-- The bounds that are left out are those of integer types. -/
def LeavesOut (lower upper : ℤ × ℤ → Prop) (ranges : List (ℤ × ℤ)) : Prop :=
  ∀ r ∈ ranges, (lower r → IsMinimum r.1) ∧ (upper r → IsMaximum r.2)

/-- **The condition is exact**: a text, true of the values in the ranges. -/
def Exact (T : Signedness) (ranges : List (ℤ × ℤ)) (out : Except PyErr (Option Str)) : Prop :=
  ∃ t c lower upper, out = .ok (some t) ∧ readCondition t = some c ∧ LeavesOut lower upper ranges ∧
    ∀ x, T.Value x → (c.Holds x ↔ Within lower upper ranges x)

/-- Ranges of values of a type, at least one, no two of which have a value in common. -/
structure Ranges (T : Signedness) (ranges : List (ℤ × ℤ)) : Prop where
  /-- There is one. -/
  ne_nil : ranges ≠ []
  /-- Each is of values of the type. -/
  range : ∀ r ∈ ranges, T.Range r
  /-- They are disjoint. -/
  disjoint : ranges.Pairwise fun r s => r.2 < s.1 ∨ s.2 < r.1

/-! ### The condition -/

/-- One range: its bounds are printed, but for those of types, and `!= 0` is said of values that are not negative. -/
def AloneExact (T : Signedness) (r : ℤ × ℤ) : Prop :=
  ¬ Asserts r ∧ (LowerLeft r → IsMinimum r.1) ∧ (UpperLeft r → IsMaximum r.2) ∧ (T = .signed → ¬ NonZero r)

/-- Two ranges with one value between them that are all values but this one, as the source sees it. -/
def AllButOne (low high : ℤ × ℤ) : Prop :=
  (SignedMin low.1 ∧ SignedMax high.2 ∨ low.1 = 0 ∧ UnsignedMax high.2) ∧ high.1 - low.2 = 2

/-- Two ranges that are printed one after the other: a bound that is not printed and is not that of a type is made up for by
the other range. -/
structure ApartExact (T : Signedness) (low high : ℤ × ℤ) : Prop where
  /-- No assertion fails. -/
  lowPrinted : ¬ Asserts low
  /-- No assertion fails. -/
  highPrinted : ¬ Asserts high
  /-- Below the ranges. -/
  lowLower : LowerLeft low → IsMinimum low.1
  /-- `!= 0` is true of all values below. -/
  lowNonZero : T = .signed → ¬ NonZero low
  /-- Above the lower range: the higher one follows without a gap and ends at a bound. -/
  lowUpper : UpperLeft low → IsMaximum low.2 ∨ high.1 = low.2 + 1 ∧ IsMaximum high.2
  /-- Below the higher range: the lower one comes without a gap and begins at a bound. -/
  highLower : LowerLeft high → IsMinimum high.1 ∨ high.1 = low.2 + 1 ∧ IsMinimum low.1
  /-- Above the ranges: the lower one ends at a bound, and is printed without it or followed without a gap. -/
  highUpper : UpperLeft high → IsMaximum high.2 ∨ IsMaximum low.2 ∧ (high.1 = low.2 + 1 ∨ UpperLeft low)
  /-- `!= 0` is true of all values below: the lower range begins at a bound and ends at `-1` or `0`. -/
  highNonZero : T = .signed → NonZero high → IsMinimum low.1 ∧ (low.2 = -1 ∨ low.2 = 0)

/-- The ranges of which the condition is exact. -/
def PairExact (T : Signedness) (low high : ℤ × ℤ) : Prop :=
  AllButOne low high ∧ IsMaximum high.2 ∨ ¬ AllButOne low high ∧ ApartExact T low high

/-- **The ranges** of which the condition is exact: one, or two. -/
def RangesExact (T : Signedness) : List (ℤ × ℤ) → Prop
  | [r] => AloneExact T r
  | [r, s] => (r.2 < s.1 → PairExact T r s) ∧ (s.2 < r.1 → PairExact T s r)
  | _ => False

/-! ### Bounds -/

theorem isMinimum_iff {n : ℤ} : IsMinimum n ↔ n = 0 ∨ n = -128 ∨ n = -32768 ∨ n = -2147483648 ∨ n = -9223372036854775808 := by
  simp [IsMinimum]

theorem isMaximum_iff {n : ℤ} : IsMaximum n ↔ n = 127 ∨ n = 255 ∨ n = 32767 ∨ n = 65535 ∨ n = 2147483647 ∨ n = 4294967295 ∨
    n = 9223372036854775807 ∨ n = 18446744073709551615 := by
  simp [IsMaximum, or_assoc]

variable {T : Signedness} {r s low high : ℤ × ℤ} {x : ℤ} {lower upper : ℤ × ℤ → Prop}

/-- Below a range that does not begin at a bound there is a value. -/
theorem value_below (h : T.Range r) (hmin : ¬ IsMinimum r.1) : T.Value (r.1 - 1) := by
  have hlower := h.lower
  have hle := h.le
  have hupper := h.upper
  rw [isMinimum_iff] at hmin
  cases T <;> simp only [Signedness.Value, Signedness.min, Signedness.max] at * <;> omega

/-- Above a range that does not end at a bound there is a value. -/
theorem value_above (h : T.Range r) (hmax : ¬ IsMaximum r.2) : T.Value (r.2 + 1) := by
  have hlower := h.lower
  have hle := h.le
  have hupper := h.upper
  rw [isMaximum_iff] at hmax
  cases T <;> simp only [Signedness.Value, Signedness.min, Signedness.max] at * <;> omega

theorem IsMinimum.le {n : ℤ} (h : IsMinimum n) : n ≤ 0 := by
  rw [isMinimum_iff] at h
  omega

theorem IsMaximum.ge {n : ℤ} (h : IsMaximum n) : 127 ≤ n := by
  rw [isMaximum_iff] at h
  omega

/-- The lower bounds that are lost. -/
theorem LowerLeft.lost (h : LowerLeft r) (hmin : ¬ IsMinimum r.1) : r.2 = -32768 ∨ r.2 = -128 := by
  rw [isMinimum_iff] at hmin
  have := (lowerLeft_iff.mp h).2.2
  omega

/-- The upper bound that is lost. -/
theorem UpperLeft.lost (h : UpperLeft r) (hmax : ¬ IsMaximum r.2) : r.2 = 65536 := by
  rw [isMaximum_iff] at hmax
  rcases h.2 with hs | ⟨hu, -⟩
  · rw [signedMax_iff] at hs
    omega
  · rw [unsignedMax_iff] at hu
    omega

/-! ### What is shown -/

theorem NonZero.upperLeft (h : NonZero r) : UpperLeft r := by
  refine ⟨h.2.1, .inr ⟨h.2.2, fun hl => ?_⟩⟩
  have hmin := (lowerLeft_iff.mp hl).2.2
  have hmax := unsignedMax_iff.mp h.2.2
  have hone := h.1
  omega

theorem LowerLeft.not_nonZero (h : LowerLeft r) : ¬ NonZero r := fun hn =>
  hn.upperLeft.2.elim h.2.1 fun hu => hu.2 h

theorem LowerLeft.not_upperLeft (h : LowerLeft r) : ¬ UpperLeft r := fun hu => hu.2.elim h.2.1 fun hu => hu.2 h

theorem shown_self (hl : r.1 ≤ x) (hu : x ≤ r.2) : Shown r x := by
  by_cases hn : NonZero r
  · have hone := hn.1
    exact .inl ⟨hn, by omega⟩
  · exact .inr ⟨hn, .inr hl, .inr hu⟩

theorem shown_below (h : LowerLeft r) (hx : x ≤ r.2) : Shown r x := .inr ⟨h.not_nonZero, .inl h, .inr hx⟩

theorem shown_above (h : UpperLeft r) (hx : r.1 ≤ x) : Shown r x := by
  by_cases hn : NonZero r
  · have hone := hn.1
    exact .inl ⟨hn, by omega⟩
  · exact .inr ⟨hn, .inr hx, .inl h⟩

theorem shown_nonZero (h : NonZero r) (hx : x ≠ 0) : Shown r x := .inl ⟨h, hx⟩

/-- What is shown below a range. -/
theorem of_shown_below (h : Shown r x) (hx : x < r.1) : NonZero r ∨ LowerLeft r := by
  rcases h with ⟨hn, -⟩ | ⟨-, hl | hle, -⟩
  · exact .inl hn
  · exact .inr hl
  · omega

/-- What is shown above a range. -/
theorem of_shown_above (h : Shown r x) (hx : r.2 < x) : UpperLeft r := by
  rcases h with ⟨hn, -⟩ | ⟨-, -, hu | hle⟩
  · exact hn.upperLeft
  · exact hu
  · omega

/-- `!= 0` is said of values that are not negative. -/
theorem shown_iff (hn : T = .signed → ¬ NonZero r) (hx : T.Value x) :
    Shown r x ↔ (LowerLeft r ∨ r.1 ≤ x) ∧ (UpperLeft r ∨ x ≤ r.2) := by
  by_cases hnz : NonZero r
  · have hzero : 0 ≤ x := by
      cases T with
      | signed => exact absurd hnz (hn rfl)
      | unsigned => exact hx.1
    have hone := hnz.1
    have hl : ¬ LowerLeft r := fun hl => hl.not_nonZero hnz
    simp only [Shown, hnz, hl, hnz.upperLeft, true_and, not_true_eq_false, false_and, or_false, false_or, true_or, and_true]
    omega
  · simp [Shown, hnz]

/-! ### Bounds that are left out -/

/-- What is shown of the ranges is what is in them, up to bounds of types. -/
def Fits (T : Signedness) (shown : ℤ → Prop) (ranges : List (ℤ × ℤ)) : Prop :=
  ∃ lower upper, LeavesOut lower upper ranges ∧ ∀ x, T.Value x → (shown x ↔ Within lower upper ranges x)

theorem within_singleton : Within lower upper [r] x ↔ (lower r ∨ r.1 ≤ x) ∧ (upper r ∨ x ≤ r.2) := by
  simp [Within]

theorem within_pair : Within lower upper [r, s] x ↔
    (lower r ∨ r.1 ≤ x) ∧ (upper r ∨ x ≤ r.2) ∨ (lower s ∨ s.1 ≤ x) ∧ (upper s ∨ x ≤ s.2) := by
  simp [Within]

theorem fits_swap {shown : ℤ → Prop} : Fits T shown [r, s] ↔ Fits T shown [s, r] := by
  have hswap : ∀ {r s : ℤ × ℤ}, Fits T shown [r, s] → Fits T shown [s, r] := by
    rintro r s ⟨lower, upper, hleft, hfit⟩
    refine ⟨lower, upper, fun q hq => hleft q (by simpa [or_comm] using hq), fun x hx => ?_⟩
    rw [hfit x hx, within_pair, within_pair, or_comm]
  exact ⟨hswap, hswap⟩

/-- **One range**: its bounds are printed, but for those of types. -/
theorem fits_alone_iff (h : T.Range r) (ha : ¬ Asserts r) : Fits T (Shown r) [r] ↔ AloneExact T r := by
  constructor
  · rintro ⟨lower, upper, hleft, hfit⟩
    obtain ⟨hmin, hmax⟩ := hleft r List.mem_cons_self
    simp only [within_singleton] at hfit
    refine ⟨ha, fun hl => ?_, fun hu => ?_, fun hT hn => ?_⟩
    · by_contra hnot
      have hle := h.le
      rcases ((hfit _ (value_below h hnot)).mp (shown_below hl (by omega))).1 with hlow | hlow
      · exact hnot (hmin hlow)
      · omega
    · by_contra hnot
      have hle := h.le
      rcases ((hfit _ (value_above h hnot)).mp (shown_above hu (by omega))).2 with hup | hup
      · exact hnot (hmax hup)
      · omega
    · have hone := hn.1
      have hvalue : T.Value (-1) := hT ▸ ⟨by decide, by decide⟩
      rcases ((hfit _ hvalue).mp (shown_nonZero hn (by omega))).1 with hlow | hlow
      · have := (hmin hlow).le
        omega
      · omega
  · rintro ⟨-, hl, hu, hn⟩
    refine ⟨LowerLeft, UpperLeft, fun q hq => ?_, fun x hx => ?_⟩
    · rw [List.mem_singleton.mp hq]
      exact ⟨hl, hu⟩
    · rw [within_singleton, shown_iff hn hx]

/-- Two ranges, and bounds of them that are left out such that what is shown of the ranges is what is in them. -/
structure Fitted (T : Signedness) (low high : ℤ × ℤ) (lower upper : ℤ × ℤ → Prop) : Prop where
  /-- The lower range. -/
  rangeLow : T.Range low
  /-- The higher range. -/
  rangeHigh : T.Range high
  /-- They are disjoint. -/
  lt : low.2 < high.1
  /-- The bounds. -/
  left : LeavesOut lower upper [low, high]
  /-- The values. -/
  fits : ∀ x, T.Value x → (Shown low x ∨ Shown high x ↔ Within lower upper [low, high] x)

namespace Fitted

variable (h : Fitted T low high lower upper)

include h

/-- A value that is shown is in one of the ranges. -/
theorem cases_of_shown (hx : T.Value x) (hshown : Shown low x ∨ Shown high x) :
    ((IsMinimum low.1 ∧ lower low ∨ low.1 ≤ x) ∧ (IsMaximum low.2 ∧ upper low ∨ x ≤ low.2)) ∨
      ((IsMinimum high.1 ∧ lower high ∨ high.1 ≤ x) ∧ (IsMaximum high.2 ∧ upper high ∨ x ≤ high.2)) := by
  obtain ⟨hmin, hmax⟩ := h.left low List.mem_cons_self
  obtain ⟨hmin', hmax'⟩ := h.left high (List.mem_cons_of_mem _ List.mem_cons_self)
  refine (within_pair.mp ((h.fits x hx).mp hshown)).imp (fun hw => ?_) fun hw => ?_
  · exact ⟨hw.1.imp_left fun hl => ⟨hmin hl, hl⟩, hw.2.imp_left fun hu => ⟨hmax hu, hu⟩⟩
  · exact ⟨hw.1.imp_left fun hl => ⟨hmin' hl, hl⟩, hw.2.imp_left fun hu => ⟨hmax' hu, hu⟩⟩

theorem lowLower (hl : LowerLeft low) : IsMinimum low.1 := by
  by_contra hnot
  have hle := h.rangeLow.le
  have hlt := h.lt
  have hlost := hl.lost hnot
  rcases h.cases_of_shown (value_below h.rangeLow hnot) (.inl (shown_below hl (by omega))) with
    ⟨⟨hmin, -⟩ | hmin, -⟩ | ⟨⟨hmin, hleft⟩ | hmin, -⟩
  · exact hnot hmin
  · omega
  · -- the higher range would begin at a bound that is left out, but there is a value before it that is not shown
    have hlow := h.rangeLow.lower
    have hhigh := h.rangeHigh.upper
    have hvalue : T.Value (high.1 - 1) := ⟨by omega, by have := h.rangeHigh.le; omega⟩
    have hshown : Shown low (high.1 - 1) ∨ Shown high (high.1 - 1) :=
      (h.fits _ hvalue).mpr (within_pair.mpr (.inr ⟨.inl hleft, .inr (by have := h.rangeHigh.le; omega)⟩))
    rw [isMinimum_iff] at hmin
    rcases hshown with hshown | hshown
    · exact hl.not_upperLeft (of_shown_above hshown (by omega))
    · rcases of_shown_below hshown (by omega) with hn | hl'
      · have hone := hn.1
        omega
      · have := (lowerLeft_iff.mp hl').2.2
        have hne := hl'.1
        have := h.rangeHigh.le
        omega
  · omega

theorem lowNonZero (hT : T = .signed) : ¬ NonZero low := fun hn => by
  have hone := hn.1
  have hle := h.rangeLow.le
  have hlt := h.lt
  have hvalue : T.Value (-1) := hT ▸ ⟨by decide, by decide⟩
  rcases h.cases_of_shown hvalue (.inl (shown_nonZero hn (by omega))) with ⟨⟨hmin, -⟩ | hmin, -⟩ | ⟨⟨hmin, -⟩ | hmin, -⟩
  · have := hmin.le
    omega
  · omega
  · have := hmin.le
    omega
  · omega

theorem lowUpper (hu : UpperLeft low) : IsMaximum low.2 ∨ high.1 = low.2 + 1 ∧ IsMaximum high.2 := by
  by_contra hnot
  rw [not_or, not_and] at hnot
  have hle := h.rangeLow.le
  have hlt := h.lt
  have hlost := hu.lost hnot.1
  have hgap : high.1 = low.2 + 1 := by
    rcases h.cases_of_shown (value_above h.rangeLow hnot.1) (.inl (shown_above hu (by omega))) with
      ⟨-, ⟨hmax, -⟩ | hmax⟩ | ⟨⟨hmin, -⟩ | hmin, -⟩
    · exact absurd hmax hnot.1
    · omega
    · have := hmin.le
      omega
    · omega
  have hle' := h.rangeHigh.le
  have hmax' := hnot.2 hgap
  rcases h.cases_of_shown (value_above h.rangeHigh hmax') (.inl (shown_above hu (by omega))) with
    ⟨-, ⟨hmax, -⟩ | hmax⟩ | ⟨-, ⟨hmax, -⟩ | hmax⟩
  · exact hnot.1 hmax
  · omega
  · exact hmax' hmax
  · omega

theorem highLower (hl : LowerLeft high) : IsMinimum high.1 ∨ high.1 = low.2 + 1 ∧ IsMinimum low.1 := by
  by_contra hnot
  rw [not_or, not_and] at hnot
  have hle := h.rangeLow.le
  have hle' := h.rangeHigh.le
  have hlt := h.lt
  have hlost := hl.lost hnot.1
  have hgap : high.1 = low.2 + 1 := by
    rcases h.cases_of_shown (value_below h.rangeHigh hnot.1) (.inr (shown_below hl (by omega))) with
      ⟨-, ⟨hmax, -⟩ | hmax⟩ | ⟨⟨hmin, -⟩ | hmin, -⟩
    · have := hmax.ge
      omega
    · omega
    · exact absurd hmin hnot.1
    · omega
  have hmin' := hnot.2 hgap
  rcases h.cases_of_shown (value_below h.rangeLow hmin') (.inr (shown_below hl (by omega))) with
    ⟨⟨hmin, -⟩ | hmin, -⟩ | ⟨⟨hmin, -⟩ | hmin, -⟩
  · exact hmin' hmin
  · omega
  · exact hnot.1 hmin
  · omega

theorem highUpper (hu : UpperLeft high) :
    IsMaximum high.2 ∨ IsMaximum low.2 ∧ (high.1 = low.2 + 1 ∨ UpperLeft low) := by
  by_cases hnot : IsMaximum high.2
  · exact .inl hnot
  have hle := h.rangeLow.le
  have hle' := h.rangeHigh.le
  have hlt := h.lt
  have hlost := hu.lost hnot
  have hlow : IsMaximum low.2 ∧ upper low := by
    rcases h.cases_of_shown (value_above h.rangeHigh hnot) (.inr (shown_above hu (by omega))) with
      ⟨-, hmax | hmax⟩ | ⟨-, ⟨hmax, -⟩ | hmax⟩
    · exact hmax
    · omega
    · exact absurd hmax hnot
    · omega
  refine .inr ⟨hlow.1, or_iff_not_imp_left.mpr fun hgap => ?_⟩
  -- the value after the lower range is in it, since its upper bound is left out
  have hvalue : T.Value (low.2 + 1) := ⟨by have := h.rangeLow.lower; omega, by have := h.rangeHigh.upper; omega⟩
  have hshown : Shown low (low.2 + 1) ∨ Shown high (low.2 + 1) :=
    (h.fits _ hvalue).mpr (within_pair.mpr (.inl ⟨.inr (by omega), .inl hlow.2⟩))
  rcases hshown with hshown | hshown
  · exact of_shown_above hshown (by omega)
  · rcases of_shown_below hshown (by omega) with hn | hl
    · have hone := hn.1
      have := hlow.1.ge
      omega
    · exact absurd hu hl.not_upperLeft

theorem highNonZero (hT : T = .signed) (hn : NonZero high) : IsMinimum low.1 ∧ (low.2 = -1 ∨ low.2 = 0) := by
  have hone := hn.1
  have hle := h.rangeLow.le
  have hlt := h.lt
  have hvalue : T.Value (-1) := hT ▸ ⟨by decide, by decide⟩
  have hlow : low.2 = -1 ∨ low.2 = 0 := by
    rcases h.cases_of_shown hvalue (.inr (shown_nonZero hn (by omega))) with
      ⟨-, ⟨hmax, -⟩ | hmax⟩ | ⟨⟨hmin, -⟩ | hmin, -⟩
    · have := hmax.ge
      omega
    · omega
    · have := hmin.le
      omega
    · omega
  refine ⟨?_, hlow⟩
  by_contra hnot
  rcases h.cases_of_shown (value_below h.rangeLow hnot) (.inr (shown_nonZero hn (by omega))) with
    ⟨⟨hmin, -⟩ | hmin, -⟩ | ⟨⟨hmin, -⟩ | hmin, -⟩
  · exact hnot hmin
  · omega
  · have := hmin.le
    omega
  · omega

end Fitted

/-- The lower bound of the lower range is left out. -/
def LeavesLower (T : Signedness) (low high : ℤ × ℤ) : Prop :=
  LowerLeft low ∨ LowerLeft high ∧ ¬ IsMinimum high.1 ∨ T = .signed ∧ NonZero high

/-- The upper bound of the lower range is left out. -/
def LeavesUpper (low high : ℤ × ℤ) : Prop :=
  UpperLeft low ∧ IsMaximum low.2 ∨ UpperLeft high ∧ ¬ IsMaximum high.2

/-- The upper bound of the higher range is left out. -/
def LeavesUpper' (low high : ℤ × ℤ) : Prop :=
  UpperLeft high ∧ IsMaximum high.2 ∨ UpperLeft low ∧ ¬ IsMaximum low.2

namespace ApartExact

variable (h : ApartExact T low high)

include h

/-- What is shown of the lower range is in one of the ranges. -/
theorem within_of_shown_low (hx : T.Value x) (hshown : Shown low x) :
    (LeavesLower T low high ∨ low.1 ≤ x) ∧ (LeavesUpper low high ∨ x ≤ low.2) ∨
      (LowerLeft high ∧ IsMinimum high.1 ∨ high.1 ≤ x) ∧ (LeavesUpper' low high ∨ x ≤ high.2) := by
  obtain ⟨hl, hu⟩ := (shown_iff h.lowNonZero hx).mp hshown
  have hl' : LeavesLower T low high ∨ low.1 ≤ x := hl.imp_left .inl
  by_cases hle : x ≤ low.2
  · exact .inl ⟨hl', .inr hle⟩
  have hleft : UpperLeft low := hu.resolve_right hle
  by_cases hmax : IsMaximum low.2
  · exact .inl ⟨hl', .inl (.inl ⟨hleft, hmax⟩)⟩
  · have hgap := ((h.lowUpper hleft).resolve_left hmax).1
    exact .inr ⟨.inr (by omega), .inl (.inr ⟨hleft, hmax⟩)⟩

/-- What is shown of the higher range is in one of the ranges. -/
theorem within_of_shown_high (hle : low.1 ≤ low.2) (hlt : low.2 < high.1) (hx : T.Value x) (hshown : Shown high x) :
    (LeavesLower T low high ∨ low.1 ≤ x) ∧ (LeavesUpper low high ∨ x ≤ low.2) ∨
      (LowerLeft high ∧ IsMinimum high.1 ∨ high.1 ≤ x) ∧ (LeavesUpper' low high ∨ x ≤ high.2) := by
  -- above the higher range
  have habove : UpperLeft high → high.1 ≤ x →
      (LeavesLower T low high ∨ low.1 ≤ x) ∧ (LeavesUpper low high ∨ x ≤ low.2) ∨
        (LowerLeft high ∧ IsMinimum high.1 ∨ high.1 ≤ x) ∧ (LeavesUpper' low high ∨ x ≤ high.2) := fun hu hge => by
    by_cases hmax : IsMaximum high.2
    · exact .inr ⟨.inr hge, .inl (.inl ⟨hu, hmax⟩)⟩
    · exact .inl ⟨.inr (by omega), .inl (.inr ⟨hu, hmax⟩)⟩
  by_cases hsigned : T = .signed ∧ NonZero high
  · obtain ⟨-, hlow⟩ := h.highNonZero hsigned.1 hsigned.2
    have hone := hsigned.2.1
    by_cases hneg : x < 0
    · exact .inl ⟨.inl (.inr (.inr hsigned)), .inr (by omega)⟩
    · rcases hshown with ⟨-, hne⟩ | ⟨hn, -⟩
      · exact habove hsigned.2.upperLeft (by omega)
      · exact absurd hsigned.2 hn
  · obtain ⟨hl, hu⟩ := (shown_iff (fun hT hn => hsigned ⟨hT, hn⟩) hx).mp hshown
    by_cases hge : high.1 ≤ x
    · rcases hu with hu | hu
      · exact habove hu hge
      · exact .inr ⟨.inr hge, .inr hu⟩
    · have hleft : LowerLeft high := hl.resolve_right hge
      have hu' : x ≤ high.2 := hu.resolve_left hleft.not_upperLeft
      by_cases hmin : IsMinimum high.1
      · exact .inr ⟨.inl ⟨hleft, hmin⟩, .inr hu'⟩
      · have hgap := ((h.highLower hleft).resolve_left hmin).1
        exact .inl ⟨.inl (.inr (.inl ⟨hleft, hmin⟩)), .inr (by omega)⟩

/-- What is in the lower range is shown. -/
theorem shown_of_within_low (hle : low.1 ≤ low.2) (hle' : high.1 ≤ high.2) (hlt : low.2 < high.1)
    (hl : LeavesLower T low high ∨ low.1 ≤ x) (hu : LeavesUpper low high ∨ x ≤ low.2) : Shown low x ∨ Shown high x := by
  by_cases hge : low.1 ≤ x
  · by_cases hlow : x ≤ low.2
    · exact .inl (shown_self hge hlow)
    · rcases hu.resolve_right hlow with ⟨hu, -⟩ | ⟨hu, hmax⟩
      · exact .inl (shown_above hu hge)
      · rcases ((h.highUpper hu).resolve_left hmax).2 with hgap | hu'
        · exact .inr (shown_above hu (by omega))
        · exact .inl (shown_above hu' hge)
  · rcases hl.resolve_right hge with hl | ⟨hl, -⟩ | ⟨hT, hn⟩
    · exact .inl (shown_below hl (by omega))
    · exact .inr (shown_below hl (by omega))
    · have := (h.highNonZero hT hn).1.le
      exact .inr (shown_nonZero hn (by omega))

omit h in
/-- What is in the higher range is shown. -/
theorem shown_of_within_high (hle : low.1 ≤ low.2) (hle' : high.1 ≤ high.2) (hlt : low.2 < high.1)
    (hl : LowerLeft high ∧ IsMinimum high.1 ∨ high.1 ≤ x) (hu : LeavesUpper' low high ∨ x ≤ high.2) :
    Shown low x ∨ Shown high x := by
  by_cases hge : high.1 ≤ x
  · by_cases hhigh : x ≤ high.2
    · exact .inr (shown_self hge hhigh)
    · rcases hu.resolve_right hhigh with ⟨hu, -⟩ | ⟨hu, -⟩
      · exact .inr (shown_above hu hge)
      · exact .inl (shown_above hu (by omega))
  · exact .inr (shown_below (hl.resolve_right hge).1 (by omega))

/-- The bounds that are left out are those of types. -/
theorem leavesOut :
    (LeavesLower T low high → IsMinimum low.1) ∧ (LeavesUpper low high → IsMaximum low.2) ∧
      (LeavesUpper' low high → IsMaximum high.2) := by
  refine ⟨?_, ?_, ?_⟩
  · rintro (hl | ⟨hl, hmin⟩ | ⟨hT, hn⟩)
    · exact h.lowLower hl
    · exact ((h.highLower hl).resolve_left hmin).2
    · exact (h.highNonZero hT hn).1
  · rintro (⟨-, hmax⟩ | ⟨hu, hmax⟩)
    · exact hmax
    · exact ((h.highUpper hu).resolve_left hmax).1
  · rintro (⟨-, hmax⟩ | ⟨hu, hmax⟩)
    · exact hmax
    · exact ((h.lowUpper hu).resolve_left hmax).2

end ApartExact

/-- **Two ranges that are printed one after the other**: each bound that is not printed is that of a type, or the other range
makes up for it. -/
theorem fits_pair_iff (hlow : T.Range low) (hhigh : T.Range high) (hlt : low.2 < high.1) (ha : ¬ Asserts low)
    (ha' : ¬ Asserts high) : Fits T (fun x => Shown low x ∨ Shown high x) [low, high] ↔ ApartExact T low high := by
  have hle := hlow.le
  have hle' := hhigh.le
  constructor
  · rintro ⟨lower, upper, hleft, hfit⟩
    have h : Fitted T low high lower upper := ⟨hlow, hhigh, hlt, hleft, hfit⟩
    exact ⟨ha, ha', h.lowLower, h.lowNonZero, h.lowUpper, h.highLower, h.highUpper, h.highNonZero⟩
  · intro h
    have hne : high ≠ low := fun heq => by
      rw [heq] at hlt
      omega
    obtain ⟨hmin, hmax, hmax'⟩ := h.leavesOut
    let lower : ℤ × ℤ → Prop := fun r => if r = low then LeavesLower T low high else LowerLeft high ∧ IsMinimum high.1
    let upper : ℤ × ℤ → Prop := fun r => if r = low then LeavesUpper low high else LeavesUpper' low high
    refine ⟨lower, upper, ?_, fun x hx => ?_⟩
    · have hhigh' : (lower high → IsMinimum high.1) ∧ (upper high → IsMaximum high.2) := by
        simpa only [lower, upper, if_neg hne] using And.intro And.right hmax'
      have hlow' : (lower low → IsMinimum low.1) ∧ (upper low → IsMaximum low.2) := by
        simpa only [lower, upper, if_true] using And.intro hmin hmax
      exact List.forall_mem_cons.mpr ⟨hlow', List.forall_mem_singleton.mpr hhigh'⟩
    · simp only [within_pair, lower, upper, if_true, if_neg hne]
      constructor
      · rintro (hshown | hshown)
        · exact h.within_of_shown_low hx hshown
        · exact h.within_of_shown_high hle hlt hx hshown
      · rintro (⟨hl, hu⟩ | ⟨hl, hu⟩)
        · exact h.shown_of_within_low hle hle' hlt hl hu
        · exact ApartExact.shown_of_within_high hle hle' hlt hl hu

/-- **Two ranges with one value between them** are printed without it, and without their bounds. -/
theorem fits_gap_iff (hlow : T.Range low) (hhigh : T.Range high) (hall : AllButOne low high) :
    Fits T (fun x => x ≠ low.2 + 1) [low, high] ↔ IsMaximum high.2 := by
  have hle := hlow.le
  have hle' := hhigh.le
  obtain ⟨hends, hgap⟩ := hall
  constructor
  · rintro ⟨lower, upper, hleft, hfit⟩
    by_contra hnot
    obtain ⟨-, hmax⟩ := hleft low List.mem_cons_self
    obtain ⟨-, hmax'⟩ := hleft high (List.mem_cons_of_mem _ List.mem_cons_self)
    simp only [within_pair] at hfit
    -- what is above the higher range is in the lower one, and so is the value between them
    have hupper : upper low := by
      rcases (hfit _ (value_above hhigh hnot)).mp (by omega) with ⟨-, hu | hu⟩ | ⟨-, hu | hu⟩
      · exact hu
      · omega
      · exact absurd (hmax' hu) hnot
      · omega
    have hvalue : T.Value (low.2 + 1) := ⟨by have := hlow.lower; omega, by have := hhigh.upper; omega⟩
    exact (hfit _ hvalue).mpr (.inl ⟨.inr (by omega), .inl hupper⟩) rfl
  · intro hmax
    have hmin : IsMinimum low.1 := by
      rw [isMinimum_iff]
      rcases hends with ⟨hmin, -⟩ | ⟨hmin, -⟩
      · rcases hmin with hmin | hmin | hmin | hmin
        · exact .inr (.inr (.inr (.inr hmin)))
        · exact .inr (.inr (.inr (.inl hmin)))
        · exact .inr (.inr (.inl hmin))
        · exact .inr (.inl hmin)
      · exact .inl hmin
    have hne : high ≠ low := fun heq => by
      rw [heq] at hgap
      omega
    refine ⟨fun r => r = low, fun r => r = high, ?_, fun x _ => ?_⟩
    · refine List.forall_mem_cons.mpr ⟨⟨fun _ => hmin, fun heq => absurd heq.symm hne⟩, List.forall_mem_singleton.mpr ?_⟩
      exact ⟨fun heq => absurd heq hne, fun _ => hmax⟩
    · simp only [within_pair, hne, hne.symm, true_or, true_and, false_or, and_true]
      omega

/-! ### What is printed -/

/-- What is exact is what fits. -/
theorem exact_iff_fits {ranges : List (ℤ × ℤ)} {shown : ℤ → Prop} {t : Str} {c : Condition}
    (hread : readCondition t = some c) (hshown : ∀ x, T.Value x → (c.Holds x ↔ shown x)) :
    Exact T ranges (.ok (some t)) ↔ Fits T shown ranges := by
  constructor
  · rintro ⟨t', c', lower, upper, hout, hread', hleft, hfit⟩
    obtain rfl := Option.some.inj (Except.ok.inj hout)
    obtain rfl := Option.some.inj (hread.symm.trans hread')
    exact ⟨lower, upper, hleft, fun x hx => (hshown x hx).symm.trans (hfit x hx)⟩
  · rintro ⟨lower, upper, hleft, hfit⟩
    exact ⟨t, c, lower, upper, rfl, hread, hleft, fun x hx => (hshown x hx).trans (hfit x hx)⟩

/-- The two orders of two ranges. -/
def Orders (r s low high : ℤ × ℤ) : Prop := r = low ∧ s = high ∨ r = high ∧ s = low

theorem Orders.fits_iff (h : Orders r s low high) {shown : ℤ → Prop} : Fits T shown [r, s] ↔ Fits T shown [low, high] := by
  rcases h with ⟨rfl, rfl⟩ | ⟨rfl, rfl⟩
  · exact Iff.rfl
  · exact fits_swap

/-- The ranges are swapped when they come in the other order. -/
theorem Orders.swap (h : Orders r s low high) (hle : low.1 ≤ low.2) (hle' : high.1 ≤ high.2) (hlt : low.2 < high.1) :
    (if r.2 > s.1 then (s, r) else (r, s)) = (low, high) := by
  rcases h with ⟨rfl, rfl⟩ | ⟨rfl, rfl⟩
  · rw [if_neg (by omega)]
  · rw [if_pos (by omega)]

theorem parse_range_pair_gap (h : Orders r s low high) (hle : low.1 ≤ low.2) (hle' : high.1 ≤ high.2) (hlt : low.2 < high.1)
    (hall : AllButOne low high) : _parse_range_pair r s = .ok ("!= ".toList ++ ofInt (low.2 + 1)) := by
  obtain ⟨lb1, ub1⟩ := low
  obtain ⟨lb2, ub2⟩ := high
  obtain ⟨hends, hgap⟩ := hall
  have hmid : (lb2 + ub1) / 2 = ub1 + 1 := by
    dsimp only at hgap
    omega
  rw [_parse_range_pair, h.swap hle hle' hlt]
  dsimp only at hgap hlt hends ⊢
  rw [pyAssert_of_true hlt, ok_bind, hmid]
  rcases hends with hends | hends
  · rw [if_pos ⟨hends.1, hends.2, hgap⟩]
    rfl
  · split_ifs with hs hu
    · rfl
    · rfl
    · exact absurd ⟨hends.1, hends.2, hgap⟩ hu

theorem parse_range_pair_apart (h : Orders r s low high) (hle : low.1 ≤ low.2) (hle' : high.1 ≤ high.2)
    (hlt : low.2 < high.1) (hall : ¬ AllButOne low high) : _parse_range_pair r s = do
      let vl1 ← _parse_range r
      let vl2 ← _parse_range s
      return vl1 ++ " || ".toList ++ vl2 := by
  obtain ⟨lb1, ub1⟩ := low
  obtain ⟨lb2, ub2⟩ := high
  rw [_parse_range_pair, h.swap hle hle' hlt]
  dsimp only at hlt ⊢
  rw [pyAssert_of_true hlt, ok_bind, if_neg fun hs => hall ⟨.inl ⟨hs.1, hs.2.1⟩, hs.2.2⟩,
    if_neg fun hu => hall ⟨.inr ⟨hu.1, hu.2.1⟩, hu.2.2⟩]

/-- A condition that cannot be printed is not exact. -/
theorem not_exact_error {ranges : List (ℤ × ℤ)} {e : PyErr} : ¬ Exact T ranges (.error e) := by
  rintro ⟨t, c, lower, upper, hout, -⟩
  cases hout

/-- The condition of one range. -/
theorem exact_alone_iff (h : T.Range r) : Exact T [r] (_parse_ranges [r]) ↔ AloneExact T r := by
  rw [_parse_ranges]
  by_cases ha : Asserts r
  · rw [(parse_range_spec h).1 ha]
    exact iff_of_false not_exact_error fun he => he.1 ha
  · obtain ⟨t, c, hprint, hread, hshown⟩ := (parse_range_spec h).2 ha
    rw [hprint]
    exact (exact_iff_fits hread hshown).trans (fits_alone_iff h ha)

/-- The condition of two ranges, in either order. -/
theorem exact_pair_iff (ho : Orders r s low high) (hlow : T.Range low) (hhigh : T.Range high) (hlt : low.2 < high.1) :
    Exact T [r, s] (_parse_ranges [r, s]) ↔ PairExact T low high := by
  rw [_parse_ranges, PairExact]
  by_cases hall : AllButOne low high
  · have hread : readCondition ("!= ".toList ++ ofInt (low.2 + 1)) = some [[.compare .ne (low.2 + 1)]] :=
      @read_test "!=".toList _ _ (by decide) (printed_ofInt _).word (readTest_printed rfl (printed_ofInt _))
    rw [parse_range_pair_gap ho hlow.le hhigh.le hlt hall]
    refine (exact_iff_fits hread fun x _ => holds_singleton).trans ?_
    rw [ho.fits_iff]
    refine (fits_gap_iff hlow hhigh hall).trans ⟨fun hmax => .inl ⟨hall, hmax⟩, fun h => ?_⟩
    rcases h with ⟨-, hmax⟩ | ⟨hnot, -⟩
    · exact hmax
    · exact absurd hall hnot
  · have hiff : AllButOne low high ∧ IsMaximum high.2 ∨ ¬ AllButOne low high ∧ ApartExact T low high ↔
        ApartExact T low high := by simp [hall]
    rw [parse_range_pair_apart ho hlow.le hhigh.le hlt hall, hiff]
    have hr : T.Range r := by
      rcases ho with ⟨rfl, -⟩ | ⟨rfl, -⟩
      · exact hlow
      · exact hhigh
    have hs : T.Range s := by
      rcases ho with ⟨-, rfl⟩ | ⟨-, rfl⟩
      · exact hhigh
      · exact hlow
    have hnot : Asserts r ∨ Asserts s → ¬ ApartExact T low high := by
      rcases ho with ⟨rfl, rfl⟩ | ⟨rfl, rfl⟩
      · exact fun ha h => ha.elim h.lowPrinted h.highPrinted
      · exact fun ha h => ha.elim h.highPrinted h.lowPrinted
    by_cases ha : Asserts r
    · rw [(parse_range_spec hr).1 ha]
      exact iff_of_false not_exact_error (hnot (.inl ha))
    obtain ⟨t, c, hprint, hread, hshown⟩ := (parse_range_spec hr).2 ha
    rw [hprint, ok_bind]
    by_cases ha' : Asserts s
    · rw [(parse_range_spec hs).1 ha']
      exact iff_of_false not_exact_error (hnot (.inr ha'))
    obtain ⟨t', c', hprint', hread', hshown'⟩ := (parse_range_spec hs).2 ha'
    rw [hprint', ok_bind]
    have hor : ∀ x, T.Value x → (Condition.Holds (c ++ c') x ↔ Shown low x ∨ Shown high x) := fun x hx => by
      rw [holds_append, hshown x hx, hshown' x hx]
      rcases ho with ⟨rfl, rfl⟩ | ⟨rfl, rfl⟩
      · exact Iff.rfl
      · exact or_comm
    refine (exact_iff_fits (read_or hread hread') hor).trans ?_
    rw [ho.fits_iff]
    refine fits_pair_iff hlow hhigh hlt ?_ ?_
    · rcases ho with ⟨rfl, rfl⟩ | ⟨rfl, rfl⟩
      · exact ha
      · exact ha'
    · rcases ho with ⟨rfl, rfl⟩ | ⟨rfl, rfl⟩
      · exact ha'
      · exact ha

/-- Three ranges and more are printed and not returned. -/
theorem not_exact_many {q : ℤ × ℤ} {ranges : List (ℤ × ℤ)} :
    ¬ Exact T (r :: s :: q :: ranges) (_parse_ranges (r :: s :: q :: ranges)) := by
  rintro ⟨t, c, lower, upper, hout, -⟩
  rw [_parse_ranges] at hout
  · obtain ⟨vrs, -, hnone⟩ := bind_eq_ok.mp hout
    cases hnone
  all_goals nofun

/-- **The condition of ranges is exact** exactly when there are one or two of them, and each bound that is not printed is that
of a type or the other range makes up for it. -/
theorem parse_ranges_exact_iff {T : Signedness} {ranges : List (ℤ × ℤ)} (h : Ranges T ranges) :
    Exact T ranges (_parse_ranges ranges) ↔ RangesExact T ranges := by
  match ranges, h with
  | [], h => exact absurd rfl h.ne_nil
  | [r], h => exact exact_alone_iff (h.range r List.mem_cons_self)
  | [r, s], h =>
    have hr := h.range r List.mem_cons_self
    have hs := h.range s (List.mem_cons_of_mem _ List.mem_cons_self)
    have hle := hr.le
    have hle' := hs.le
    rw [RangesExact]
    rcases (List.pairwise_cons.mp h.disjoint).1 s List.mem_cons_self with hlt | hlt
    · rw [exact_pair_iff (.inl ⟨rfl, rfl⟩) hr hs hlt]
      exact ⟨fun hp => ⟨fun _ => hp, fun hgt => by omega⟩, fun hp => hp.1 hlt⟩
    · rw [exact_pair_iff (.inr ⟨rfl, rfl⟩) hs hr hlt]
      exact ⟨fun hp => ⟨fun hgt => by omega, fun _ => hp⟩, fun hp => hp.2 hlt⟩
  | _ :: _ :: _ :: _, _ => exact iff_of_false not_exact_many fun hf => hf

/-- `!= 0` and the negative bytes are the values that are not 0. -/
theorem parse_ranges_exact_nonZero : Exact .signed [(1, 255), (-128, -1)] (_parse_ranges [(1, 255), (-128, -1)]) := by
  have hranges : Ranges .signed [(1, 255), (-128, -1)] := by
    refine ⟨List.cons_ne_nil _ _, List.forall_mem_cons.mpr ⟨⟨?_, ?_, ?_⟩, List.forall_mem_singleton.mpr ⟨?_, ?_, ?_⟩⟩, ?_⟩ <;>
      decide
  refine (parse_ranges_exact_iff hranges).mpr ⟨fun hlt => absurd hlt (by decide), fun _ => .inr ⟨?_, ?_⟩⟩
  · simp [AllButOne, SignedMin, SignedMax, MIN_S64, MIN_S32, MIN_S16, MIN_S8, MAX_S64, MAX_S32, MAX_S16, MAX_S8]
  · constructor <;> simp [Asserts, LowerLeft, UpperLeft, NonZero, SignedMax, UnsignedMax, isMinimum_iff, isMaximum_iff, MIN_S64,
      MIN_S32, MIN_S16, MIN_S8, MAX_U64, MAX_U32, MAX_U16, MAX_U8, MAX_S64, MAX_S32, MAX_S16, MAX_S8]

/-- Of three ranges there is no text. -/
theorem not_parse_ranges_exact : ¬ ∀ (T : Signedness) (ranges : List (ℤ × ℤ)), Ranges T ranges →
    Exact T ranges (_parse_ranges ranges) := fun h => by
  have hranges : Ranges .unsigned [(0, 0), (2, 2), (4, 4)] := by
    refine ⟨List.cons_ne_nil _ _, List.forall_mem_cons.mpr ⟨⟨?_, ?_, ?_⟩, List.forall_mem_cons.mpr ⟨⟨?_, ?_, ?_⟩,
      List.forall_mem_singleton.mpr ⟨?_, ?_, ?_⟩⟩⟩, ?_⟩ <;> decide
  exact not_exact_many (h .unsigned [(0, 0), (2, 2), (4, 4)] hranges)

end SEDiff.Juxta.RangeCondition
