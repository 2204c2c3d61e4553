import SEDiff.Juxta.Average
import SEDiff.Juxta.Matched
import SEDiff.Juxta.RangeTexts
import Mathlib.Algebra.BigOperators.Ring.List
import Mathlib.Tactic.FieldSimp

/-!
# Building a range set

`build` of `rsf.py` adds the ranges of all the texts to an empty set, each with the same mass, and then divides all weights
so that the set has the area that is asked for.

## What is proved

* `Rsf.build1_eq` — what a text adds is what it lists, each range with the mass of `__new`.
* `Rsf.build_spec` — `build` returns, whatever the positions of the ranges, and the area is the one asked for.
* `Rsf.build_over` — ranges that are pairwise equal or disjoint stay so, and the density counts every range as often as
  those before it double it.
-/

namespace SEDiff.Juxta

open Foundation

/-! ### The source -/

namespace RangeSet

/-- `resize_area`. -/
def resize_area (h : Store Range) (rs : List ℕ) (area : ℚ) : Except Fault (Store Range) :=
  if area = 0 then .error .zeroDivision
  else
    let norm_factor := total_area h rs / area
    -- each weight is divided
    if norm_factor = 0 ∧ rs ≠ [] then .error .zeroDivision else .ok (div_assign norm_factor h rs)

end RangeSet

namespace Rsf

/-- `range_set.add(Range(..))`. -/
def add (range_set : Store Range × List ℕ) (r : Range) : Except PyErr (Store Range × List ℕ) :=
  let (h, new) := range_set.1.alloc r
  RangeSet.add h range_set.2 new

/-- `build`. -/
def build (number : Str.Num → Except Fault ℤ) (h : Store Range) (rs_strs : List Str) (range_area : ℚ) :
    Except Fault (Store Range × List ℕ) := do
  let (h, range_set) ← rs_strs.foldlM (build1 number add) (h, [])
  let h ← RangeSet.resize_area h range_set range_area
  return (h, range_set)

/-! ### What the texts list -/

/-- The ranges that a text adds. -/
def listed (number : Str.Num → Except Fault ℤ) (rs_str : Str) : Except Fault (List Range) :=
  build1 number (fun rs r => .ok (rs ++ [r])) [] rs_str

/-- A text of ranges whose endpoints are integers. -/
def RangeText (number : Str.Num → Except Fault ℤ) (rs_str : Str) : Prop := ∃ rs, listed number rs_str = .ok rs

/-- Its ranges. -/
def rangesOf (number : Str.Num → Except Fault ℤ) (rs_str : Str) : List Range :=
  match listed number rs_str with
  | .ok rs => rs
  | .error _ => []

/-- The ranges of all the texts. -/
def allRanges (number : Str.Num → Except Fault ℤ) (rs_strs : List Str) : List Range := rs_strs.flatMap (rangesOf number)

/-- A range as `__new` makes it: every range has the same mass. -/
structure Massed (r : Range) : Prop where
  /-- The ends are in order. -/
  sane : r.start ≤ r.stop
  /-- The mass is spread evenly. -/
  weight_eq : r.weight = RANGE_AREA / (r.stop - r.start + 1)

theorem size_pos {start stop : ℤ} (h : start ≤ stop) : (0 : ℚ) < stop - start + 1 := by
  exact_mod_cast (by omega : (0 : ℤ) < stop - start + 1)

theorem Massed.weight_pos {r : Range} (h : Massed r) : 0 < r.weight := by
  rw [h.weight_eq]
  exact div_pos (by decide +kernel) (size_pos h.sane)

theorem Massed.wf {r : Range} (h : Massed r) : r.WF := ⟨h.sane, h.weight_pos.le⟩

theorem Massed.calc_area {r : Range} (h : Massed r) : r.calc_area = RANGE_AREA := by
  rw [Range.calc_area, h.weight_eq]
  exact mul_div_cancel₀ _ (size_pos h.sane).ne'

theorem massed_of_new {start stop : ℤ} {comments : Str} {r : Range} (h : new start stop comments = .ok r) : Massed r := by
  by_cases hle : start ≤ stop
  · rw [new_eq hle] at h
    obtain rfl := Except.ok.inj h
    exact ⟨hle, rfl⟩
  · have hassert : pyAssert (start ≤ stop) = .error .assertionError := if_neg hle
    rw [new] at h
    split_ifs at h
    simp only [hassert, lift] at h
    cases h

section Texts

variable {number : Str.Num → Except Fault ℤ} {rs_str : Str} {rs_strs : List Str}

theorem massed_of_range {s : Str} {r : Range} (h : range number s = .ok r) : Massed r := by
  unfold range at h
  split at h
  · obtain ⟨lb, -, h⟩ := bind_eq_ok.mp h
    obtain ⟨ub, -, h⟩ := bind_eq_ok.mp h
    exact massed_of_new h
  · obtain ⟨lb, -, h⟩ := bind_eq_ok.mp h
    cases h
  · cases h

/-- The ranges that the parts of a list are read as. -/
def Parts (number : Str.Num → Except Fault ℤ) (parts : List Str) (rs : List Range) : Prop :=
  List.Forall₂ (fun part r => range number part = .ok r) parts rs

/-- The parts are added one by one. -/
theorem Parts.foldlM_eq {parts : List Str} {rs : List Range} (h : Parts number parts rs) {σ : Type}
    (add : σ → Range → Except PyErr σ) (range_set : σ) :
    parts.foldlM (fun range_set r => do lift (add range_set (← range number r))) range_set =
      rs.foldlM (fun range_set r => lift (add range_set r)) range_set := by
  induction h generalizing range_set with
  | nil => rfl
  | cons hr _ ih =>
    rw [List.foldlM_cons, List.foldlM_cons, hr]
    simp only [ok_bind]
    congr 1
    funext range_set'
    exact ih range_set'

theorem Parts.massed {parts : List Str} {rs : List Range} (h : Parts number parts rs) : ∀ r ∈ rs, Massed r := by
  induction h with
  | nil => simp
  | cons hr _ ih => exact List.forall_mem_cons.mpr ⟨massed_of_range hr, ih⟩

/-- When nothing is raised, each part was read. -/
theorem parts_of_foldlM {parts : List Str} {σ : Type} {add : σ → Range → Except PyErr σ} {range_set out : σ}
    (h : parts.foldlM (fun range_set r => do lift (add range_set (← range number r))) range_set = .ok out) :
    ∃ rs, Parts number parts rs := by
  induction parts generalizing range_set with
  | nil => exact ⟨[], .nil⟩
  | cons part parts ih =>
    rw [List.foldlM_cons] at h
    obtain ⟨range_set', hone, h⟩ := bind_eq_ok.mp h
    obtain ⟨r, hr, -⟩ := bind_eq_ok.mp hone
    obtain ⟨rs, hrs⟩ := ih h
    exact ⟨r :: rs, .cons hr hrs⟩

theorem foldlM_listed (acc rs : List Range) :
    rs.foldlM (fun (rs : List Range) r => lift (.ok (rs ++ [r]))) acc = .ok (acc ++ rs) := by
  induction rs generalizing acc with
  | nil => simp; rfl
  | cons r rs ih =>
    rw [List.foldlM_cons]
    exact (ih (acc ++ [r])).trans (by simp)

/-- A text is a number, empty, a list of ranges or a name. -/
theorem text_cases (rs_str : Str) : (∃ x, Str.toFloat (Str.strip rs_str) = some x) ∨
    Str.toFloat (Str.strip rs_str) = none ∧ (Str.strip rs_str = [] ∨ ∃ c s, Str.strip rs_str = c :: s) := by
  cases hfloat : Str.toFloat (Str.strip rs_str) with
  | some x => exact .inl ⟨x, rfl⟩
  | none =>
    refine .inr ⟨rfl, ?_⟩
    cases hs : Str.strip rs_str with
    | nil => exact .inl rfl
    | cons c s => exact .inr ⟨c, s, rfl⟩

variable {σ : Type} {add : σ → Range → Except PyErr σ} {range_set : σ}

theorem build1_number {x : Str.Num} (hfloat : Str.toFloat (Str.strip rs_str) = some x) :
    build1 number add range_set rs_str = (do
      let start ← number x
      lift (add range_set (← new start start (Str.strip rs_str)))) := by
  simp only [build1, hfloat]

theorem build1_nil (hfloat : Str.toFloat (Str.strip rs_str) = none) (hs : Str.strip rs_str = []) :
    build1 number add range_set rs_str = .error (.raised .indexError) := by
  rw [hs] at hfloat
  simp only [build1, hs, hfloat]

theorem build1_ranges {s : Str} (hfloat : Str.toFloat (Str.strip rs_str) = none) (hs : Str.strip rs_str = '[' :: s) :
    build1 number add range_set rs_str = (Str.split "],".toList ('[' :: s)).foldlM
      (fun range_set r => do lift (add range_set (← range number r))) range_set := by
  rw [hs] at hfloat
  simp only [build1, hs, hfloat, if_pos]

theorem build1_name {c : Char} {s : Str} (hfloat : Str.toFloat (Str.strip rs_str) = none) (hs : Str.strip rs_str = c :: s)
    (hc : c ≠ '[') : build1 number add range_set rs_str = (do lift (add range_set (← new S64_MIN S64_MAX (c :: s)))) := by
  rw [hs] at hfloat
  simp only [build1, hs, hfloat, if_neg hc]

/-- **What a text adds** is what it lists. -/
theorem build1_eq {rs : List Range} (h : listed number rs_str = .ok rs) :
    rs ≠ [] ∧ (∀ r ∈ rs, Massed r) ∧ ∀ (σ : Type) (add : σ → Range → Except PyErr σ) (range_set : σ),
      build1 number add range_set rs_str = rs.foldlM (fun range_set r => lift (add range_set r)) range_set := by
  have hone : ∀ (σ : Type) (add : σ → Range → Except PyErr σ) (range_set : σ) (r : Range),
      lift (add range_set r) = [r].foldlM (fun range_set r => lift (add range_set r)) range_set := by
    intro σ add range_set r
    rw [List.foldlM_cons]
    exact (bind_pure _).symm
  rw [listed] at h
  obtain ⟨x, hfloat⟩ | ⟨hfloat, hs | ⟨c, s, hs⟩⟩ := text_cases rs_str
  · -- a number
    rw [build1_number hfloat] at h
    obtain ⟨start, hstart, h⟩ := bind_eq_ok.mp h
    obtain ⟨r, hr, h⟩ := bind_eq_ok.mp h
    obtain rfl := Except.ok.inj h
    refine ⟨by simp, by simpa using massed_of_new hr, fun σ add range_set => ?_⟩
    rw [build1_number hfloat]
    simp only [hstart, hr, ok_bind]
    exact hone σ add range_set r
  · rw [build1_nil hfloat hs] at h
    cases h
  · by_cases hc : c = '['
    · -- ranges in brackets
      subst hc
      rw [build1_ranges hfloat hs] at h
      obtain ⟨rs', hparts⟩ := parts_of_foldlM h
      rw [hparts.foldlM_eq, foldlM_listed] at h
      obtain rfl := Except.ok.inj h
      refine ⟨fun e => ?_, fun r hr => ?_, fun σ add range_set => ?_⟩
      · have hlen := hparts.length_eq
        rw [List.nil_append] at e
        rw [e, List.length_nil] at hlen
        exact Str.split_ne_nil _ _ (List.length_eq_zero_iff.mp hlen)
      · exact hparts.massed r hr
      · rw [build1_ranges hfloat hs]
        exact hparts.foldlM_eq add range_set
    · -- a name
      rw [build1_name hfloat hs hc] at h
      obtain ⟨r, hr, h⟩ := bind_eq_ok.mp h
      obtain rfl := Except.ok.inj h
      refine ⟨by simp, by simpa using massed_of_new hr, fun σ add range_set => ?_⟩
      rw [build1_name hfloat hs hc]
      simp only [hr, ok_bind]
      exact hone σ add range_set r

/-- What adds something lists something. -/
theorem rangeText_of_build1 {out : σ} (h : build1 number add range_set rs_str = .ok out) : RangeText number rs_str := by
  rw [RangeText, listed]
  obtain ⟨x, hfloat⟩ | ⟨hfloat, hs | ⟨c, s, hs⟩⟩ := text_cases rs_str
  · rw [build1_number hfloat] at h
    obtain ⟨start, hstart, h⟩ := bind_eq_ok.mp h
    obtain ⟨r, hr, -⟩ := bind_eq_ok.mp h
    rw [build1_number hfloat]
    simp only [hstart, hr, ok_bind]
    exact ⟨_, rfl⟩
  · rw [build1_nil hfloat hs] at h
    cases h
  · by_cases hc : c = '['
    · subst hc
      rw [build1_ranges hfloat hs] at h ⊢
      obtain ⟨rs, hparts⟩ := parts_of_foldlM h
      exact ⟨_, (hparts.foldlM_eq _ _).trans (foldlM_listed _ _)⟩
    · rw [build1_name hfloat hs hc] at h ⊢
      obtain ⟨r, hr, -⟩ := bind_eq_ok.mp h
      simp only [hr, ok_bind]
      exact ⟨_, rfl⟩

/-- A number lists itself. -/
theorem listed_number {n : ℤ} (hnumber : number (.fin n) = .ok n) (h : Str.strip rs_str = Str.ofInt n) :
    listed number rs_str = .ok [⟨n, n, RANGE_AREA / (n - n + 1), {String.ofList (Str.ofInt n)}⟩] := by
  have hfloat : Str.toFloat (Str.strip rs_str) = some (.fin n) := by
    rw [h]
    exact Str.toFloat_ofInt (Str.strip_of_trimmed (Str.trimmed_ofInt n))
  rw [listed, build1_number hfloat]
  simp only [hnumber, ok_bind, new_eq le_rfl, h]
  rfl

/-- Any other name lists all the values. -/
theorem listed_name (hfloat : Str.toFloat (Str.strip rs_str) = none) {c : Char} {s : Str} (hs : Str.strip rs_str = c :: s)
    (hc : c ≠ '[') :
    listed number rs_str = .ok [⟨S64_MIN, S64_MAX, RANGE_AREA / (S64_MAX - S64_MIN + 1), {String.ofList (c :: s)}⟩] := by
  rw [listed, build1_name hfloat hs hc]
  simp only [new_eq (show S64_MIN ≤ S64_MAX by decide), ok_bind]
  rfl

theorem listed_eq (h : RangeText number rs_str) : listed number rs_str = .ok (rangesOf number rs_str) := by
  obtain ⟨rs, hrs⟩ := h
  rw [rangesOf, hrs]

/-- What the loop over the texts adds. -/
theorem build_loop_eq (h : ∀ t ∈ rs_strs, RangeText number t) (range_set : Store Range × List ℕ) :
    rs_strs.foldlM (build1 number Rsf.add) range_set =
      (allRanges number rs_strs).foldlM (fun range_set r => lift (Rsf.add range_set r)) range_set := by
  induction rs_strs generalizing range_set with
  | nil => rfl
  | cons t ts ih =>
    obtain ⟨ht, hts⟩ := List.forall_mem_cons.mp h
    rw [List.foldlM_cons, (build1_eq (listed_eq ht)).2.2, allRanges, List.flatMap_cons, List.foldlM_append]
    congr 1
    funext range_set'
    exact ih hts range_set'

/-- When nothing is raised, all the texts are read. -/
theorem rangeTexts_of_foldlM {range_set out : Store Range × List ℕ}
    (h : rs_strs.foldlM (build1 number Rsf.add) range_set = .ok out) : ∀ t ∈ rs_strs, RangeText number t := by
  induction rs_strs generalizing range_set with
  | nil => simp
  | cons t ts ih =>
    rw [List.foldlM_cons] at h
    obtain ⟨range_set', hone, hrest⟩ := bind_eq_ok.mp h
    exact List.forall_mem_cons.mpr ⟨rangeText_of_build1 hone, ih hrest⟩

theorem rangeTexts_of_build {h : Store Range} {range_area : ℚ} {out : Store Range × List ℕ}
    (hrun : build number h rs_strs range_area = .ok out) : ∀ t ∈ rs_strs, RangeText number t := by
  rw [build] at hrun
  obtain ⟨range_set, hadded, -⟩ := bind_eq_ok.mp hrun
  exact rangeTexts_of_foldlM hadded

theorem massed_of_mem (h : ∀ t ∈ rs_strs, RangeText number t) : ∀ r ∈ allRanges number rs_strs, Massed r := by
  intro r hr
  obtain ⟨t, ht, hr⟩ := List.mem_flatMap.mp hr
  exact (build1_eq (listed_eq (h t ht))).2.1 r hr

theorem allRanges_ne_nil (hne : rs_strs ≠ []) (h : ∀ t ∈ rs_strs, RangeText number t) : allRanges number rs_strs ≠ [] := by
  obtain ⟨t, ts, rfl⟩ := List.exists_cons_of_ne_nil hne
  have ht := (build1_eq (listed_eq (h t List.mem_cons_self))).1
  rw [allRanges, List.flatMap_cons]
  exact List.append_ne_nil_of_left_ne_nil ht _

end Texts

/-! ### Adding the ranges -/

/-- The density that is listed. -/
def listedDensity (ranges : List Range) (x : ℤ) : ℚ := (ranges.map fun r => r.rho x).sum

/-- A set that grows by new ranges only. -/
structure Grown (h : Store Range) (rs : List ℕ) (h' : Store Range) (rs' : List ℕ) : Prop where
  /-- No range outside the set changes. -/
  agrees : h.Agrees h' (· ∈ rs)
  /-- Every range is well formed again. -/
  wf : Range.AllWF h'
  /-- The ranges of the set are allocated. -/
  live : ∀ o ∈ rs', o < h'.next
  /-- No range is held twice. -/
  nodup : rs'.Nodup
  /-- The set holds ranges it held before, and new ones. -/
  refs : ∀ o ∈ rs', o ∈ rs ∨ h.next ≤ o

theorem Grown.trans {h h₁ h' : Store Range} {rs rs₁ rs' : List ℕ} (h₁₁ : Grown h rs h₁ rs₁) (h₁₂ : Grown h₁ rs₁ h' rs') :
    Grown h rs h' rs' := by
  have hle := h₁₁.agrees.next_le
  refine ⟨h₁₁.agrees.trans h₁₂.agrees fun o ho e => (h₁₁.refs o e).resolve_right (not_le.mpr ho), h₁₂.wf, h₁₂.live,
    h₁₂.nodup, fun o ho => ?_⟩
  rcases h₁₂.refs o ho with e | e
  · exact h₁₁.refs o e
  · exact .inr (hle.trans e)

/-- What `add` does to a set, when inserting the new object touches nothing else. -/
theorem grown_of_touches {h h' : Store Range} {rs rs' : List ℕ} {r : Range}
    (ht : RangeSet.Touches (h.alloc r).1 rs [h.next] h' rs') (hwf : Range.AllWF h') (hl : ∀ o ∈ rs', o < h'.next)
    (hnd : rs'.Nodup) : Grown h rs h' rs' := by
  have hle := ht.agrees.next_le
  rw [Store.next_alloc] at hle
  refine ⟨⟨by omega, fun o ho hn => ?_⟩, hwf, hl, hnd, fun o ho => ?_⟩
  · have hne : o ≠ h.next := ho.ne
    rw [ht.agrees.obj_eq o (by rw [Store.next_alloc]; omega) (not_or.mpr ⟨by simpa using hne, hn⟩),
      Store.obj_alloc_of_lt _ _ ho]
  · rcases ht.refs o ho with e | e | e
    · exact .inr (List.mem_singleton.mp e).ge
    · exact .inl e
    · rw [Store.next_alloc] at e
      exact .inr (by omega)

/-- The new object is well formed, and not yet in the set. -/
theorem alloc_live {h : Store Range} {rs : List ℕ} (hl : ∀ o ∈ rs, o < h.next) (r : Range) :
    h.next ∉ rs ∧ (∀ o ∈ rs, (h.alloc r).1.obj o = h.obj o) ∧ ∀ o ∈ rs, o < (h.alloc r).1.next :=
  ⟨fun hm => lt_irrefl _ (hl _ hm), fun o ho => Store.obj_alloc_of_lt _ _ (hl o ho), fun o ho => Nat.lt_succ_of_lt (hl o ho)⟩

/-- **Adding ranges** to any set never fails, and no weight is lost. -/
theorem add_ranges {ranges : List Range} (hmass : ∀ r ∈ ranges, Massed r) {h : Store Range} (hwf : Range.AllWF h)
    {rs : List ℕ} (hl : ∀ o ∈ rs, o < h.next) (hnd : rs.Nodup) :
    ∃ h' rs', ranges.foldlM (fun range_set r => lift (add range_set r)) (h, rs) = .ok (h', rs') ∧ Grown h rs h' rs' ∧
      ∀ x, Range.rhoAt h rs x + listedDensity ranges x ≤ Range.rhoAt h' rs' x := by
  induction ranges generalizing h rs with
  | nil => exact ⟨h, rs, rfl, ⟨.refl _ _, hwf, hl, hnd, fun _ => .inl⟩, by simp [listedDensity]⟩
  | cons r ranges ih =>
    obtain ⟨hr, hmass⟩ := List.forall_mem_cons.mp hmass
    obtain ⟨hnew, hobj, hl₀⟩ := alloc_live hl r
    have hwf₀ : Range.AllWF (h.alloc r).1 := hwf.alloc hr.sane hr.weight_pos.le
    obtain ⟨h₁, rs₁, E, hrun₁, hg, -⟩ := RangeSet.add_with_gains hwf₀ hl₀ hnd (Nat.lt_succ_self _) hnew
    obtain ⟨h', rs', hrun, hgrown, hdens⟩ := ih hmass hg.wf hg.live hg.nodup
    refine ⟨h', rs', ?_, (grown_of_touches hg.touches hg.wf hg.live hg.nodup).trans hgrown, fun x => ?_⟩
    · have hadd : add (h, rs) r = .ok (h₁, rs₁) := hrun₁
      rw [List.foldlM_cons, hadd]
      exact hrun
    · have h₀ : Range.rhoAt (h.alloc r).1 rs x = Range.rhoAt h rs x := Range.rhoAt_congr hobj x
      have hone : Range.rhoAt (h.alloc r).1 [h.next] x = r.rho x := by
        rw [Range.rhoAt_cons, Range.rhoAt_nil, add_zero, Store.obj_alloc_next]
      have hsum := hg.dens x
      have hnn := hg.nonneg x
      rw [h₀, hone] at hsum
      have hrest := hdens x
      rw [listedDensity, List.map_cons, List.sum_cons]
      rw [listedDensity] at hrest
      linarith

/-- The density after a range is added that is stored already, or avoids what is stored. -/
def addDensity (x : ℤ) (d : ℚ) (r : Range) : ℚ := if r.start ≤ x ∧ x ≤ r.stop then 2 * (d + r.weight) else d

/-- **Adding ranges** that are pairwise equal or disjoint. -/
theorem add_ranges_over {P : ℤ × ℤ → Prop} (hP : RangeSet.EqualOrDisjoint P) {ranges : List Range}
    (hmass : ∀ r ∈ ranges, Massed r) (hends : ∀ r ∈ ranges, P r.ends) {h : Store Range} (hwf : Range.AllWF h) {rs : List ℕ}
    (ho : RangeSet.Over P h rs) :
    ∃ h' rs', ranges.foldlM (fun range_set r => lift (add range_set r)) (h, rs) = .ok (h', rs') ∧ Grown h rs h' rs' ∧
      RangeSet.Over P h' rs' ∧ ∀ x, Range.rhoAt h' rs' x = ranges.foldl (addDensity x) (Range.rhoAt h rs x) := by
  induction ranges generalizing h rs with
  | nil => exact ⟨h, rs, rfl, ⟨.refl _ _, hwf, ho.set.live, ho.set.nodup, fun _ => .inl⟩, ho, fun _ => rfl⟩
  | cons r ranges ih =>
    obtain ⟨hr, hmass⟩ := List.forall_mem_cons.mp hmass
    obtain ⟨hrP, hends⟩ := List.forall_mem_cons.mp hends
    obtain ⟨hnew, hobj, -⟩ := alloc_live ho.set.live r
    have hwf₀ : Range.AllWF (h.alloc r).1 := hwf.alloc hr.sane hr.weight_pos.le
    have ho₀ : RangeSet.Over P (h.alloc r).1 rs := ho.congr (Nat.le_succ _) hobj
    have hnewP : P ((h.alloc r).1.obj h.next).ends := by
      rw [Store.obj_alloc_next]
      exact hrP
    obtain ⟨h₁, rs₁, hrun₁, hm, hdens₁⟩ :=
      RangeSet.add_matched hwf₀ ho₀.set (Nat.lt_succ_self _) hnew (hP.matched ho₀.ends hnewP)
    obtain ⟨h', rs', hrun, hgrown, ho', hdens⟩ := ih hmass hends hm.wf (hm.over ho₀ hnewP)
    refine ⟨h', rs', ?_, (grown_of_touches hm.touches hm.wf hm.set.live hm.set.nodup).trans hgrown, ho', fun x => ?_⟩
    · have hadd : add (h, rs) r = .ok (h₁, rs₁) := hrun₁
      rw [List.foldlM_cons, hadd]
      exact hrun
    · have h₀ : Range.rhoAt (h.alloc r).1 rs x = Range.rhoAt h rs x := Range.rhoAt_congr hobj x
      rw [hdens, hdens₁, h₀, Store.obj_alloc_next, List.foldl_cons]
      rfl

end Rsf

/-! ### Resizing -/

namespace RangeSet

theorem sum_map_div {α : Type*} (f : α → ℚ) (n : ℚ) (l : List α) : (l.map fun a => f a / n).sum = (l.map f).sum / n := by
  simp only [div_eq_mul_inv, List.sum_map_mul_right]

/-- Every density is divided. -/
theorem rhoAt_div_assign {h : Store Range} {rs : List ℕ} (hnd : rs.Nodup) (n : ℚ) (x : ℤ) :
    Range.rhoAt (div_assign n h rs) rs x = Range.rhoAt h rs x / n := by
  have hobj : ∀ o ∈ rs, ((div_assign n h rs).obj o).rho x = (h.obj o).rho x / n := fun o ho => by
    rw [RangeSetVector.obj_div_assign n hnd, if_pos ho, RangeSetVector.rho_div_assign]
  rw [Range.rhoAt, List.map_congr_left hobj, sum_map_div, Range.rhoAt]

theorem next_div_assign (n : ℚ) (h : Store Range) (rs : List ℕ) : (div_assign n h rs).next = h.next := by
  induction rs generalizing h with
  | nil => rfl
  | cons r rs ih => exact ih _

theorem allWF_div_assign {n : ℚ} (hn : 0 ≤ n) {h : Store Range} (hwf : Range.AllWF h) {rs : List ℕ} (hnd : rs.Nodup) :
    Range.AllWF (div_assign n h rs) := by
  intro o ho
  rw [next_div_assign] at ho
  rw [RangeSetVector.obj_div_assign n hnd]
  split_ifs
  · exact ⟨(hwf o ho).sane, div_nonneg (hwf o ho).nonneg hn⟩
  · exact hwf o ho

/-- **Resizing** a set of some area. -/
theorem resize_area_spec {h : Store Range} (hwf : Range.AllWF h) {rs : List ℕ} (hnd : rs.Nodup)
    {area : ℚ} (harea : 0 < area) (htotal : 0 < total_area h rs) :
    ∃ h', resize_area h rs area = .ok h' ∧ h.Agrees h' (· ∈ rs) ∧ Range.AllWF h' ∧ total_area h' rs = area ∧
      (∀ o, (h'.obj o).Alike (h.obj o)) ∧ ∀ x, Range.rhoAt h' rs x = area * Range.rhoAt h rs x / total_area h rs := by
  have hnorm : 0 < total_area h rs / area := div_pos htotal harea
  set n := total_area h rs / area with hn
  have hwf' : Range.AllWF (div_assign n h rs) := allWF_div_assign hnorm.le hwf hnd
  have hnext : (div_assign n h rs).next = h.next := next_div_assign n h rs
  have hdens : ∀ x, Range.rhoAt (div_assign n h rs) rs x = area * Range.rhoAt h rs x / total_area h rs := fun x => by
    rw [rhoAt_div_assign hnd, hn]
    field_simp
  refine ⟨div_assign n h rs, ?_, ⟨hnext.ge, fun o _ ho => ?_⟩, hwf', ?_, fun o => ?_, hdens⟩
  · rw [resize_area, if_neg harea.ne']
    simp only
    rw [if_neg fun e => hnorm.ne' e.1]
  · rw [RangeSetVector.obj_div_assign n hnd, if_neg ho]
  · have harea' : total_area (div_assign n h rs) rs = total_area h rs / n := by
      have heach : ∀ o ∈ rs, ((div_assign n h rs).obj o).calc_area = (h.obj o).calc_area / n := fun o ho => by
        rw [RangeSetVector.obj_div_assign n hnd, if_pos ho]
        exact (mul_div_assoc _ _ _).symm
      rw [total_area, List.map_congr_left heach, sum_map_div, total_area]
    rw [harea', hn]
    field_simp
  · rw [RangeSetVector.obj_div_assign n hnd]
    split_ifs <;> exact ⟨rfl, rfl⟩

end RangeSet

/-! ### The whole of `build` -/

namespace Rsf

variable {number : Str.Num → Except Fault ℤ}

theorem total_area_pos {ranges : List Range} (hne : ranges ≠ []) (hmass : ∀ r ∈ ranges, Massed r) {h : Store Range}
    (hwf : Range.AllWF h) {rs : List ℕ} (hl : ∀ o ∈ rs, o < h.next)
    (hdens : ∀ x, listedDensity ranges x ≤ Range.rhoAt h rs x) : 0 < RangeSet.total_area h rs := by
  obtain ⟨r, ranges, rfl⟩ := List.exists_cons_of_ne_nil hne
  obtain ⟨hr, hmass⟩ := List.forall_mem_cons.mp hmass
  have hbelow : ∀ x, r.rho x ≤ Range.rhoAt h rs x := fun x => by
    have hrest : 0 ≤ listedDensity ranges x := List.sum_nonneg fun v hv => by
      obtain ⟨q, hq, rfl⟩ := List.mem_map.mp hv
      exact Range.rho_nonneg (hmass q hq).wf x
    have hall := hdens x
    rw [listedDensity, List.map_cons, List.sum_cons] at hall
    rw [listedDensity] at hrest
    linarith
  have harea : area r.rho = RANGE_AREA := by
    rw [← hr.calc_area, Range.calc_area]
    exact area_box _ (by have := hr.sane; omega)
  rw [RangeSet.total_area_eq fun o ho => hwf o (hl o ho)]
  calc (0 : ℚ) < RANGE_AREA := by decide +kernel
    _ = area r.rho := harea.symm
    _ ≤ _ := area_mono (finite_support_box _ _ _) (RangeSet.finite_support_rhoAt h rs) hbelow

/-- **`build`** returns, and the area is the one asked for. -/
theorem build_spec {h : Store Range} (hwf : Range.AllWF h) {rs_strs : List Str} (hne : rs_strs ≠ [])
    (htexts : ∀ t ∈ rs_strs, RangeText number t) {range_area : ℚ} (harea : 0 < range_area) :
    ∃ h' range_set, build number h rs_strs range_area = .ok (h', range_set) ∧ RangeSet.total_area h' range_set = range_area := by
  have hmass := massed_of_mem htexts
  obtain ⟨h₁, rs, hrun, hg, hdens⟩ := @add_ranges _ hmass _ hwf [] (by simp) List.nodup_nil
  simp only [Range.rhoAt_nil, zero_add] at hdens
  have hpos := total_area_pos (allRanges_ne_nil hne htexts) hmass hg.wf hg.live hdens
  obtain ⟨h', hresize, -, -, htotal, -⟩ := RangeSet.resize_area_spec hg.wf hg.nodup harea hpos
  refine ⟨h', rs, ?_, htotal⟩
  rw [build, build_loop_eq htexts, hrun]
  simp only [ok_bind, hresize]
  rfl

/-- The density after all the ranges are added to an empty set, when they are pairwise equal or disjoint. -/
def addedDensity (ranges : List Range) (x : ℤ) : ℚ := ranges.foldl (addDensity x) 0

/-- **`build`** of ranges that are pairwise equal or disjoint: so are those of the set. -/
theorem build_over {P : ℤ × ℤ → Prop} (hP : RangeSet.EqualOrDisjoint P) {h : Store Range} (hwf : Range.AllWF h)
    {rs_strs : List Str} (hne : rs_strs ≠ []) (htexts : ∀ t ∈ rs_strs, RangeText number t)
    (hends : ∀ r ∈ allRanges number rs_strs, P r.ends) {range_area : ℚ} (harea : 0 < range_area) :
    ∃ h' range_set, build number h rs_strs range_area = .ok (h', range_set) ∧ Grown h [] h' range_set ∧
      RangeSet.Over P h' range_set ∧ RangeSet.total_area h' range_set = range_area ∧
      0 < area (addedDensity (allRanges number rs_strs)) ∧
      ∀ x, Range.rhoAt h' range_set x =
        range_area * addedDensity (allRanges number rs_strs) x / area (addedDensity (allRanges number rs_strs)) := by
  have hmass := massed_of_mem htexts
  have hempty : RangeSet.Over P h [] := ⟨⟨by simp, List.nodup_nil, .nil⟩, by simp⟩
  obtain ⟨h₁, rs, hrun, hg, ho, hdens⟩ := add_ranges_over hP hmass hends hwf hempty
  obtain ⟨h₂, rs₂, hrun', -, hbelow⟩ := @add_ranges _ hmass _ hwf [] (by simp) List.nodup_nil
  obtain ⟨rfl, rfl⟩ := Prod.mk.inj (Except.ok.inj (hrun.symm.trans hrun'))
  simp only [Range.rhoAt_nil, zero_add] at hbelow hdens
  have hpos := total_area_pos (allRanges_ne_nil hne htexts) hmass hg.wf hg.live hbelow
  have hadded : Range.rhoAt h₁ rs = addedDensity (allRanges number rs_strs) := funext hdens
  have htotal : RangeSet.total_area h₁ rs = area (addedDensity (allRanges number rs_strs)) := by
    rw [RangeSet.total_area_eq fun o ho => hg.wf o (hg.live o ho), hadded]
  obtain ⟨h', hresize, hag, hwf', harea', halike, hdens'⟩ := RangeSet.resize_area_spec hg.wf hg.nodup harea hpos
  have hlive : ∀ o ∈ rs, o < h'.next := fun o ho => (hg.live o ho).trans_le hag.next_le
  refine ⟨h', rs, ?_, ⟨?_, hwf', hlive, hg.nodup, hg.refs⟩, ho.alike hag.next_le halike, harea', htotal ▸ hpos, fun x => ?_⟩
  · rw [build, build_loop_eq htexts, hrun]
    simp only [ok_bind, hresize]
    rfl
  · -- the ranges that are divided are all new
    refine hg.agrees.trans hag fun o hold hm => ?_
    rcases hg.refs o hm with e | e
    · exact e
    · exact absurd hold (not_lt.mpr e)
  · rw [hdens', hadded, htotal]

/-- No texts make the empty set. -/
theorem build_nil (h : Store Range) {range_area : ℚ} (harea : 0 < range_area) : build number h [] range_area = .ok (h, []) := by
  have hresize : RangeSet.resize_area h [] range_area = .ok h := by
    rw [RangeSet.resize_area, if_neg harea.ne']
    simp [RangeSet.div_assign]
  rw [build, List.foldlM_nil]
  simp only [pure_bind, hresize, ok_bind]
  rfl

end Rsf

end SEDiff.Juxta
