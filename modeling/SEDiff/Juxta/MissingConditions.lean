import SEDiff.Foundation.Dict
import SEDiff.Foundation.Double
import SEDiff.Foundation.Merge
import SEDiff.Juxta.Distance

/-!
# Missing conditions

`CondVector.get_missing_conditions` of `ckcond.py`: what the average has and a function does not, over all dimensions, the
most impactful first, until a threshold is reached. The loop over the dimensions looks for the largest impact, but what is
shown and added up is in `impact` and `rs`, which still hold the entry of the last dimension that was looked at. Impacts
are doubles, and so are their sums.

## What is proved

* `scan_snd` — one scan finds the largest impact, and ends with the last dimension that has anything left.
* `get_missing_loop_eq` — the loop shows the pairs of these, up to where the impacts shown reach the threshold.
* `get_missing_conditions_iff` — what is reported is the most impactful when the entry that is taken is each time the next
  one of the last dimension, and only then if no two impacts are equal.
-/

namespace SEDiff.Juxta

open Foundation

/-! ### The source -/

/-- What is shown of a deviation. -/
structure Missing where
  /-- The impact. -/
  impact : ℚ
  /-- The dimension. -/
  dim : String
  /-- Where the range starts. -/
  start : ℤ
  /-- Where the range ends. -/
  stop : ℤ
  deriving DecidableEq

namespace CondVector

open RangeSet

/-- The variables of the loop over the dimensions. -/
structure Scan where
  /-- `max_dim`. -/
  max_dim : String
  /-- `max_impact`. -/
  max_impact : ℚ
  /-- `max_rs`. -/
  max_rs : Option Range
  /-- `max_idx`. -/
  max_idx : ℤ
  /-- `(impact, rs)`, which keep their values when the loop ends. -/
  last : Option (ℚ × Range)

/-- The body of the loop over the dimensions, with `idx_list[i]`. -/
def scan_dim (i : ℕ) (dim : String) (diffs : Diff) (idx : ℤ) (s : Scan) : ℤ × Scan :=
  if idx = -1 then (idx, s)
  else
    match diffs[idx.toNat]? with
    -- the dimension is used up
    | none => (-1, s)
    | some (impact, rs) =>
      let s := { s with last := some (impact, rs) }
      if s.max_impact < impact then
        (idx, { s with max_dim := dim, max_impact := impact, max_rs := some rs, max_idx := i })
      else (idx, s)

/-- The loop over the dimensions from the `i`-th on. -/
def scan : ℕ → Dict String Diff → List ℤ → Scan → List ℤ × Scan
  | i, (dim, diffs) :: diff_dic, idx :: idx_list, s =>
    let (idx, s) := scan_dim i dim diffs idx s
    let (idx_list, s) := scan (i + 1) diff_dic idx_list s
    (idx :: idx_list, s)
  | _, _, idx_list, s => (idx_list, s)

/-- `while True`, with the number of turns it may take. -/
def get_missing_loop (diff_dic : Dict String Diff) (threshold : ℚ) : ℕ → List ℤ → ℚ → Option (ℚ × Range) →
    Option (List Missing)
  | 0, _, _, _ => none
  | turns + 1, idx_list, total_impact, last =>
    let (idx_list, s) := scan 0 diff_dic idx_list ⟨"", -1, none, -1, last⟩
    if s.max_idx = -1 then some []
    else
      match s.last with
      -- not reached: a dimension was looked at
      | none => none
      | some (impact, rs) =>
        let missing := ⟨impact, s.max_dim, rs.start, rs.stop⟩
        let total_impact := Double.add total_impact impact
        if threshold ≤ total_impact then some [missing]
        else (get_missing_loop diff_dic threshold turns (idx_list.modify s.max_idx.toNat (· + 1)) total_impact s.last).map
          (missing :: ·)

/-- `__build_diff_dic`, of the `avg_diff` of each dimension. -/
def build_diff_dic (avg_diffs : Dict String Diff) : Dict String Diff := avg_diffs.filter fun e => e.2 ≠ []

/-- `get_missing_conditions`: what the message shows. -/
def get_missing_conditions (avg_diffs : Dict String Diff) (threshold : ℚ) (turns : ℕ) : Option (List Missing) :=
  let diff_dic := build_diff_dic avg_diffs
  get_missing_loop diff_dic threshold turns (List.replicate diff_dic.length 0) 0 none

end CondVector

/-! ### What should be reported -/

open CondVector RangeSet

/-- An entry, with its dimension. -/
abbrev Deviation := String × ℚ × Range

namespace Deviation

/-- Its impact. -/
def impact (d : Deviation) : ℚ := d.2.1

/-- What is shown of it. -/
def missing (d : Deviation) : Missing := ⟨d.2.1, d.1, d.2.2.start, d.2.2.stop⟩

/-- What is shown when the impact and the range are those of another one. -/
def mixed (p : Deviation × Deviation) : Missing := ⟨p.2.2.1, p.1.1, p.2.2.2.start, p.2.2.2.stop⟩

end Deviation

/-- The entries of a dimension. -/
def deviations (e : String × Diff) : List Deviation := e.2.map fun ad => (e.1, ad)

/-- All entries. -/
def allMissing (avg_diffs : Dict String Diff) : List Missing := (avg_diffs.flatMap deviations).map Deviation.missing

/-- The sum of the impacts, added one by one. -/
def total (report : List Missing) : ℚ := (report.map Missing.impact).foldl Double.add 0

/-- The most impactful entries, in order: the fewest, but at least one, that reach the threshold, or all. -/
structure MostImpactful (threshold : ℚ) (all report : List Missing) : Prop where
  /-- The order. -/
  sorted : Descending Missing.impact report
  /-- Each entry is reported once, and the most impactful ones are. -/
  largest : ∃ rest, (report ++ rest).Perm all ∧ ∀ m ∈ report, ∀ m' ∈ rest, m'.impact ≤ m.impact
  /-- Fewer do not reach the threshold. -/
  least : ∀ j, 0 < j → j < report.length → total (report.take j) < threshold
  /-- They do, when any are left out. -/
  enough : report.length < all.length → report ≠ [] ∧ threshold ≤ total report

/-- The entries, by dimension. -/
def deviationTable (avg_diffs : Dict String Diff) : List (List Deviation) := (build_diff_dic avg_diffs).map deviations

/-- The rounds until the threshold is reached, when all entries are merged by their impact: what is taken in each of them,
and the next entry of the last dimension that has any left. -/
def takenRounds (threshold : ℚ) (avg_diffs : Dict String Diff) : List (Deviation × Deviation) :=
  let table := deviationTable avg_diffs
  (rounds Deviation.impact table.flatten.length table).take
    (cutAt Double.add Deviation.impact threshold 0 (merge Deviation.impact table)).length

/-- What is taken in each of them is the next entry of the last dimension that has any left, or has its impact and ends. -/
def TakesLast (threshold : ℚ) (avg_diffs : Dict String Diff) : Prop :=
  ∀ p ∈ takenRounds threshold avg_diffs, p.1.2.1 = p.2.2.1 ∧ p.1.2.2.start = p.2.2.2.start ∧ p.1.2.2.stop = p.2.2.2.stop

/-- No two entries have the same impact. -/
def DistinctImpacts (avg_diffs : Dict String Diff) : Prop := ((allMissing avg_diffs).map Missing.impact).Nodup

/-! ### One scan -/

namespace CondVector

section Scan

variable {i : ℕ} {dic : Dict String Diff} {idxs : List ℤ} {s : Scan}

/-- What a dimension has left. -/
def row (e : String × Diff) (idx : ℤ) : List Deviation := if idx = -1 then [] else (deviations e).drop idx.toNat

/-- What the dimensions have left. -/
def remaining (dic : Dict String Diff) (idxs : List ℤ) : List (List Deviation) := List.zipWith row dic idxs

@[simp] theorem remaining_cons (e : String × Diff) (idx : ℤ) :
    remaining (e :: dic) (idx :: idxs) = row e idx :: remaining dic idxs := rfl

/-- The scan with the head that is taken. -/
def Scan.better (i : ℕ) (s : Scan) : Option (ℕ × Deviation) → Scan
  | none => s
  | some (j, d) =>
    if s.max_impact < d.impact then
      { s with max_dim := d.1, max_impact := d.impact, max_rs := some d.2.2, max_idx := (i + j : ℕ) }
    else s

/-- The scan with the last head there was. -/
def Scan.ended (s : Scan) (last : Option Deviation) : Scan := { s with last := (last.map Prod.snd).or s.last }

/-- A dimension that is used up. -/
theorem scan_dim_nil {e : String × Diff} {idx : ℤ} (h : row e idx = []) : scan_dim i e.1 e.2 idx s = (-1, s) := by
  rw [scan_dim]
  split_ifs with hidx
  · rw [hidx]
  · rw [row, if_neg hidx, deviations, ← List.map_drop, List.map_eq_nil_iff, List.drop_eq_nil_iff] at h
    rw [List.getElem?_eq_none h]

/-- A dimension that has something left. -/
theorem scan_dim_cons {e : String × Diff} {idx : ℤ} {d : Deviation} {l : List Deviation} (h : row e idx = d :: l) :
    scan_dim i e.1 e.2 idx s = (idx, Scan.better i { s with last := some d.2 } (some (0, d))) ∧ idx ≠ -1 := by
  rw [row] at h
  split_ifs at h with hidx
  have hget : (deviations e)[idx.toNat]? = some d := by
    rw [← List.head?_drop, h]
    rfl
  rw [deviations, List.getElem?_map, Option.map_eq_some_iff] at hget
  obtain ⟨ad, hget, rfl⟩ := hget
  refine ⟨?_, hidx⟩
  rw [scan_dim, if_neg hidx, hget]
  simp only [Scan.better, Deviation.impact, Nat.add_zero]
  by_cases hmax : s.max_impact < ad.1 <;> simp [hmax]

/-- **One scan** finds the largest impact, and ends with the last dimension that has anything left. -/
theorem scan_snd (hlen : dic.length = idxs.length) :
    (scan i dic idxs s).2 = (s.better i (top Deviation.impact (remaining dic idxs))).ended (lastHead (remaining dic idxs)) := by
  induction dic generalizing i idxs s with
  | nil => simp [scan, remaining, top, lastHead, Scan.better, Scan.ended]
  | cons e dic ih =>
    obtain ⟨idx, idxs, rfl⟩ := List.exists_cons_of_length_eq_add_one hlen.symm
    have hlen' : dic.length = idxs.length := by simpa using hlen
    rw [remaining_cons]
    cases hrow : row e idx with
    | nil =>
      rw [scan, scan_dim_nil hrow, top, lastHead, List.head?_nil, Option.or_none]
      dsimp only
      rw [ih hlen']
      cases top Deviation.impact (remaining dic idxs) with
      | none => rfl
      | some p => simp only [Scan.better, Option.map_some, Nat.add_assoc, Nat.add_comm 1]
    | cons d l =>
      rw [scan, (scan_dim_cons hrow).1, top, lastHead, List.head?_cons]
      dsimp only
      rw [ih hlen']
      cases htop : top Deviation.impact (remaining dic idxs) with
      | none =>
        have hnone : lastHead (remaining dic idxs) = none := lastHead_eq_none_iff.mpr (top_eq_none_iff.mp htop)
        rw [hnone]
        simp only [Scan.better, Scan.ended]
        split_ifs <;> rfl
      | some p =>
        obtain ⟨b, hb⟩ := exists_lastHead htop
        obtain ⟨j, c⟩ := p
        rw [hb]
        have hj : i + 1 + j = i + (j + 1) := by omega
        -- the largest so far is compared with the head, and the greater of the two with the largest of the rest
        by_cases hd : s.max_impact < d.impact
        · by_cases hc : d.impact < c.impact
          · simp [Scan.better, Scan.ended, hd, hc, hd.trans hc, hj]
          · simp [Scan.better, Scan.ended, hd, hc]
        · by_cases hc : s.max_impact < c.impact
          · simp [Scan.better, Scan.ended, hd, hc, (not_lt.mp hd).trans_lt hc, hj]
          · by_cases hdc : d.impact < c.impact
            · simp [Scan.better, Scan.ended, hd, hc, hdc]
            · simp [Scan.better, Scan.ended, hd, hc, hdc]

/-- An index is set to -1 when its dimension is used up, and changes in no other way. -/
theorem scan_fst (hlen : dic.length = idxs.length) (hidx : ∀ idx ∈ idxs, -1 ≤ idx) :
    remaining dic (scan i dic idxs s).1 = remaining dic idxs ∧ (scan i dic idxs s).1.length = idxs.length ∧
      ∀ idx ∈ (scan i dic idxs s).1, -1 ≤ idx := by
  induction dic generalizing i idxs s with
  | nil => exact ⟨rfl, rfl, hidx⟩
  | cons e dic ih =>
    obtain ⟨idx, idxs, rfl⟩ := List.exists_cons_of_length_eq_add_one hlen.symm
    have hlen' : dic.length = idxs.length := by simpa using hlen
    have hrest : ∀ idx ∈ idxs, -1 ≤ idx := fun idx' h => hidx idx' (List.mem_cons_of_mem _ h)
    have hfirst : row e (scan_dim i e.1 e.2 idx s).1 = row e idx ∧ -1 ≤ (scan_dim i e.1 e.2 idx s).1 := by
      cases hrow : row e idx with
      | nil => simp [scan_dim_nil hrow, row]
      | cons d l =>
        rw [(scan_dim_cons hrow).1]
        exact ⟨hrow, hidx idx List.mem_cons_self⟩
    obtain ⟨hrows, hlength, hle⟩ := @ih (i + 1) idxs (scan_dim i e.1 e.2 idx s).2 hlen' hrest
    rw [scan]
    refine ⟨?_, congrArg (· + 1) hlength, ?_⟩
    · rw [remaining_cons, remaining_cons, hfirst.1, hrows]
    · intro idx' hmem
      obtain rfl | hmem := List.mem_cons.mp hmem
      · exact hfirst.2
      · exact hle idx' hmem

theorem modify_ge {j : ℕ} (hidx : ∀ idx ∈ idxs, -1 ≤ idx) : ∀ idx ∈ idxs.modify j (· + 1), -1 ≤ idx := by
  intro idx hmem
  obtain ⟨k, hk, rfl⟩ := List.mem_iff_getElem.mp hmem
  rw [List.getElem_modify]
  have hle := hidx _ (List.getElem_mem (List.length_modify (· + 1) idxs j ▸ hk))
  split_ifs
  · omega
  · exact hle

/-- The next index leaves the rest of a dimension. -/
theorem row_succ {e : String × Diff} {idx : ℤ} (hidx : 0 ≤ idx) : row e (idx + 1) = (row e idx).tail := by
  rw [row, row, if_neg (by omega), if_neg (by omega), List.tail_drop, Int.toNat_add hidx (by omega)]
  rfl

/-- `idx_list[max_idx] += 1`. -/
theorem remaining_modify {j : ℕ} {d : Deviation} {l : List Deviation} (hidx : ∀ idx ∈ idxs, -1 ≤ idx)
    (hget : (remaining dic idxs)[j]? = some (d :: l)) :
    remaining dic (idxs.modify j (· + 1)) = (remaining dic idxs).modify j List.tail := by
  induction dic generalizing idxs j with
  | nil => cases hget
  | cons e dic ih =>
    cases idxs with
    | nil => cases hget
    | cons idx idxs =>
      rw [remaining_cons] at hget ⊢
      cases j with
      | zero =>
        rw [List.getElem?_cons_zero, Option.some_inj] at hget
        have hne := (@scan_dim_cons 0 ⟨"", 0, none, 0, none⟩ e idx d l hget).2
        have hle := hidx idx List.mem_cons_self
        rw [List.modify_zero_cons, List.modify_zero_cons, remaining_cons, row_succ (by omega)]
      | succ j =>
        rw [List.getElem?_cons_succ] at hget
        rw [List.modify_succ_cons, List.modify_succ_cons, remaining_cons,
          ih (fun idx' h => hidx idx' (List.mem_cons_of_mem _ h)) hget]

end Scan

/-! ### All scans -/

variable {dic : Dict String Diff} {threshold : ℚ}

/-- Before any entry is reported, everything is left. -/
theorem remaining_zero (dic : Dict String Diff) : remaining dic (List.replicate dic.length 0) = dic.map deviations := by
  induction dic with
  | nil => rfl
  | cons e dic ih =>
    rw [List.length_cons, List.replicate_succ, remaining_cons, ih, List.map_cons]
    rfl

/-- **The loop** shows the dimension of the largest impact with the impact and the range of the last dimension, up to where
the impacts shown reach the threshold. -/
theorem get_missing_loop_eq {turns : ℕ} {idxs : List ℤ} {total : ℚ} {last : Option (ℚ × Range)}
    (hlen : dic.length = idxs.length) (hidx : ∀ idx ∈ idxs, -1 ≤ idx)
    (hpos : ∀ d ∈ (remaining dic idxs).flatten, 0 < d.impact) (hturns : (remaining dic idxs).flatten.length ≤ turns) :
    get_missing_loop dic threshold (turns + 1) idxs total last =
      some (cutAt Double.add Missing.impact threshold total ((rounds Deviation.impact turns (remaining dic idxs)).map Deviation.mixed)) := by
  induction turns generalizing idxs total last with
  | zero =>
    have hnone : top Deviation.impact (remaining dic idxs) = none :=
      top_eq_none_iff.mpr (List.length_eq_zero_iff.mp (Nat.le_zero.mp hturns))
    rw [get_missing_loop]
    simp only [scan_snd hlen, hnone, Scan.better, Scan.ended]
    rfl
  | succ turns ih =>
    obtain ⟨hrows, hlength, hle⟩ := @scan_fst 0 dic idxs ⟨"", -1, none, -1, last⟩ hlen hidx
    rw [get_missing_loop]
    cases htop : top Deviation.impact (remaining dic idxs) with
    | none =>
      simp only [scan_snd hlen, htop, Scan.better, Scan.ended, rounds]
      rfl
    | some p =>
      obtain ⟨j, d⟩ := p
      obtain ⟨b, hb⟩ := exists_lastHead htop
      have hperm := perm_of_top htop
      have hd : (-1 : ℚ) < d.impact := by linarith [hpos d (hperm.mem_iff.mp List.mem_cons_self)]
      have hj : ((0 + j : ℕ) : ℤ) ≠ -1 := by omega
      obtain ⟨pre, l, post, hsplit, hpre⟩ := top_eq_some htop
      have hget : (remaining dic (scan 0 dic idxs ⟨"", -1, none, -1, last⟩).1)[j]? = some (d :: l) := by
        rw [hrows, hsplit, hpre, List.getElem?_append_right le_rfl, Nat.sub_self, List.getElem?_cons_zero]
      have hnext := remaining_modify hle hget
      simp only [scan_snd hlen, htop, hb, Scan.better, if_pos hd, Scan.ended, Option.map_some, Option.some_or, if_neg hj,
        rounds, List.map_cons, cutAt]
      have hindex : ((0 + j : ℕ) : ℤ).toNat = j := by omega
      rw [hrows] at hnext
      have hshorter := hperm.length_eq
      rw [List.length_cons] at hshorter
      have hrest := @ih ((scan 0 dic idxs ⟨"", -1, none, -1, last⟩).1.modify j (· + 1)) (Double.add total b.2.1) (some b.2)
        (by rw [List.length_modify, hlength, hlen]) (modify_ge hle)
        (by rw [hnext]; exact fun d' hd' => hpos d' (hperm.mem_iff.mp (List.mem_cons_of_mem _ hd'))) (by rw [hnext]; omega)
      rw [hindex, hrest, hnext]
      by_cases hreached : threshold ≤ Double.add total b.2.1 <;> simp [Deviation.mixed, hreached]

/-- More turns change nothing. -/
theorem get_missing_loop_succ {turns : ℕ} {idxs : List ℤ} {total : ℚ} {last : Option (ℚ × Range)} {report : List Missing}
    (h : get_missing_loop dic threshold turns idxs total last = some report) :
    get_missing_loop dic threshold (turns + 1) idxs total last = some report := by
  induction turns generalizing idxs total last report with
  | zero => cases h
  | succ turns ih =>
    rw [get_missing_loop] at h ⊢
    dsimp only at h ⊢
    split_ifs at h ⊢ with hidx
    · exact h
    · split at h
      · cases h
      · split_ifs at h ⊢ with hle
        · exact h
        · rw [Option.map_eq_some_iff] at h ⊢
          obtain ⟨rest, hrest, rfl⟩ := h
          exact ⟨rest, ih hrest, rfl⟩

theorem get_missing_loop_add {turns : ℕ} {idxs : List ℤ} {total : ℚ} {last : Option (ℚ × Range)} {report : List Missing}
    (h : get_missing_loop dic threshold turns idxs total last = some report) (more : ℕ) :
    get_missing_loop dic threshold (turns + more) idxs total last = some report := by
  induction more with
  | zero => exact h
  | succ more ih => exact get_missing_loop_succ ih

/-- Empty dimensions are left out. -/
theorem flatten_build_diff_dic (avg_diffs : Dict String Diff) :
    ((build_diff_dic avg_diffs).map deviations).flatten = avg_diffs.flatMap deviations := by
  induction avg_diffs with
  | nil => rfl
  | cons e avg_diffs ih =>
    rw [List.flatMap_cons, ← ih, build_diff_dic, List.filter_cons]
    by_cases he : e.2 = []
    · simp [he, deviations, build_diff_dic]
    · simp [he, build_diff_dic]

/-- What is shown when nothing stops the loop. -/
def allShown (avg_diffs : Dict String Diff) : List Missing :=
  (rounds Deviation.impact (deviationTable avg_diffs).flatten.length (deviationTable avg_diffs)).map Deviation.mixed

/-- **What is reported**, if the loop may take this many turns or fewer. -/
theorem get_missing_conditions_eq {avg_diffs : Dict String Diff} (hpos : ∀ e ∈ avg_diffs, ∀ ad ∈ e.2, 0 < ad.1) :
    get_missing_conditions avg_diffs threshold ((deviationTable avg_diffs).flatten.length + 1) =
      some (cutAt Double.add Missing.impact threshold 0 (allShown avg_diffs)) := by
  have hzero := remaining_zero (build_diff_dic avg_diffs)
  rw [get_missing_conditions, get_missing_loop_eq (by simp) (by simp) ?_ (by rw [hzero, deviationTable])]
  · rw [hzero]
    rfl
  · rw [hzero, flatten_build_diff_dic]
    intro d hd
    obtain ⟨e, he, hmem⟩ := List.mem_flatMap.mp hd
    obtain ⟨ad, had, rfl⟩ := List.mem_map.mp hmem
    exact hpos e he ad had

/-- The turns do not matter. -/
theorem get_missing_conditions_unique {avg_diffs : Dict String Diff} {turns turns' : ℕ} {report report' : List Missing}
    (h : get_missing_conditions avg_diffs threshold turns = some report)
    (h' : get_missing_conditions avg_diffs threshold turns' = some report') : report = report' := by
  have hlong := get_missing_loop_add h turns'
  have hlong' := get_missing_loop_add h' turns
  rw [Nat.add_comm, hlong] at hlong'
  exact Option.some.inj hlong'

end CondVector

/-! ### What is reported -/

section Report

variable {threshold : ℚ} {avg_diffs : Dict String Diff}

/-- The impacts, the largest first. -/
def impacts (avg_diffs : Dict String Diff) : List ℚ :=
  (merge Deviation.impact (deviationTable avg_diffs)).map Deviation.impact

/-- All entries, the most impactful first. -/
theorem merged_perm (avg_diffs : Dict String Diff) :
    ((merge Deviation.impact (deviationTable avg_diffs)).map Deviation.missing).Perm (allMissing avg_diffs) := by
  rw [allMissing, ← flatten_build_diff_dic]
  exact (merge_perm _ _).map _

theorem impacts_perm (avg_diffs : Dict String Diff) : (impacts avg_diffs).Perm ((allMissing avg_diffs).map Missing.impact) := by
  have hperm := (merged_perm avg_diffs).map Missing.impact
  rwa [List.map_map] at hperm

theorem merged_sorted (hsorted : ∀ e ∈ avg_diffs, Descending Prod.fst e.2) :
    Descending Deviation.impact (merge Deviation.impact (deviationTable avg_diffs)) := by
  refine merge_sorted fun l hl => ?_
  obtain ⟨e, he, rfl⟩ := List.mem_map.mp hl
  exact List.pairwise_map.mpr (hsorted e (List.mem_of_mem_filter he))

theorem impacts_sorted (hsorted : ∀ e ∈ avg_diffs, Descending Prod.fst e.2) :
    (impacts avg_diffs).Pairwise (· ≥ ·) := List.pairwise_map.mpr (merged_sorted hsorted)

theorem length_impacts (avg_diffs : Dict String Diff) : (impacts avg_diffs).length = (allMissing avg_diffs).length := by
  rw [(impacts_perm avg_diffs).length_eq, List.length_map]

/-- The sums of what is reported are the sums of the largest impacts. -/
theorem reached_iff {report : List Missing} (hkeys : report.map Missing.impact = (impacts avg_diffs).take report.length) :
    Reached Double.add threshold 0 (impacts avg_diffs) report.length ↔
      (∀ j, 0 < j → j < report.length → total (report.take j) < threshold) ∧
        (report.length < (allMissing avg_diffs).length → report ≠ [] ∧ threshold ≤ total report) := by
  have htake : ∀ j ≤ report.length, (report.take j).map Missing.impact = (impacts avg_diffs).take j := by
    intro j hj
    rw [List.map_take, hkeys, List.take_take, Nat.min_eq_left hj]
  constructor
  · refine fun h => ⟨fun j hpos hj => ?_, fun hlt => ?_⟩
    · rw [total, htake j hj.le]
      exact h.least j hpos hj
    · obtain ⟨hpos, hle⟩ := h.reached (by rwa [length_impacts])
      rw [← hkeys] at hle
      exact ⟨List.length_pos_iff.mp hpos, hle⟩
  · rintro ⟨hleast, henough⟩
    refine ⟨fun j hpos hj => ?_, fun hlt => ?_⟩
    · rw [← htake j hj.le]
      exact hleast j hpos hj
    · obtain ⟨hne, hle⟩ := henough (by rwa [← length_impacts])
      rw [← hkeys]
      exact ⟨List.length_pos_iff.mpr hne, hle⟩

/-- **The most impactful entries**: entries, each reported once, with the impacts that come first. -/
theorem mostImpactful_iff (hsorted : ∀ e ∈ avg_diffs, Descending Prod.fst e.2) {report : List Missing} :
    MostImpactful threshold (allMissing avg_diffs) report ↔
      report.map Missing.impact = (impacts avg_diffs).take report.length ∧
        Reached Double.add threshold 0 (impacts avg_diffs) report.length ∧
        ∀ m, report.count m ≤ (allMissing avg_diffs).count m := by
  constructor
  · rintro ⟨hdesc, ⟨rest, hperm, hle⟩, hleast, henough⟩
    have hall : Descending Missing.impact
        ((merge Deviation.impact (deviationTable avg_diffs)).map Deviation.missing) :=
      List.pairwise_map.mpr (merged_sorted hsorted)
    have hkeys : report.map Missing.impact = (impacts avg_diffs).take report.length := by
      have hfirst := keys_eq_of_largest hdesc (hperm.trans (merged_perm avg_diffs).symm) hle hall
      rwa [List.map_map] at hfirst
    refine ⟨hkeys, (reached_iff hkeys).mpr ⟨hleast, henough⟩, fun m => ?_⟩
    rw [← hperm.count_eq m, List.count_append]
    exact Nat.le_add_right _ _
  · rintro ⟨hkeys, hreached, hcount⟩
    obtain ⟨hleast, henough⟩ := (reached_iff hkeys).mp hreached
    have hsplit := List.take_append_drop report.length (impacts avg_diffs)
    have hpairs := impacts_sorted hsorted
    rw [← hsplit, List.pairwise_append, ← hkeys] at hpairs
    have hperm := List.subperm_append_diff_self_of_count_le fun m (_ : m ∈ report) => hcount m
    have hrest : (((allMissing avg_diffs).diff report).map Missing.impact).Perm ((impacts avg_diffs).drop report.length) := by
      have hboth := (hperm.map Missing.impact).trans (impacts_perm avg_diffs).symm
      rw [← hsplit, List.map_append, ← hkeys, List.perm_append_left_iff] at hboth
      exact hboth
    refine ⟨List.pairwise_map.mp hpairs.1, ⟨_, hperm, fun m hm m' hm' => ?_⟩, hleast, henough⟩
    exact hpairs.2.2 _ (List.mem_map_of_mem hm) _ (hrest.mem_iff.mp (List.mem_map_of_mem hm'))

/-- What is shown has the largest impacts up to some length exactly when the last dimension has them. -/
theorem take_impacts_iff (k : ℕ) :
    ((allShown avg_diffs).map Missing.impact).take k = (impacts avg_diffs).take k ↔
      ∀ p ∈ (rounds Deviation.impact (deviationTable avg_diffs).flatten.length (deviationTable avg_diffs)).take k,
        p.2.impact = p.1.impact := by
  rw [allShown, impacts, merge, List.map_map, List.map_map, ← List.map_take, ← List.map_take, List.map_inj_left]
  rfl

/-- **What is reported is the most impactful** exactly when the impacts are the ones of the entries that are taken, and
nothing is shown more often than there is. -/
theorem reports_iff (hpos : ∀ e ∈ avg_diffs, ∀ ad ∈ e.2, 0 < ad.1) (hsorted : ∀ e ∈ avg_diffs, Descending Prod.fst e.2) :
    (∃ turns report, get_missing_conditions avg_diffs threshold turns = some report ∧
      MostImpactful threshold (allMissing avg_diffs) report) ↔
        (∀ p ∈ takenRounds threshold avg_diffs, p.2.impact = p.1.impact) ∧
          ∀ m, ((takenRounds threshold avg_diffs).map Deviation.mixed).count m ≤ (allMissing avg_diffs).count m := by
  have hrun := @get_missing_conditions_eq threshold avg_diffs hpos
  have hreport : (∃ turns report, get_missing_conditions avg_diffs threshold turns = some report ∧
      MostImpactful threshold (allMissing avg_diffs) report) ↔
        MostImpactful threshold (allMissing avg_diffs) (cutAt Double.add Missing.impact threshold 0 (allShown avg_diffs)) := by
    refine ⟨?_, fun h => ⟨_, _, hrun, h⟩⟩
    rintro ⟨turns, report, hrun', h⟩
    rwa [get_missing_conditions_unique hrun hrun']
  have hk : Reached Double.add threshold 0 (impacts avg_diffs)
      (cutAt Double.add Deviation.impact threshold 0 (merge Deviation.impact (deviationTable avg_diffs))).length := reached_cutAt _
  have hshown : Reached Double.add threshold 0 ((allShown avg_diffs).map Missing.impact)
      (cutAt Double.add Missing.impact threshold 0 (allShown avg_diffs)).length := reached_cutAt _
  have hlen : ((allShown avg_diffs).map Missing.impact).length = (impacts avg_diffs).length := by
    simp [allShown, impacts, merge]
  have hkl : (cutAt Double.add Deviation.impact threshold 0 (merge Deviation.impact (deviationTable avg_diffs))).length ≤
      (impacts avg_diffs).length := by
    rw [impacts, List.length_map]
    exact (cutAt_prefix_self _).length_le
  have hstart := List.prefix_iff_eq_take.mp
    (@cutAt_prefix_self _ _ _ Double.add Missing.impact threshold 0 (allShown avg_diffs))
  have hsl : (cutAt Double.add Missing.impact threshold 0 (allShown avg_diffs)).length ≤ (impacts avg_diffs).length := by
    rw [← hlen, List.length_map]
    exact (cutAt_prefix_self _).length_le
  rw [hreport, mostImpactful_iff hsorted, takenRounds, ← take_impacts_iff]
  constructor
  · rintro ⟨hkeys, hreached, hcount⟩
    have heq := hreached.unique hk hsl hkl
    rw [heq] at hstart hkeys
    rw [hstart] at hkeys hcount
    rw [List.map_take] at hkeys
    refine ⟨hkeys, ?_⟩
    rwa [List.map_take]
  · rintro ⟨htake, hcount⟩
    have heq := (hk.of_take htake.symm hlen.symm).unique hshown (hlen ▸ hkl) (hlen ▸ hsl)
    rw [← heq] at hstart
    rw [List.map_take, ← allShown, ← hstart] at hcount
    refine ⟨?_, heq ▸ hk, hcount⟩
    rw [← heq, hstart, List.map_take]
    exact htake

/-- What is taken is the most impactful. -/
theorem count_taken_le (m : Missing) :
    ((takenRounds threshold avg_diffs).map fun p => p.1.missing).count m ≤ (allMissing avg_diffs).count m := by
  have hmerged : ((takenRounds threshold avg_diffs).map fun p => p.1.missing).Sublist
      ((merge Deviation.impact (deviationTable avg_diffs)).map Deviation.missing) := by
    rw [merge, List.map_map]
    exact (List.take_sublist _ _).map _
  rw [← (merged_perm avg_diffs).count_eq m]
  exact hmerged.count_le m

/-- Both entries of a round are entries of the functions. -/
theorem mem_taken {p : Deviation × Deviation} (hp : p ∈ takenRounds threshold avg_diffs) :
    p.1 ∈ avg_diffs.flatMap deviations ∧ p.2 ∈ avg_diffs.flatMap deviations := by
  rw [← flatten_build_diff_dic]
  exact mem_of_mem_rounds (List.mem_of_mem_take hp)

/-- An entry is known by its impact when no other one has it. -/
theorem DistinctImpacts.eq (h : DistinctImpacts avg_diffs) {a b : Deviation} (ha : a ∈ avg_diffs.flatMap deviations)
    (hb : b ∈ avg_diffs.flatMap deviations) (heq : a.impact = b.impact) : a = b := by
  rw [DistinctImpacts, allMissing, List.map_map] at h
  exact List.inj_on_of_nodup_map h ha hb heq

/-- **`get_missing_conditions`** reports the most impactful entries when the one that is taken is each time the next one of
the last dimension that has any left; it does not when that one's impact is not the largest, and so, when no two impacts are
equal, in no other case. -/
theorem get_missing_conditions_iff (avg_diffs : Dict String Diff) (threshold : ℚ)
    (hpos : ∀ e ∈ avg_diffs, ∀ ad ∈ e.2, 0 < ad.1) (hsorted : ∀ e ∈ avg_diffs, Descending Prod.fst e.2) :
    (TakesLast threshold avg_diffs → ∃ turns report, get_missing_conditions avg_diffs threshold turns = some report ∧
      MostImpactful threshold (allMissing avg_diffs) report) ∧
    ((∃ turns report, get_missing_conditions avg_diffs threshold turns = some report ∧
      MostImpactful threshold (allMissing avg_diffs) report) →
        ∀ p ∈ takenRounds threshold avg_diffs, p.2.impact = p.1.impact) ∧
    (DistinctImpacts avg_diffs → ((∃ turns report, get_missing_conditions avg_diffs threshold turns = some report ∧
      MostImpactful threshold (allMissing avg_diffs) report) ↔ TakesLast threshold avg_diffs)) := by
  have henough : TakesLast threshold avg_diffs → ∃ turns report,
      get_missing_conditions avg_diffs threshold turns = some report ∧
        MostImpactful threshold (allMissing avg_diffs) report := by
    refine fun h => (reports_iff hpos hsorted).mpr ⟨fun p hp => (h p hp).1.symm, fun m => ?_⟩
    have hsame : (takenRounds threshold avg_diffs).map Deviation.mixed =
        (takenRounds threshold avg_diffs).map fun p => p.1.missing := by
      refine List.map_congr_left fun p hp => ?_
      obtain ⟨himpact, hstart, hstop⟩ := h p hp
      simp only [Deviation.mixed, Deviation.missing, himpact, hstart, hstop]
    rw [hsame]
    exact count_taken_le m
  refine ⟨henough, fun h => ((reports_iff hpos hsorted).mp h).1, fun hdistinct => ⟨fun h p hp => ?_, henough⟩⟩
  obtain ⟨htaken, hlast⟩ := mem_taken hp
  have hsame := hdistinct.eq htaken hlast (((reports_iff hpos hsorted).mp h).1 p hp).symm
  rw [hsame]
  exact ⟨rfl, rfl, rfl⟩

/-- A tenth, as a double, twelve times: ten of them do not add up to one. -/
example : (get_missing_conditions [("flags", List.replicate 12 (Double.round (1 / 10), ⟨0, 0, 1, ∅⟩))] 1 13).map
    List.length = some 11 := by decide +kernel

/-- Two dimensions. -/
def flagsLast : Dict String Diff := [("inode", [(1, ⟨0, 0, 1, ∅⟩)]), ("flags", [(5, ⟨0, 4, 1, ∅⟩), (2, ⟨7, 8, 1, ∅⟩)])]

/-- The second one has the larger impacts. -/
theorem get_missing_conditions_last : ∃ turns report, get_missing_conditions flagsLast 6 turns = some report ∧
    MostImpactful 6 (allMissing flagsLast) report := by
  refine (get_missing_conditions_iff flagsLast 6 (by decide) (by simp [Descending, flagsLast]; norm_num)).1 ?_
  unfold TakesLast
  decide +kernel

/-- The same dimensions in the other order. -/
def flagsFirst : Dict String Diff := flagsLast.reverse

/-- The largest impact is in the first dimension, and the second one's is shown. -/
theorem not_get_missing_conditions : ¬ ∀ (avg_diffs : Dict String Diff) (threshold : ℚ),
    (∀ e ∈ avg_diffs, ∀ ad ∈ e.2, 0 < ad.1) → (∀ e ∈ avg_diffs, Descending Prod.fst e.2) →
      ∃ turns report, get_missing_conditions avg_diffs threshold turns = some report ∧
        MostImpactful threshold (allMissing avg_diffs) report := by
  intro h
  obtain ⟨turns, report, hrun, hreport⟩ :=
    h flagsFirst 1 (by decide) (by simp [Descending, flagsFirst, flagsLast]; norm_num)
  have hone : get_missing_conditions flagsFirst 1 1 = some [⟨1, "flags", 0, 0⟩] := by decide +kernel
  obtain rfl := get_missing_conditions_unique hone hrun
  obtain ⟨rest, hperm, -⟩ := hreport.largest
  have hmem : (⟨1, "flags", 0, 0⟩ : Missing) ∈ allMissing flagsFirst := hperm.mem_iff.mp List.mem_cons_self
  revert hmem
  decide

end Report

end SEDiff.Juxta
