import SEDiff.Juxta.DiffObjects
import SEDiff.Juxta.Maximum
import Mathlib.Analysis.Real.Sqrt

/-!
# The distance of two vectors

`RangeSetVector.__euclidean_distance` of `rsv.py`. It visits the dimensions of a Python `set`, in an
order that is not specified, and overwrites `dsum` in each.

## What is proved

* `RangeSetVector.distance_dims_ok` — `dsum` is the square of the distance in the last dimension visited.
* `RangeSetVector.distance_sq_iff` — so the distance is Euclidean exactly when the dimensions visited
  before the last one have distance zero.
-/

namespace SEDiff.Juxta

open Foundation

namespace RangeSetVector

open RangeSet InPlace

/-- What `__euclidean_distance` has computed so far. -/
structure Comparison where
  /-- The ranges. -/
  heap : Store Range
  /-- `self.rsv`. -/
  rsv : RangeSetVector
  /-- The `ldiff` and `rdiff` of the sets in `self.rsv`. -/
  diffs : Dict String (RefDiff × RefDiff)
  /-- `dsum`. -/
  dsum : ℚ

/-- One iteration of the loop over the dimensions. -/
def distance_dim (rhs : RangeSetVector) (c : Comparison) (dim : String) : Except PyErr Comparison := do
  -- "add dim to keep track ldiff"
  let rsv := if c.rsv.get? dim = none then c.rsv.put dim [] else c.rsv
  let (h, dist, ldiff, rdiff) ← InPlace.distance c.heap (get rsv dim) (rhs.get dim)
  return ⟨h, rsv, c.diffs.put dim (ldiff, rdiff), dist ^ 2⟩

/-- `__euclidean_distance`, up to the square root, visiting the dimensions in the order `dims`. -/
def euclidean_distance (dims : List String) (h : Store Range) (v rhs : RangeSetVector) : Except PyErr Comparison :=
  dims.foldlM (distance_dim rhs) ⟨h, v, [], 0⟩

/-- What `distance` returns: `dsum ** 0.5`. -/
noncomputable def Comparison.distance (c : Comparison) : ℝ := Real.sqrt c.dsum

/-- The distance of the two sets in a dimension; one that is absent counts as the empty set. -/
def dimDistance (h : Store Range) (v rhs : RangeSetVector) (dim : String) : Except PyErr ℚ :=
  (RangeSet.distance ((v.get dim).map h.obj) ((rhs.get dim).map h.obj)).map Prod.fst

/-- The ranges of a vector are allocated. -/
def Live (h : Store Range) (v : RangeSetVector) : Prop := ∀ dim, ∀ o ∈ v.get dim, o < h.next

/-- What the loop keeps. -/
structure Unchanged (h : Store Range) (v : RangeSetVector) (c : Comparison) : Prop where
  /-- No range of either vector changes. -/
  agrees : h.Agrees c.heap fun _ => False
  /-- The receiver has the sets it had, and empty ones. -/
  get_eq : ∀ dim, get c.rsv dim = v.get dim

theorem get_ensure (v : RangeSetVector) (dim dim' : String) :
    get (if v.get? dim = none then v.put dim [] else v) dim' = v.get dim' := by
  split_ifs with hnone
  · by_cases hd : dim' = dim
    · rw [hd, get_put_self, get, hnone]
      rfl
    · rw [get_put_of_ne _ _ hd]
  · rfl

/-- The sets in a dimension have the values they had. -/
theorem Unchanged.map_obj {h : Store Range} {v : RangeSetVector} {c : Comparison} (hc : Unchanged h v c)
    {os : List ℕ} (hos : ∀ o ∈ os, o < h.next) :
    (∀ o ∈ os, o < c.heap.next) ∧ os.map c.heap.obj = os.map h.obj :=
  ⟨fun o ho => (hos o ho).trans_le hc.agrees.next_le,
    List.map_congr_left fun o ho => hc.agrees.obj_eq o (hos o ho) id⟩

/-- What the loop measures in a dimension. -/
theorem distance_dim_eq {h : Store Range} {v rhs : RangeSetVector} (hv : Live h v) (hr : Live h rhs)
    {c : Comparison} (hc : Unchanged h v c) (dim : String) :
    let rsv := if c.rsv.get? dim = none then c.rsv.put dim [] else c.rsv
    (InPlace.distance c.heap (get rsv dim) (rhs.get dim)).map (fun y => y.2.1) = dimDistance h v rhs dim ∧
      ∀ y, InPlace.distance c.heap (get rsv dim) (rhs.get dim) = .ok y → c.heap.Agrees y.1 fun _ => False := by
  intro rsv
  have hget : get rsv dim = v.get dim := (get_ensure c.rsv dim dim).trans (hc.get_eq dim)
  obtain ⟨hl, hlv⟩ := hc.map_obj (hv dim)
  obtain ⟨hrl, hrv⟩ := hc.map_obj (hr dim)
  rw [hget]
  obtain ⟨hval, hag⟩ := distance_refines hl hrl
  refine ⟨?_, hag⟩
  rw [dimDistance, ← hlv, ← hrv, ← hval]
  cases InPlace.distance c.heap (v.get dim) (rhs.get dim) with
  | error e => rfl
  | ok y => rfl

/-- One dimension. -/
theorem distance_dim_ok {h : Store Range} {v rhs : RangeSetVector} (hv : Live h v) (hr : Live h rhs)
    {c : Comparison} (hc : Unchanged h v c) {dim : String} {d : ℚ} (hd : dimDistance h v rhs dim = .ok d) :
    ∃ c', distance_dim rhs c dim = .ok c' ∧ Unchanged h v c' ∧ c'.dsum = d ^ 2 := by
  obtain ⟨hval, hag⟩ := distance_dim_eq hv hr hc dim
  rw [hd] at hval
  unfold distance_dim
  simp only
  cases hrun : InPlace.distance c.heap (get (if c.rsv.get? dim = none then c.rsv.put dim [] else c.rsv) dim)
      (rhs.get dim) with
  | error e =>
    rw [hrun] at hval
    cases hval
  | ok y =>
    rw [hrun] at hval
    obtain rfl := Except.ok.inj hval
    exact ⟨_, rfl, ⟨hc.agrees.trans (hag y hrun) fun _ _ e => e,
      fun dim' => (get_ensure c.rsv dim dim').trans (hc.get_eq dim')⟩, rfl⟩

/-- A dimension whose assertion fails. -/
theorem distance_dim_error {h : Store Range} {v rhs : RangeSetVector} (hv : Live h v) (hr : Live h rhs)
    {c : Comparison} (hc : Unchanged h v c) {dim : String} {e : PyErr} (hd : dimDistance h v rhs dim = .error e) :
    distance_dim rhs c dim = .error e := by
  obtain ⟨hval, -⟩ := distance_dim_eq hv hr hc dim
  rw [hd] at hval
  unfold distance_dim
  simp only
  cases hrun : InPlace.distance c.heap (get (if c.rsv.get? dim = none then c.rsv.put dim [] else c.rsv) dim)
      (rhs.get dim) with
  | error e' =>
    rw [hrun] at hval
    obtain rfl := Except.error.inj hval
    rfl
  | ok y =>
    rw [hrun] at hval
    cases hval

/-- **The loop**: only the dimension visited last counts. -/
theorem distance_dims_ok {h : Store Range} {v rhs : RangeSetVector} (hv : Live h v) (hr : Live h rhs)
    {d : String → ℚ} {dims : List String} (hd : ∀ dim ∈ dims, dimDistance h v rhs dim = .ok (d dim))
    {c : Comparison} (hc : Unchanged h v c) :
    ∃ c', dims.foldlM (distance_dim rhs) c = .ok c' ∧ Unchanged h v c' ∧
      c'.dsum = (dims.getLast?.map fun dim => d dim ^ 2).getD c.dsum := by
  induction dims generalizing c with
  | nil => exact ⟨c, rfl, hc, rfl⟩
  | cons dim dims ih =>
    obtain ⟨c₁, hrun₁, hc₁, hsum₁⟩ := distance_dim_ok hv hr hc (hd dim List.mem_cons_self)
    obtain ⟨c', hrun, hc', hsum⟩ := ih (fun dim' hm => hd dim' (List.mem_cons_of_mem _ hm)) hc₁
    refine ⟨c', ?_, hc', ?_⟩
    · rw [List.foldlM_cons, hrun₁]
      exact hrun
    · rw [hsum]
      cases dims with
      | nil => exact hsum₁
      | cons dim' dims => simp [List.getLast?_cons]

theorem distance_dims_error {h : Store Range} {v rhs : RangeSetVector} (hv : Live h v) (hr : Live h rhs)
    {dims : List String} (hd : ∃ dim ∈ dims, ∃ e, dimDistance h v rhs dim = .error e) {c : Comparison}
    (hc : Unchanged h v c) : ∃ e, dims.foldlM (distance_dim rhs) c = .error e := by
  induction dims generalizing c with
  | nil => simp at hd
  | cons dim dims ih =>
    rw [List.foldlM_cons]
    cases hdim : dimDistance h v rhs dim with
    | error e =>
      rw [distance_dim_error hv hr hc hdim]
      exact ⟨e, rfl⟩
    | ok d =>
      obtain ⟨c₁, hrun₁, hc₁, -⟩ := distance_dim_ok hv hr hc hdim
      obtain ⟨dim', hm, e, he⟩ := hd
      have hm' : dim' ∈ dims := by
        rcases List.mem_cons.mp hm with rfl | hm
        · rw [hdim] at he
          cases he
        · exact hm
      rw [hrun₁]
      exact ih ⟨dim', hm', e, he⟩ hc₁

/-! ### Sets at distance zero -/

/-- A range lies below the density of its set. -/
theorem rho_le_rhoOf {rs : List Range} (hwf : ∀ r ∈ rs, r.WF) {r : Range} (hm : r ∈ rs) (x : ℤ) :
    r.rho x ≤ rhoOf rs x := by
  have hnn : ∀ v ∈ (rs.map Range.rho).map fun f : ℤ → ℚ => f x, 0 ≤ v := by
    intro v hv
    obtain ⟨f, hf, rfl⟩ := List.mem_map.mp hv
    obtain ⟨s, hs, rfl⟩ := List.mem_map.mp hf
    exact Range.rho_nonneg (hwf s hs) x
  exact List.single_le_sum hnn _ (List.mem_map.mpr ⟨r.rho, List.mem_map_of_mem hm, rfl⟩)

/-- Ranges that weigh nothing have no density. -/
theorem rhoOf_eq_zero {rs : List Range} (hz : ∀ r ∈ rs, r.weight = 0) (x : ℤ) : rhoOf rs x = 0 := by
  refine List.sum_eq_zero fun v hv => ?_
  obtain ⟨f, hf, rfl⟩ := List.mem_map.mp hv
  obtain ⟨r, hr, rfl⟩ := List.mem_map.mp hf
  rw [Range.rho_def, hz r hr, ite_self]

/-- Sets of disjoint ranges are at distance zero when no range weighs anything. -/
theorem distance_eq_zero_iff {rs rhs : List Range} (hl : Tidy rs) (hr : Tidy rhs) {d : ℚ}
    (hd : (RangeSet.distance rs rhs).map Prod.fst = .ok d) : d = 0 ↔ ∀ r ∈ rs ++ rhs, r.weight = 0 := by
  obtain ⟨ld, rd, hrun⟩ := distance_spec hl.wf hr.wf hl.disjoint hr.disjoint
  rw [hrun] at hd
  obtain rfl := Except.ok.inj hd
  show area (fun x => max (rhoOf rs x) (rhoOf rhs x)) = 0 ↔ _
  have hwf : ∀ r ∈ rs ++ rhs, r.WF := List.forall_mem_append.mpr ⟨hl.wf, hr.wf⟩
  have hfin := (finite_support_max (finite_support_rhoOf rs) (finite_support_rhoOf rhs))
  have hbelow : ∀ r ∈ rs ++ rhs, ∀ x, r.rho x ≤ max (rhoOf rs x) (rhoOf rhs x) := by
    intro r hm x
    rcases List.mem_append.mp hm with hm | hm
    · exact le_max_of_le_left (rho_le_rhoOf hl.wf hm x)
    · exact le_max_of_le_right (rho_le_rhoOf hr.wf hm x)
  constructor
  · intro hz r hm
    have hrw := hwf r hm
    have hsane := hrw.sane
    have harea := area_mono (finite_support_box _ _ _) hfin (hbelow r hm)
    rw [hz] at harea
    rw [area_box r.weight (by omega)] at harea
    have hwidth : (0 : ℚ) < r.stop - r.start + 1 := by
      have : (r.start : ℚ) ≤ r.stop := by exact_mod_cast hsane
      linarith
    nlinarith [hrw.nonneg]
  · intro hz
    have hzero : (fun x => max (rhoOf rs x) (rhoOf rhs x)) = fun _ => 0 := by
      funext x
      rw [rhoOf_eq_zero fun r hm => hz r (List.mem_append_left _ hm),
        rhoOf_eq_zero fun r hm => hz r (List.mem_append_right _ hm), max_self]
    rw [hzero, area_zero]

/-- Every set of a vector is one of well-formed, pairwise disjoint ranges. -/
def TidyVec (h : Store Range) (v : RangeSetVector) : Prop := ∀ dim, Tidy ((v.get dim).map h.obj)

/-- The sum of squares is that of the last one exactly when the others are zero. -/
theorem getLast_sq_eq_sum_iff {d : String → ℚ} (dims : List String) :
    (dims.getLast?.map fun dim => d dim ^ 2).getD 0 = (dims.map fun dim => d dim ^ 2).sum ↔
      ∀ dim ∈ dims.dropLast, d dim = 0 := by
  induction dims using List.reverseRecOn with
  | nil => simp
  | append_singleton dims dim _ =>
    have hsq : (dims.map fun dim => d dim ^ 2).sum = 0 ↔ ∀ dim ∈ dims, d dim ^ 2 = 0 :=
      sum_map_eq_zero_iff fun dim => sq_nonneg (d dim)
    have hlast : ((dims ++ [dim]).getLast?.map fun dim => d dim ^ 2).getD 0 = d dim ^ 2 := by simp
    have hsum : ((dims ++ [dim]).map fun dim => d dim ^ 2).sum = (dims.map fun dim => d dim ^ 2).sum + d dim ^ 2 := by
      simp
    rw [hlast, hsum, eq_comm, add_eq_right, hsq, List.dropLast_concat]
    exact forall₂_congr fun dim _ => sq_eq_zero_iff

/-- The distance, when every dimension has one. -/
theorem euclidean_distance_sq {h : Store Range} {v rhs : RangeSetVector} (hv : Live h v) (hr : Live h rhs)
    {dims : List String} (hdims : dims.Perm (v.get_dimensions rhs)) {d : String → ℚ}
    (hd : ∀ dim ∈ dims, dimDistance h v rhs dim = .ok (d dim)) :
    ∃ c, euclidean_distance dims h v rhs = .ok c ∧
      (c.distance ^ 2 = (((v.get_dimensions rhs).map fun dim => d dim ^ 2).sum : ℚ) ↔
        ∀ dim ∈ dims.dropLast, d dim = 0) := by
  have hstart : Unchanged h v ⟨h, v, [], 0⟩ := ⟨.refl _ _, fun _ => rfl⟩
  obtain ⟨c, hrun, -, hsum⟩ := distance_dims_ok hv hr hd hstart
  have hnn : 0 ≤ c.dsum := by
    rw [hsum]
    cases dims.getLast? with
    | none => exact le_rfl
    | some dim => exact sq_nonneg (d dim)
  have hperm : (dims.map fun dim => d dim ^ 2).sum = ((v.get_dimensions rhs).map fun dim => d dim ^ 2).sum :=
    (hdims.map _).sum_eq
  refine ⟨c, hrun, ?_⟩
  rw [Comparison.distance, Real.sq_sqrt (by exact_mod_cast hnn), Rat.cast_inj, hsum, ← hperm]
  exact getLast_sq_eq_sum_iff dims

/-- **The distance of two vectors**: its square is the sum of the squares over all the dimensions
exactly when every dimension visited before the last one has distance zero, that is, for disjoint
ranges, when no range there weighs anything. It raises when a dimension does. -/
theorem distance_sq_iff {h : Store Range} {v rhs : RangeSetVector} (hv : Live h v) (hr : Live h rhs)
    {dims : List String} (hdims : dims.Perm (v.get_dimensions rhs)) :
    (∀ d : String → ℚ, (∀ dim ∈ dims, dimDistance h v rhs dim = .ok (d dim)) →
      ∃ c, euclidean_distance dims h v rhs = .ok c ∧
        (c.distance ^ 2 = (((v.get_dimensions rhs).map fun dim => d dim ^ 2).sum : ℚ) ↔
          ∀ dim ∈ dims.dropLast, d dim = 0) ∧
        (TidyVec h v → TidyVec h rhs →
          (c.distance ^ 2 = (((v.get_dimensions rhs).map fun dim => d dim ^ 2).sum : ℚ) ↔
            ∀ dim ∈ dims.dropLast, ∀ o ∈ v.get dim ++ rhs.get dim, (h.obj o).weight = 0))) ∧
    ((∃ dim ∈ dims, ∃ e, dimDistance h v rhs dim = .error e) →
      ∃ e, euclidean_distance dims h v rhs = .error e) := by
  have hstart : Unchanged h v ⟨h, v, [], 0⟩ := ⟨.refl _ _, fun _ => rfl⟩
  refine ⟨fun d hd => ?_, fun herr => distance_dims_error hv hr herr hstart⟩
  obtain ⟨c, hrun, hiff⟩ := euclidean_distance_sq hv hr hdims hd
  refine ⟨c, hrun, hiff, fun hvt hrt => hiff.trans (forall₂_congr fun dim hdim => ?_)⟩
  rw [distance_eq_zero_iff (hvt dim) (hrt dim) (hd dim (List.dropLast_subset _ hdim)), ← List.map_append,
    List.forall_mem_map]

/-- Two ranges, in a vector each. -/
def twoRanges : Store Range := Store.ofList ⟨0, 0, 0, ∅⟩ [⟨0, 1, 1, ∅⟩, ⟨0, 1, 2, ∅⟩]

theorem live_ofList {d : Range} (rs : List Range) {v : RangeSetVector} (hv : ∀ e ∈ v, ∀ o ∈ e.2, o < rs.length) :
    Live (Store.ofList d rs) v := by
  intro dim o ho
  unfold get at ho
  induction v with
  | nil => cases ho
  | cons e v ih =>
    rw [Dict.get?] at ho
    split_ifs at ho with hd
    · exact hv e List.mem_cons_self o ho
    · exact ih (fun e' he' => hv e' (List.mem_cons_of_mem _ he')) ho

/-- Three ranges, one of which weighs nothing. -/
def threeRanges : Store Range := Store.ofList ⟨0, 0, 0, ∅⟩ [⟨3, 8, 0, ∅⟩, ⟨0, 1, 1, ∅⟩, ⟨0, 1, 2, ∅⟩]

/-- Two dimensions, of which the first has distance zero. -/
theorem distance_sq_iff_two :
    ∃ c, euclidean_distance ["A", "B"] threeRanges [("A", [0]), ("B", [1])] [("B", [2])] = .ok c ∧
      c.distance ^ 2 = ((["A", "B"].map fun dim => (if dim = "A" then 0 else 4 : ℚ) ^ 2).sum : ℚ) := by
  have hlive : ∀ v : RangeSetVector, (∀ e ∈ v, ∀ o ∈ e.2, o < 3) → Live threeRanges v := fun v hv => live_ofList _ hv
  have hd : ∀ dim ∈ ["A", "B"], dimDistance threeRanges [("A", [0]), ("B", [1])] [("B", [2])] dim =
      .ok (if dim = "A" then 0 else 4) := by
    intro dim hdim
    simp only [List.mem_cons, List.not_mem_nil, or_false] at hdim
    rcases hdim with rfl | rfl <;> decide +kernel
  obtain ⟨c, hrun, hiff, -⟩ := (@distance_sq_iff threeRanges [("A", [0]), ("B", [1])] [("B", [2])] (hlive _ (by decide))
    (hlive _ (by decide)) ["A", "B"] (by decide)).1 (fun dim => if dim = "A" then 0 else 4) hd
  refine ⟨c, hrun, hiff.mpr fun dim hdim => ?_⟩
  obtain rfl : dim = "A" := List.mem_singleton.mp hdim
  rfl

/-- Two dimensions with the same set against nothing: only the second one counts. -/
theorem distance_not_euclidean :
    ¬ ∀ (h : Store Range) (v rhs : RangeSetVector), Live h v → Live h rhs →
      ∀ dims : List String, dims.Perm (v.get_dimensions rhs) →
        ∀ d : String → ℚ, (∀ dim ∈ dims, dimDistance h v rhs dim = .ok (d dim)) →
          ∀ c, euclidean_distance dims h v rhs = .ok c →
            c.distance ^ 2 = (((v.get_dimensions rhs).map fun dim => d dim ^ 2).sum : ℚ) := by
  intro hall
  have hv : Live twoRanges [("A", [0]), ("B", [0])] := live_ofList _ (by decide)
  have hr : Live twoRanges [] := live_ofList _ (by decide)
  have hdims : ["A", "B"].Perm (get_dimensions [("A", [0]), ("B", [0])] []) := by decide
  have hd : ∀ dim ∈ ["A", "B"], dimDistance twoRanges [("A", [0]), ("B", [0])] [] dim = .ok 2 := by
    intro dim hdim
    simp only [List.mem_cons, List.not_mem_nil, or_false] at hdim
    rcases hdim with rfl | rfl <;> decide +kernel
  obtain ⟨c, hrun, hiff⟩ := euclidean_distance_sq hv hr hdims (d := fun _ => 2) hd
  have hzero := hiff.mp (hall _ _ _ hv hr _ hdims (fun _ => 2) hd c hrun) "A" (by decide)
  exact absurd hzero (by decide)

end RangeSetVector

end SEDiff.Juxta
