import SEDiff.Juxta.Gains
import SEDiff.Juxta.Maximum

/-!
# The average of vectors

`calc_average_rsv` of `rsv.py`: the vectors are intersected one after the other, each time on deep
copies, and the ranges of the result are divided by the number of vectors in place.

## What is proved

* `RangeSetVector.average_loop_gains` — the intersections add up the densities, and the excesses of
  their insertions on top; no range of an input changes.
* `RangeSetVector.calc_average_rsv_mean` — so the average is the pointwise mean when every insertion
  adds once, and only if every insertion into disjoint ranges does.
-/

namespace SEDiff.Juxta

open Foundation

namespace RangeSetVector

open RangeSet

/-- `intersection`. -/
def intersection (h : Store Range) (v rhs : RangeSetVector) : Except PyErr (Store Range × RangeSetVector) :=
  op_dims RangeSet.intersection_assign v rhs h (v.get_dimensions rhs) []

/-- `div_assign`. -/
def div_assign (n : ℚ) (h : Store Range) (v : RangeSetVector) : Store Range :=
  (Dict.keys v).foldl (fun h dim => RangeSet.div_assign n h (v.get dim)) h

/-- The loop of `calc_average_rsv`. -/
def average_loop : Store Range → RangeSetVector → List RangeSetVector → Except PyErr (Store Range × RangeSetVector)
  | h, avg, [] => .ok (h, avg)
  | h, avg, rsv :: rsvs => do
    let (h, avg) ← intersection h rsv avg
    average_loop h avg rsvs

/-- `calc_average_rsv`. After the loop `n` is the number of vectors less two. -/
def calc_average_rsv (h : Store Range) : List RangeSetVector → Except PyErr (Store Range × RangeSetVector)
  | [] => .error .indexError
  | avg :: rsvs => do
    let (h, avg) ← average_loop h avg rsvs
    return (div_assign (rsvs.length + 1) h avg, avg)

/-! ### One intersection -/

/-- The insertions of `intersection` in the dimensions `dims` all satisfy `P` beforehand. -/
def DimsEach (P : List Range → Range → Prop) (v rhs : RangeSetVector) : Store Range → List String → Prop
  | _, [] => True
  | h, dim :: dims =>
    let l := deepcopy h (v.get dim)
    let r := deepcopy l.1 (rhs.get dim)
    BeforeEach Range.intersection_assign P r.1 l.2 r.2 ∧
      match RangeSet.intersection_assign r.1 l.2 r.2 with
      | .ok (h', _) => DimsEach P v rhs h' dims
      | .error _ => True

/-- The ranges of every dimension are allocated, and none is listed twice. -/
def VecLive (h : Store Range) (v : RangeSetVector) : Prop :=
  ∀ dim, (∀ o ∈ v.get dim, o < h.next) ∧ (v.get dim).Nodup

theorem VecWF.vecLive {h : Store Range} {v : RangeSetVector} (hv : VecWF h v) : VecLive h v :=
  fun dim => ⟨(hv dim).live, (hv dim).nodup⟩

theorem VecLive.mono {h h' : Store Range} {v : RangeSetVector} (hv : VecLive h v) (hle : h.next ≤ h'.next) :
    VecLive h' v :=
  fun dim => ⟨fun o ho => ((hv dim).1 o ho).trans_le hle, (hv dim).2⟩

theorem density_of_agrees {h h' : Store Range} {v : RangeSetVector} (hag : h.Agrees h' fun _ => False)
    (hv : VecLive h v) (dim : String) (x : ℤ) : density h' v dim x = density h v dim x :=
  Range.rhoAt_congr (fun o ho => hag.obj_eq o ((hv dim).1 o ho) id) x

/-- What one dimension of `intersection` computes. -/
theorem intersection_dim {h : Store Range} (hwf : Range.AllWF h) {os qs : List ℕ}
    (ho : ∀ o ∈ os, o < h.next) (hq : ∀ q ∈ qs, q < h.next) :
    let l := deepcopy h os
    let r := deepcopy l.1 qs
    ∃ (h' : Store Range) (rs' : List ℕ) (E : ℤ → ℚ), RangeSet.intersection_assign r.1 l.2 r.2 = .ok (h', rs') ∧
      h.Agrees h' (fun _ => False) ∧ Range.AllWF h' ∧ (∀ o ∈ rs', h.next ≤ o ∧ o < h'.next) ∧ rs'.Nodup ∧ (∀ x, 0 ≤ E x) ∧
      (∀ x, Range.rhoAt h' rs' x = Range.rhoAt h os x + Range.rhoAt h qs x + E x) ∧
      (BeforeEach Range.intersection_assign AddsOnce r.1 l.2 r.2 → ∀ x, E x = 0) ∧
      ((∀ x, E x = 0) → BeforeEach Range.intersection_assign OnceIfDisjoint r.1 l.2 r.2) := by
  intro l r
  have hl : Copied h os l.1 l.2 := deepcopy_spec hwf ho
  have hq₁ : ∀ q ∈ qs, q < l.1.next := fun q hm => (hq q hm).trans_le hl.agrees.next_le
  have hr : Copied l.1 qs r.1 r.2 := deepcopy_spec hl.wf hq₁
  have hll : ∀ p ∈ l.2, p < l.1.next := fun p hp => (hl.fresh p hp).2
  have hargs : Args r.1 l.2 r.2 :=
    ⟨fun p hp => (hr.fresh p hp).2, hr.nodup, fun p hp hm => by
      have := (hr.fresh p hp).1
      have := hll p hm
      omega⟩
  obtain ⟨h', rs', E, hrun, hg, honce, hzero⟩ :=
    add_all_gains hr.wf (fun p hp => (hll p hp).trans_le hr.agrees.next_le) hl.nodup hargs
  have hnew : ∀ o, o ∈ r.2 ∨ o ∈ l.2 → h.next ≤ o := fun o e => by
    rcases e with e | e
    · exact hl.agrees.next_le.trans (hr.fresh o e).1
    · exact (hl.fresh o e).1
  refine ⟨h', rs', E, hrun, ⟨?_, fun o hon _ => ?_⟩, hg.wf, fun o hm => ⟨?_, hg.live o hm⟩, hg.nodup, hg.nonneg,
    fun x => ?_, honce, hzero⟩
  · exact (hl.agrees.next_le.trans hr.agrees.next_le).trans hg.touches.agrees.next_le
  · have hon₁ := hon.trans_le hl.agrees.next_le
    rw [hg.touches.agrees.obj_eq o (hon₁.trans_le hr.agrees.next_le) fun e => absurd hon (not_lt.mpr (hnew o e)),
      hr.agrees.obj_eq o hon₁ id, hl.agrees.obj_eq o hon id]
  · rcases hg.touches.refs o hm with e | e | e
    · exact hnew o (.inl e)
    · exact hnew o (.inr e)
    · exact (hl.agrees.next_le.trans hr.agrees.next_le).trans e
  · have hkeep : ∀ p ∈ l.2, r.1.obj p = l.1.obj p := fun p hp => hr.agrees.obj_eq p (hll p hp) id
    have hold : ∀ q ∈ qs, l.1.obj q = h.obj q := fun q hm => hl.agrees.obj_eq q (hq q hm) id
    rw [hg.dens, Range.rhoAt_congr hkeep, hl.rhoAt, hr.rhoAt, Range.rhoAt_congr hold]

/-- A vector that is being built: its ranges were allocated after `base`, and it holds none twice. -/
structure Built (base : ℕ) (h : Store Range) (v : RangeSetVector) : Prop where
  /-- The ranges are new. -/
  fresh : ∀ dim, ∀ o ∈ v.get dim, base ≤ o ∧ o < h.next
  /-- No dimension lists a range twice. -/
  nodup : ∀ dim, (v.get dim).Nodup
  /-- No two dimensions share a range. -/
  apart : ∀ dim dim', dim ≠ dim' → ∀ o ∈ v.get dim, o ∉ v.get dim'
  /-- Each dimension is listed once. -/
  keys : (Dict.keys v).Nodup

theorem Built.vecLive {base : ℕ} {h : Store Range} {v : RangeSetVector} (hb : Built base h v) : VecLive h v :=
  fun dim => ⟨fun o ho => (hb.fresh dim o ho).2, hb.nodup dim⟩

/-- A dimension is added to the vector. -/
theorem Built.put {base : ℕ} {h h' : Store Range} {v : RangeSetVector} (hb : Built base h v) (hbase : base ≤ h.next)
    (hle : h.next ≤ h'.next) (dim : String) {rs : List ℕ} (hrs : ∀ o ∈ rs, h.next ≤ o ∧ o < h'.next)
    (hnd : rs.Nodup) : Built base h' (v.put dim rs) := by
  have hold : ∀ d, ∀ o ∈ v.get d, o ∉ rs := fun d o ho hm =>
    absurd (hb.fresh d o ho).2 (not_lt.mpr (hrs o hm).1)
  refine ⟨fun d o ho => ?_, fun d => ?_, fun d d' hne o ho hm => ?_, Dict.nodup_keys_put hb.keys dim rs⟩
  · by_cases hd : d = dim
    · rw [hd, get_put_self] at ho
      exact ⟨hbase.trans (hrs o ho).1, (hrs o ho).2⟩
    · rw [get_put_of_ne _ _ hd] at ho
      exact ⟨(hb.fresh d o ho).1, (hb.fresh d o ho).2.trans_le hle⟩
  · by_cases hd : d = dim
    · rw [hd, get_put_self]
      exact hnd
    · rw [get_put_of_ne _ _ hd]
      exact hb.nodup d
  · by_cases hd : d = dim
    · rw [hd, get_put_self] at ho
      rw [get_put_of_ne _ _ fun e => hne (hd.trans e.symm)] at hm
      exact hold d' o hm ho
    · rw [get_put_of_ne _ _ hd] at ho
      by_cases hd' : d' = dim
      · rw [hd', get_put_self] at hm
        exact hold d o ho hm
      · rw [get_put_of_ne _ _ hd'] at hm
        exact hb.apart d d' hne o ho hm

/-- The dimensions of `intersection` one by one. -/
theorem op_dims_gains {base : ℕ} {h : Store Range} (hwf : Range.AllWF h) {v rhs new_rsv : RangeSetVector}
    {dims : List String} (hnd : dims.Nodup) (hv : VecLive h v) (hr : VecLive h rhs) (hbase : base ≤ h.next)
    (hnew : Built base h new_rsv) :
    ∃ (h' : Store Range) (u : RangeSetVector) (E : String → ℤ → ℚ),
      op_dims RangeSet.intersection_assign v rhs h dims new_rsv = .ok (h', u) ∧
      h.Agrees h' (fun _ => False) ∧ Range.AllWF h' ∧ Built base h' u ∧ (∀ dim x, 0 ≤ E dim x) ∧
      (∀ dim x, density h' u dim x =
        if dim ∈ dims then density h v dim x + density h rhs dim x + E dim x else density h new_rsv dim x) ∧
      (DimsEach AddsOnce v rhs h dims → ∀ dim x, E dim x = 0) ∧
      ((∀ dim ∈ dims, ∀ x, E dim x = 0) → DimsEach OnceIfDisjoint v rhs h dims) := by
  induction dims generalizing h new_rsv with
  | nil =>
    exact ⟨h, new_rsv, fun _ _ => 0, rfl, .refl _ _, hwf, hnew, fun _ _ => le_rfl, by simp, fun _ _ _ => rfl,
      fun _ => trivial⟩
  | cons dim dims ih =>
    obtain ⟨hdim, hnd⟩ := List.nodup_cons.mp hnd
    obtain ⟨h₁, rs, E₁, hrun₁, hag₁, hwf₁, hrs, hrnd, hnn₁, hdens₁, honce₁, hzero₁⟩ :=
      intersection_dim hwf (hv dim).1 (hr dim).1
    have hle := hag₁.next_le
    have hnew₁ := hnew.put hbase hle dim hrs hrnd
    obtain ⟨h', u, E, hrun, hag, hwf', hu, hnn, hdens, honce, hzero⟩ :=
      ih hwf₁ hnd (hv.mono hle) (hr.mono hle) (hbase.trans hle) hnew₁
    have heach : ∀ P, DimsEach P v rhs h (dim :: dims) ↔
        BeforeEach Range.intersection_assign P (deepcopy (deepcopy h (v.get dim)).1 (rhs.get dim)).1
          (deepcopy h (v.get dim)).2 (deepcopy (deepcopy h (v.get dim)).1 (rhs.get dim)).2 ∧
        DimsEach P v rhs h₁ dims := fun P => by
      rw [DimsEach]
      simp only [hrun₁]
    refine ⟨h', u, fun d x => if d = dim then E₁ x else E d x, ?_, hag₁.trans hag fun o _ e => e, hwf', hu,
      fun d x => ?_, fun d x => ?_, fun hb d x => ?_, fun hz => (heach _).mpr ⟨?_, ?_⟩⟩
    · rw [op_dims]
      simp only [hrun₁, ok_bind]
      exact hrun
    · dsimp only
      split_ifs
      · exact hnn₁ x
      · exact hnn d x
    · rw [hdens, density_of_agrees hag₁ hv, density_of_agrees hag₁ hr]
      dsimp only
      by_cases hd : d = dim
      · rw [hd, if_neg hdim, if_pos List.mem_cons_self, if_pos rfl, density, get_put_self]
        exact hdens₁ x
      · have hput : density h₁ (new_rsv.put dim rs) d x = density h new_rsv d x := by
          rw [density, get_put_of_ne _ _ hd]
          exact density_of_agrees hag₁ hnew.vecLive d x
        rw [hput, if_neg hd]
        simp [hd]
    · have hb := (heach _).mp hb
      dsimp only
      split_ifs
      · exact honce₁ hb.1 x
      · exact honce hb.2 d x
    · refine hzero₁ fun x => ?_
      simpa using hz dim List.mem_cons_self x
    · refine hzero fun d hd x => ?_
      have hne : d ≠ dim := fun e => hdim (e ▸ hd)
      simpa [hne] using hz d (List.mem_cons_of_mem _ hd) x

/-- **One intersection**: the densities are added, and what is counted twice comes on top. -/
theorem intersection_gains {h : Store Range} (hwf : Range.AllWF h) {v rhs : RangeSetVector} (hv : VecLive h v)
    (hr : VecLive h rhs) :
    ∃ (h' : Store Range) (u : RangeSetVector) (E : String → ℤ → ℚ), intersection h v rhs = .ok (h', u) ∧
      h.Agrees h' (fun _ => False) ∧ Range.AllWF h' ∧ Built h.next h' u ∧ (∀ dim x, 0 ≤ E dim x) ∧
      (∀ dim x, density h' u dim x = density h v dim x + density h rhs dim x + E dim x) ∧
      (DimsEach AddsOnce v rhs h (v.get_dimensions rhs) → ∀ dim x, E dim x = 0) ∧
      ((∀ dim x, E dim x = 0) → DimsEach OnceIfDisjoint v rhs h (v.get_dimensions rhs)) := by
  have hstart : Built h.next h [] := ⟨by simp [get], by simp [get], by simp [get], List.nodup_nil⟩
  have hdims : (v.get_dimensions rhs).Nodup := List.nodup_dedup _
  obtain ⟨h', u, E, hrun, hag, hwf', hu, hnn, hdens, honce, hzero⟩ :=
    op_dims_gains hwf hdims hv hr le_rfl hstart
  refine ⟨h', u, fun dim x => if dim ∈ v.get_dimensions rhs then E dim x else 0, hrun, hag, hwf', hu,
    fun dim x => ?_, fun dim x => ?_, fun hb dim x => ?_, fun hz => hzero fun dim hdim x => ?_⟩
  · dsimp only
    split_ifs
    · exact hnn dim x
    · exact le_rfl
  · rw [hdens]
    dsimp only
    by_cases hdim : dim ∈ v.get_dimensions rhs
    · rw [if_pos hdim, if_pos hdim]
    · -- a dimension that neither vector has
      have hkeys := List.mem_dedup.not.mp hdim
      rw [List.mem_append, not_or] at hkeys
      rw [if_neg hdim, if_neg hdim, density, density, density, get_of_not_mem_keys hkeys.1,
        get_of_not_mem_keys hkeys.2, get_of_not_mem_keys List.not_mem_nil, Range.rhoAt_nil, add_zero, add_zero]
  · dsimp only
    rw [honce hb, ite_self]
  · simpa [hdim] using hz dim x

/-! ### The loop -/

/-- The insertions of the loop of `calc_average_rsv` all satisfy `P` beforehand. -/
def LoopEach (P : List Range → Range → Prop) : Store Range → RangeSetVector → List RangeSetVector → Prop
  | _, _, [] => True
  | h, avg, rsv :: rsvs =>
    DimsEach P rsv avg h (rsv.get_dimensions avg) ∧
      match intersection h rsv avg with
      | .ok (h', avg') => LoopEach P h' avg' rsvs
      | .error _ => True

/-- The insertions of `calc_average_rsv` all satisfy `P` beforehand. -/
def AverageEach (P : List Range → Range → Prop) (h : Store Range) : List RangeSetVector → Prop
  | [] => True
  | avg :: rsvs => LoopEach P h avg rsvs

theorem loopEach_cons {P : List Range → Range → Prop} {h h₁ : Store Range} {avg avg₁ rsv : RangeSetVector}
    {rsvs : List RangeSetVector} (hrun : intersection h rsv avg = .ok (h₁, avg₁)) :
    LoopEach P h avg (rsv :: rsvs) ↔
      DimsEach P rsv avg h (rsv.get_dimensions avg) ∧ LoopEach P h₁ avg₁ rsvs := by
  rw [LoopEach, hrun]

theorem Built.mono {base base' : ℕ} {h : Store Range} {v : RangeSetVector} (hb : Built base h v)
    (hle : base' ≤ base) : Built base' h v :=
  ⟨fun dim o ho => (hb.fresh dim o ho).imp_left hle.trans, hb.nodup, hb.apart, hb.keys⟩

/-- The densities of vectors in a dimension, summed up. -/
def densities (h : Store Range) (rsvs : List RangeSetVector) (dim : String) (x : ℤ) : ℚ :=
  (rsvs.map fun v => density h v dim x).sum

theorem densities_cons (h : Store Range) (v : RangeSetVector) (rsvs : List RangeSetVector) (dim : String) (x : ℤ) :
    densities h (v :: rsvs) dim x = density h v dim x + densities h rsvs dim x :=
  List.sum_cons

theorem densities_of_agrees {h h' : Store Range} {rsvs : List RangeSetVector} (hag : h.Agrees h' fun _ => False)
    (hv : ∀ v ∈ rsvs, VecLive h v) (dim : String) (x : ℤ) : densities h' rsvs dim x = densities h rsvs dim x := by
  unfold densities
  rw [List.map_congr_left fun v hm => density_of_agrees hag (hv v hm) dim x]

/-- **The loop of `calc_average_rsv`** sums the densities up, with the excesses on top. Unless nothing
is intersected, the result consists of new ranges. -/
theorem average_loop_gains {h : Store Range} (hwf : Range.AllWF h) {avg : RangeSetVector} {rsvs : List RangeSetVector}
    (ha : VecLive h avg) (hv : ∀ v ∈ rsvs, VecLive h v) :
    ∃ (h' : Store Range) (u : RangeSetVector) (E : String → ℤ → ℚ), average_loop h avg rsvs = .ok (h', u) ∧
      h.Agrees h' (fun _ => False) ∧ (rsvs = [] ∧ h' = h ∧ u = avg ∨ Built h.next h' u) ∧ (∀ dim x, 0 ≤ E dim x) ∧
      (∀ dim x, density h' u dim x = density h avg dim x + densities h rsvs dim x + E dim x) ∧
      (LoopEach AddsOnce h avg rsvs → ∀ dim x, E dim x = 0) ∧
      ((∀ dim x, E dim x = 0) → LoopEach OnceIfDisjoint h avg rsvs) := by
  induction rsvs generalizing h avg with
  | nil =>
    refine ⟨h, avg, fun _ _ => 0, rfl, .refl _ _, .inl ⟨rfl, rfl, rfl⟩, fun _ _ => le_rfl, fun dim x => ?_,
      fun _ _ _ => rfl, fun _ => trivial⟩
    simp [densities]
  | cons rsv rsvs ih =>
    obtain ⟨hrsv, hv⟩ := List.forall_mem_cons.mp hv
    obtain ⟨h₁, u₁, E₁, hrun₁, hag₁, hwf₁, hb₁, hnn₁, hdens₁, honce₁, hzero₁⟩ := intersection_gains hwf hrsv ha
    have hle := hag₁.next_le
    obtain ⟨h', u, E, hrun, hag, hb, hnn, hdens, honce, hzero⟩ :=
      ih hwf₁ hb₁.vecLive fun v hm => (hv v hm).mono hle
    refine ⟨h', u, fun dim x => E₁ dim x + E dim x, ?_, hag₁.trans hag fun o _ e => e, .inr ?_,
      fun dim x => add_nonneg (hnn₁ dim x) (hnn dim x), fun dim x => ?_, fun hl dim x => ?_, fun hz => ?_⟩
    · rw [average_loop, hrun₁]
      exact hrun
    · rcases hb with ⟨-, rfl, rfl⟩ | hb
      · exact hb₁
      · exact hb.mono hle
    · rw [hdens, hdens₁, densities_of_agrees hag₁ hv, densities_cons]
      ring
    · have hl := (loopEach_cons hrun₁).mp hl
      dsimp only
      rw [honce₁ hl.1, honce hl.2, add_zero]
    · have hboth : ∀ dim x, E₁ dim x = 0 ∧ E dim x = 0 := fun dim x =>
        (add_eq_zero_iff_of_nonneg (hnn₁ dim x) (hnn dim x)).mp (hz dim x)
      exact (loopEach_cons hrun₁).mpr ⟨hzero₁ fun dim x => (hboth dim x).1, hzero fun dim x => (hboth dim x).2⟩

/-! ### The division -/

theorem rho_div_assign (r : Range) (n : ℚ) (x : ℤ) : (r.div_assign n).rho x = r.rho x / n := by
  rw [Range.rho_def, Range.rho_def, Range.div_assign]
  split_ifs
  · rfl
  · exact (zero_div n).symm

/-- Every range at `os` is divided, and nothing else. -/
theorem obj_div_assign (n : ℚ) {h : Store Range} {os : List ℕ} (hnd : os.Nodup) (o : ℕ) :
    (RangeSet.div_assign n h os).obj o = if o ∈ os then (h.obj o).div_assign n else h.obj o := by
  induction os generalizing h with
  | nil => rfl
  | cons p os ih =>
    obtain ⟨hp, hnd⟩ := List.nodup_cons.mp hnd
    rw [RangeSet.div_assign, ih hnd]
    by_cases ho : o = p
    · subst ho
      rw [if_neg hp, if_pos List.mem_cons_self, Store.obj_set_self]
    · rw [Store.obj_set_of_ne _ _ ho]
      simp [ho]

/-- Every range of a vector that holds none twice is divided, and nothing else. -/
theorem obj_div_dims (n : ℚ) {v : RangeSetVector} (hnd : ∀ dim, (v.get dim).Nodup)
    (hapart : ∀ dim dim', dim ≠ dim' → ∀ o ∈ v.get dim, o ∉ v.get dim') {h : Store Range} {dims : List String}
    (hdims : dims.Nodup) (o : ℕ) :
    (dims.foldl (fun h dim => RangeSet.div_assign n h (v.get dim)) h).obj o =
      if ∃ dim ∈ dims, o ∈ v.get dim then (h.obj o).div_assign n else h.obj o := by
  induction dims generalizing h with
  | nil => simp
  | cons dim dims ih =>
    obtain ⟨hdim, hdims⟩ := List.nodup_cons.mp hdims
    rw [List.foldl_cons, ih hdims, obj_div_assign n (hnd dim)]
    by_cases ho : o ∈ v.get dim
    · have hlater : ¬ ∃ d ∈ dims, o ∈ v.get d := by
        rintro ⟨d, hd, hod⟩
        exact hapart dim d (fun e => hdim (e ▸ hd)) o ho hod
      rw [if_neg hlater, if_pos ho, if_pos ⟨dim, List.mem_cons_self, ho⟩]
    · simp [ho]

/-- A divided vector has the divided densities. -/
theorem density_div_assign (n : ℚ) {base : ℕ} {h : Store Range} {v : RangeSetVector} (hb : Built base h v)
    (dim : String) (x : ℤ) : density (div_assign n h v) v dim x = density h v dim x / n := by
  by_cases hdim : dim ∈ Dict.keys v
  · have hobj : ∀ o ∈ v.get dim, ((div_assign n h v).obj o).rho x = (h.obj o).rho x / n := fun o ho => by
      rw [div_assign, obj_div_dims n hb.nodup hb.apart hb.keys, if_pos ⟨dim, hdim, ho⟩, rho_div_assign]
    rw [density, density, Range.rhoAt, List.map_congr_left hobj, Range.rhoAt]
    generalize v.get dim = os
    induction os with
    | nil => simp
    | cons o os ih => rw [List.map_cons, List.sum_cons, ih, List.map_cons, List.sum_cons, add_div]
  · rw [density, density, get_of_not_mem_keys hdim, Range.rhoAt_nil, Range.rhoAt_nil, zero_div]

/-- Dividing by one changes nothing. -/
theorem obj_div_one {h : Store Range} {os : List ℕ} (o : ℕ) : (RangeSet.div_assign 1 h os).obj o = h.obj o := by
  induction os generalizing h with
  | nil => rfl
  | cons p os ih =>
    rw [RangeSet.div_assign, ih]
    by_cases ho : o = p
    · rw [ho, Store.obj_set_self, Range.div_assign, div_one]
    · exact Store.obj_set_of_ne _ _ ho

theorem density_div_one {h : Store Range} {v : RangeSetVector} (dim : String) (x : ℤ) :
    density (div_assign 1 h v) v dim x = density h v dim x := by
  have hobj : ∀ (dims : List String) (h : Store Range) (o : ℕ),
      (dims.foldl (fun h dim => RangeSet.div_assign 1 h (v.get dim)) h).obj o = h.obj o := fun dims => by
    induction dims with
    | nil => exact fun _ _ => rfl
    | cons dim dims ih => exact fun h o => (ih _ o).trans (obj_div_one o)
  exact Range.rhoAt_congr (fun o _ => hobj _ h o) x

/-! ### The mean -/

/-- The vector has the pointwise mean of the densities. -/
def IsMean (h : Store Range) (rsvs : List RangeSetVector) (h' : Store Range) (avg : RangeSetVector) : Prop :=
  ∀ dim x, density h' avg dim x = densities h rsvs dim x / rsvs.length

theorem densities_perm {h : Store Range} {rsvs others : List RangeSetVector} (hp : rsvs.Perm others) (dim : String)
    (x : ℤ) : densities h rsvs dim x = densities h others dim x :=
  (hp.map _).sum_eq

/-- What `calc_average_rsv` computes. -/
theorem calc_average_rsv_gains {h : Store Range} (hwf : Range.AllWF h) {rsvs : List RangeSetVector} (hne : rsvs ≠ [])
    (hv : ∀ v ∈ rsvs, VecLive h v) :
    ∃ h' avg, calc_average_rsv h rsvs = .ok (h', avg) ∧ (2 ≤ rsvs.length → ∀ o, o < h.next → h'.obj o = h.obj o) ∧
      (AverageEach AddsOnce h rsvs → IsMean h rsvs h' avg) ∧
      (IsMean h rsvs h' avg → AverageEach OnceIfDisjoint h rsvs) := by
  cases rsvs with
  | nil => exact absurd rfl hne
  | cons avg rsvs =>
    obtain ⟨havg, hv⟩ := List.forall_mem_cons.mp hv
    obtain ⟨h₁, u, E, hrun, hag, hb, -, hdens, honce, hzero⟩ := average_loop_gains hwf havg hv
    have hk : (0 : ℚ) < rsvs.length + 1 := by positivity
    -- the result has the sum of the densities and of the excesses, divided
    have hdiv : ∀ dim x, density (div_assign (rsvs.length + 1) h₁ u) u dim x =
        (densities h (avg :: rsvs) dim x + E dim x) / (rsvs.length + 1) := fun dim x => by
      rw [densities_cons, ← hdens]
      rcases hb with ⟨rfl, rfl, rfl⟩ | hb
      · rw [List.length_nil, Nat.cast_zero, zero_add, div_one]
        exact density_div_one dim x
      · exact density_div_assign _ hb dim x
    have hmean : IsMean h (avg :: rsvs) (div_assign (rsvs.length + 1) h₁ u) u ↔ ∀ dim x, E dim x = 0 := by
      unfold IsMean
      refine forall_congr' fun dim => forall_congr' fun x => ?_
      rw [hdiv, List.length_cons, Nat.cast_add, Nat.cast_one, div_left_inj' hk.ne', add_eq_left]
    refine ⟨_, u, ?_, fun hlen o ho => ?_, fun hl => hmean.mpr (honce hl), fun hm => hzero (hmean.mp hm)⟩
    · rw [calc_average_rsv, hrun]
      rfl
    · -- only new ranges are divided
      rcases hb with ⟨rfl, -, -⟩ | hb
      · exact absurd hlen (by simp)
      · have hfresh : ¬ ∃ dim ∈ Dict.keys u, o ∈ u.get dim := by
          rintro ⟨dim, -, hm⟩
          exact absurd (hb.fresh dim o hm).1 (not_le.mpr ho)
        rw [div_assign, obj_div_dims _ hb.nodup hb.apart hb.keys, if_neg hfresh, hag.obj_eq o ho id]

/-- **`calc_average_rsv`** leaves its inputs alone when there are two or more. It is the pointwise mean,
and so does not depend on their order, when every insertion of the loop adds once; and it is the mean
only if every insertion into disjoint ranges does. -/
theorem calc_average_rsv_mean {h : Store Range} (hwf : Range.AllWF h) {rsvs : List RangeSetVector} (hne : rsvs ≠ [])
    (hv : ∀ v ∈ rsvs, VecWF h v) :
    ∃ h' avg, calc_average_rsv h rsvs = .ok (h', avg) ∧ (2 ≤ rsvs.length → ∀ o, o < h.next → h'.obj o = h.obj o) ∧
      (AverageEach AddsOnce h rsvs → IsMean h rsvs h' avg) ∧
      (IsMean h rsvs h' avg → AverageEach OnceIfDisjoint h rsvs) ∧
      ∀ others, rsvs.Perm others → AverageEach AddsOnce h rsvs → AverageEach AddsOnce h others →
        ∃ h₂ avg₂, calc_average_rsv h others = .ok (h₂, avg₂) ∧ ∀ dim x, density h₂ avg₂ dim x = density h' avg dim x := by
  obtain ⟨h', avg, hrun, hkeep, hmean, hmust⟩ := calc_average_rsv_gains hwf hne fun v hm => (hv v hm).vecLive
  refine ⟨h', avg, hrun, hkeep, hmean, hmust, fun others hperm honce honce₂ => ?_⟩
  have hne₂ : others ≠ [] := fun e => hne (List.perm_nil.mp (e ▸ hperm))
  obtain ⟨h₂, avg₂, hrun₂, -, hmean₂, -⟩ :=
    calc_average_rsv_gains hwf hne₂ fun v hm => (hv v (hperm.mem_iff.mpr hm)).vecLive
  refine ⟨h₂, avg₂, hrun₂, fun dim x => ?_⟩
  rw [hmean₂ honce₂, hmean honce, densities_perm hperm, hperm.length_eq]

/-- Two vectors that share a dimension, and the first one's range inserted inside a range without weight. -/
theorem calc_average_rsv_mean_inside :
    ∃ h' avg, calc_average_rsv (Store.ofList ⟨0, 0, 0, ∅⟩ [⟨3, 5, 2, ∅⟩, ⟨1, 9, 0, ∅⟩]) [[("A", [0])], [("A", [1])]] =
        .ok (h', avg) ∧
      (∀ o, o < 2 → h'.obj o = (Store.ofList ⟨0, 0, 0, ∅⟩ [⟨3, 5, 2, ∅⟩, ⟨1, 9, 0, ∅⟩]).obj o) ∧
      IsMean (Store.ofList ⟨0, 0, 0, ∅⟩ [⟨3, 5, 2, ∅⟩, ⟨1, 9, 0, ∅⟩]) [[("A", [0])], [("A", [1])]] h' avg := by
  have hwf : Range.AllWF (Store.ofList ⟨0, 0, 0, ∅⟩ [⟨3, 5, 2, ∅⟩, ⟨1, 9, 0, ∅⟩]) := by
    unfold Range.AllWF
    decide +kernel
  have hinside : AddsOnce [⟨1, 9, 0, ∅⟩] ⟨3, 5, 2, ∅⟩ := by
    refine .inr ⟨List.pairwise_singleton _ _, fun ps hps => ?_⟩
    obtain rfl := hps.unique ⟨0, by decide, rfl, List.cons_ne_nil _ _, by decide +kernel⟩
    decide +kernel
  have honce : AverageEach AddsOnce (Store.ofList ⟨0, 0, 0, ∅⟩ [⟨3, 5, 2, ∅⟩, ⟨1, 9, 0, ∅⟩]) [[("A", [0])], [("A", [1])]] := by
    -- there is one insertion, and nothing after it
    refine ⟨⟨⟨hinside, ?_⟩, ?_⟩, ?_⟩ <;> split <;> trivial
  obtain ⟨h', avg, hrun, hkeep, hmean, -⟩ := calc_average_rsv_mean hwf (List.cons_ne_nil [("A", [0])] [[("A", [1])]])
    fun t ht dim => by
      have hget : get t dim = [] ∨ get t dim = [0] ∨ get t dim = [1] := by
        by_cases hd : "A" = dim <;> simp at ht <;> rcases ht with rfl | rfl <;> simp [get, Dict.get?, hd]
      rcases hget with e | e | e <;> rw [e] <;> exact ⟨by decide, by decide, by decide⟩
  exact ⟨h', avg, hrun, hkeep le_rfl, hmean honce⟩

/-- The mean of a weight of two and nothing comes out as two. -/
theorem calc_average_rsv_doubled :
    ¬ ∀ (h : Store Range) (rsvs : List RangeSetVector), Range.AllWF h → rsvs ≠ [] → (∀ v ∈ rsvs, VecWF h v) →
      ∀ h' avg, calc_average_rsv h rsvs = .ok (h', avg) → IsMean h rsvs h' avg := by
  intro hall
  have hbad : (match calc_average_rsv (Store.ofList ⟨0, 0, 0, ∅⟩ [⟨1, 1, 2, ∅⟩]) [[("A", [0])], []] with
      | .ok (h', avg) => decide (density h' avg "A" 1 = 2)
      | .error _ => false) = true := by decide +kernel
  cases hrun : calc_average_rsv (Store.ofList ⟨0, 0, 0, ∅⟩ [⟨1, 1, 2, ∅⟩]) [[("A", [0])], []] with
  | error e =>
    rw [hrun] at hbad
    cases hbad
  | ok y =>
    rw [hrun] at hbad
    have hvec : ∀ v ∈ [[("A", [0])], []], VecWF (Store.ofList ⟨0, 0, 0, ∅⟩ [⟨1, 1, 2, ∅⟩]) v := fun t ht dim => by
      have hget : get t dim = [] ∨ get t dim = [0] := by
        by_cases hd : "A" = dim <;> simp at ht <;> rcases ht with rfl | rfl <;> simp [get, Dict.get?, hd]
      rcases hget with e | e <;> rw [e] <;> exact ⟨by decide, by decide, by decide⟩
    have hmean := hall (Store.ofList ⟨0, 0, 0, ∅⟩ [⟨1, 1, 2, ∅⟩]) [[("A", [0])], []]
      (by unfold Range.AllWF; decide +kernel) (List.cons_ne_nil _ _) hvec y.1 y.2 hrun "A" 1
    rw [of_decide_eq_true hbad] at hmean
    exact absurd hmean (by decide +kernel)

end RangeSetVector

end SEDiff.Juxta
