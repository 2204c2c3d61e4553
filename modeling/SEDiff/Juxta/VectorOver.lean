import SEDiff.Juxta.RangeBuild
import SEDiff.Juxta.VectorDistance

/-!
# Vectors over certain intervals

A vector is over intervals that are pairwise equal or disjoint when the sets of all its dimensions are.

## What is proved

* `RangeSetVector.calc_average_over` — the average of such vectors is one, and they stay such vectors.
* `RangeSetVector.distance_over` — two such vectors have a distance. When the intervals are single integers, the ranges that
  the second one is left with are single ones of these integers too.
-/

namespace SEDiff.Juxta

open Foundation

namespace RangeSetVector

open RangeSet InPlace

variable {P : ℤ × ℤ → Prop}

/-- The sets of all dimensions are over `P`. -/
def VecOver (P : ℤ × ℤ → Prop) (h : Store Range) (v : RangeSetVector) : Prop := ∀ dim, Over P h (v.get dim)

theorem VecOver.vecLive {h : Store Range} {v : RangeSetVector} (hv : VecOver P h v) : VecLive h v :=
  fun dim => ⟨(hv dim).set.live, (hv dim).set.nodup⟩

theorem VecOver.congr {h h' : Store Range} {v : RangeSetVector} (hv : VecOver P h v) (hag : h.Agrees h' fun _ => False) :
    VecOver P h' v :=
  fun dim => (hv dim).congr hag.next_le fun o ho => hag.obj_eq o ((hv dim).set.live o ho) id

/-- What is over some intervals is over more. -/
theorem VecOver.mono {Q : ℤ × ℤ → Prop} (hPQ : ∀ p, P p → Q p) {h : Store Range} {v : RangeSetVector} (hv : VecOver P h v) :
    VecOver Q h v :=
  fun dim => ⟨(hv dim).set, fun o ho => hPQ _ ((hv dim).ends o ho)⟩

theorem VecOver.put {h : Store Range} {v : RangeSetVector} (hv : VecOver P h v) (dim : String) {rs : List ℕ}
    (hrs : Over P h rs) : VecOver P h (v.put dim rs) := by
  intro d
  by_cases hd : d = dim
  · rw [hd, get_put_self]
    exact hrs
  · rw [get_put_of_ne _ _ hd]
    exact hv d

theorem vecOver_nil (P : ℤ × ℤ → Prop) (h : Store Range) : VecOver P h [] :=
  fun _ => ⟨⟨by simp [get], List.nodup_nil, .nil⟩, by simp [get]⟩

/-- Copies cover what the originals cover. -/
theorem Copied.over {h h' : Store Range} {os ps : List ℕ} (hc : Copied h os h' ps) (ho : Over P h os) : Over P h' ps := by
  refine ⟨⟨fun p hp => (hc.fresh p hp).2, hc.nodup, ?_⟩, fun p hp => ?_⟩
  · have hd : (ps.map h'.obj).Pairwise Range.Disjoint := by
      rw [hc.obj]
      exact List.pairwise_map.mpr ho.set.disjoint
    exact List.pairwise_map.mp hd
  · have hm : h'.obj p ∈ os.map h.obj := hc.obj ▸ List.mem_map_of_mem hp
    obtain ⟨o, hom, heq⟩ := List.mem_map.mp hm
    exact heq ▸ ho.ends o hom

/-! ### The average -/

/-- One dimension of `intersection`. -/
theorem intersection_dim_over (hP : EqualOrDisjoint P) {h : Store Range} (hwf : Range.AllWF h) {os qs : List ℕ}
    (ho : Over P h os) (hq : Over P h qs) {h' : Store Range} {rs' : List ℕ}
    (hrun : RangeSet.intersection_assign (deepcopy (deepcopy h os).1 qs).1 (deepcopy h os).2
      (deepcopy (deepcopy h os).1 qs).2 = .ok (h', rs')) :
    h.Agrees h' (fun _ => False) ∧ Range.AllWF h' ∧ Over P h' rs' := by
  obtain ⟨h₁, rs₁, -, hrun₁, hag, hwf', -⟩ := intersection_dim hwf ho.set.live hq.set.live
  have hl : Copied h os (deepcopy h os).1 (deepcopy h os).2 := deepcopy_spec hwf ho.set.live
  have hq₁ : Over P (deepcopy h os).1 qs :=
    hq.congr hl.agrees.next_le fun o hm => hl.agrees.obj_eq o (hq.set.live o hm) id
  have hr : Copied (deepcopy h os).1 qs (deepcopy (deepcopy h os).1 qs).1 (deepcopy (deepcopy h os).1 qs).2 :=
    deepcopy_spec hl.wf hq₁.set.live
  have hleft : Over P (deepcopy (deepcopy h os).1 qs).1 (deepcopy h os).2 :=
    (Copied.over hl ho).congr hr.agrees.next_le fun o hm => hr.agrees.obj_eq o (hl.fresh o hm).2 id
  have hright := Copied.over hr hq₁
  have hargs : Args (deepcopy (deepcopy h os).1 qs).1 (deepcopy h os).2 (deepcopy (deepcopy h os).1 qs).2 :=
    ⟨fun p hp => (hr.fresh p hp).2, hr.nodup, fun p hp hm => by
      have := (hr.fresh p hp).1
      have := (hl.fresh p hm).2
      omega⟩
  obtain ⟨h₂, rs₂, hrun₂, -, -, hover⟩ := add_all_over hP hr.wf hleft hargs hright.ends
  have hrun₂' : RangeSet.intersection_assign (deepcopy (deepcopy h os).1 qs).1 (deepcopy h os).2
      (deepcopy (deepcopy h os).1 qs).2 = .ok (h₂, rs₂) := hrun₂
  obtain ⟨rfl, rfl⟩ := Prod.mk.inj (Except.ok.inj (hrun.symm.trans hrun₁))
  obtain ⟨rfl, rfl⟩ := Prod.mk.inj (Except.ok.inj (hrun.symm.trans hrun₂'))
  exact ⟨hag, hwf', hover⟩

/-- The dimensions of `intersection` one by one. -/
theorem op_dims_over (hP : EqualOrDisjoint P) {h : Store Range} (hwf : Range.AllWF h) {v rhs new_rsv : RangeSetVector}
    (hv : VecOver P h v) (hr : VecOver P h rhs) (hnew : VecOver P h new_rsv) {dims : List String} {h' : Store Range}
    {u : RangeSetVector} (hrun : op_dims RangeSet.intersection_assign v rhs h dims new_rsv = .ok (h', u)) :
    VecOver P h' u := by
  induction dims generalizing h new_rsv with
  | nil =>
    obtain ⟨rfl, rfl⟩ := Prod.mk.inj (Except.ok.inj hrun)
    exact hnew
  | cons dim dims ih =>
    rw [op_dims] at hrun
    obtain ⟨⟨h₁, rs₁⟩, hrun₁, hrun⟩ := bind_eq_ok.mp hrun
    obtain ⟨hag, hwf₁, hover⟩ := intersection_dim_over hP hwf (hv dim) (hr dim) hrun₁
    exact ih hwf₁ (hv.congr hag) (hr.congr hag) ((hnew.congr hag).put dim hover) hrun

/-- Only weights change, and they stay nonnegative. -/
structure Reweighted (h h' : Store Range) : Prop where
  /-- No range is added. -/
  next_eq : h'.next = h.next
  /-- Every range covers what it covered. -/
  alike : ∀ o, (h'.obj o).Alike (h.obj o)
  /-- No weight becomes negative. -/
  nonneg : ∀ o, 0 ≤ (h.obj o).weight → 0 ≤ (h'.obj o).weight

theorem Reweighted.refl (h : Store Range) : Reweighted h h := ⟨rfl, fun _ => ⟨rfl, rfl⟩, fun _ => id⟩

theorem Reweighted.trans {h₁ h₂ h₃ : Store Range} (h₁₂ : Reweighted h₁ h₂) (h₂₃ : Reweighted h₂ h₃) : Reweighted h₁ h₃ :=
  ⟨h₂₃.next_eq.trans h₁₂.next_eq, fun o => ⟨(h₂₃.alike o).start_eq.trans (h₁₂.alike o).start_eq,
    (h₂₃.alike o).stop_eq.trans (h₁₂.alike o).stop_eq⟩, fun o ho => h₂₃.nonneg o (h₁₂.nonneg o ho)⟩

theorem Reweighted.over {h h' : Store Range} (hr : Reweighted h h') {rs : List ℕ} (ho : Over P h rs) : Over P h' rs :=
  ho.alike hr.next_eq.ge hr.alike

theorem Reweighted.allWF {h h' : Store Range} (hr : Reweighted h h') (hwf : Range.AllWF h) : Range.AllWF h' := by
  intro o ho
  have hw := hwf o (hr.next_eq ▸ ho)
  refine ⟨?_, hr.nonneg o hw.nonneg⟩
  rw [(hr.alike o).start_eq, (hr.alike o).stop_eq]
  exact hw.sane

/-- Dividing the ranges of a set. -/
theorem reweighted_div_assign {n : ℚ} (hn : 0 ≤ n) (h : Store Range) (rs : List ℕ) :
    Reweighted h (RangeSet.div_assign n h rs) := by
  induction rs generalizing h with
  | nil => exact .refl h
  | cons r rs ih =>
    have hstep : Reweighted h (h.set r ((h.obj r).div_assign n)) := by
      refine ⟨rfl, fun o => ?_, fun o ho => ?_⟩
      · by_cases hor : o = r
        · rw [hor, Store.obj_set_self]
          exact ⟨rfl, rfl⟩
        · rw [Store.obj_set_of_ne _ _ hor]
          exact ⟨rfl, rfl⟩
      · by_cases hor : o = r
        · rw [hor] at ho ⊢
          rw [Store.obj_set_self]
          exact div_nonneg ho hn
        · rw [Store.obj_set_of_ne _ _ hor]
          exact ho
    exact hstep.trans (ih _)

/-- Dividing the ranges of a vector. -/
theorem reweighted_div_vector {n : ℚ} (hn : 0 ≤ n) (h : Store Range) (v : RangeSetVector) :
    Reweighted h (div_assign n h v) := by
  have hfold : ∀ (dims : List String) (h : Store Range),
      Reweighted h (dims.foldl (fun h dim => RangeSet.div_assign n h (v.get dim)) h) := by
    intro dims
    induction dims with
    | nil => exact fun h => .refl h
    | cons dim dims ih => exact fun h => (reweighted_div_assign hn h (v.get dim)).trans (ih _)
  exact hfold (Dict.keys v) h

/-- The loop of `calc_average_rsv`. -/
theorem average_loop_over (hP : EqualOrDisjoint P) {h : Store Range} (hwf : Range.AllWF h) {avg : RangeSetVector}
    {rsvs : List RangeSetVector} (ha : VecOver P h avg) (hv : ∀ v ∈ rsvs, VecOver P h v) :
    ∃ h' u, average_loop h avg rsvs = .ok (h', u) ∧ h.Agrees h' (fun _ => False) ∧ Range.AllWF h' ∧ VecOver P h' u := by
  induction rsvs generalizing h avg with
  | nil => exact ⟨h, avg, rfl, .refl _ _, hwf, ha⟩
  | cons rsv rsvs ih =>
    obtain ⟨hrsv, hv⟩ := List.forall_mem_cons.mp hv
    obtain ⟨h₁, u₁, -, hrun₁, hag₁, hwf₁, -⟩ := intersection_gains hwf hrsv.vecLive ha.vecLive
    have hu₁ : VecOver P h₁ u₁ := op_dims_over hP hwf hrsv ha (vecOver_nil P h) hrun₁
    obtain ⟨h', u, hrun, hag, hwf', hu⟩ := ih hwf₁ hu₁ fun v hm => (hv v hm).congr hag₁
    refine ⟨h', u, ?_, hag₁.trans hag fun _ _ e => e, hwf', hu⟩
    rw [average_loop, hrun₁]
    exact hrun

/-- **The average** of vectors over such intervals, after which they all are still over them. -/
theorem calc_average_over (hP : EqualOrDisjoint P) {h : Store Range} (hwf : Range.AllWF h) {rsvs : List RangeSetVector}
    (hne : rsvs ≠ []) (hv : ∀ v ∈ rsvs, VecOver P h v) :
    ∃ h' avg, calc_average_rsv h rsvs = .ok (h', avg) ∧ Range.AllWF h' ∧ VecOver P h' avg ∧ ∀ v ∈ rsvs, VecOver P h' v := by
  obtain ⟨avg, rsvs, rfl⟩ := List.exists_cons_of_ne_nil hne
  obtain ⟨ha, hv'⟩ := List.forall_mem_cons.mp hv
  obtain ⟨h₁, u, hrun, hag, hwf₁, hu⟩ := average_loop_over hP hwf ha hv'
  have hr := reweighted_div_vector (n := (rsvs.length + 1 : ℚ)) (by positivity) h₁ u
  refine ⟨_, u, ?_, hr.allWF hwf₁, fun dim => hr.over (hu dim), fun v hm dim => hr.over ((hv v hm).congr hag dim)⟩
  rw [calc_average_rsv, hrun]
  rfl

/-! ### The distance -/

/-- A single integer is not cut, only made lighter. -/
theorem ends_of_mem_diff_out1 {s e : ℤ} {w : ℚ} {p q : Range} (hp : p.start = p.stop) (hq : q ∈ RangeSet.diff_out1 s e w p) :
    q.ends = p.ends := by
  unfold RangeSet.diff_out1 at hq
  simp only at hq
  split_ifs at hq with h1 h2 h3 h4 h5 h6
  · rw [List.mem_singleton.mp hq]
  · rw [List.mem_singleton.mp hq]
    rfl
  · cases hq
  all_goals omega

theorem ends_of_mem_pieces {ps gs : List Range} (hP : ∀ p, P p → p.1 = p.2) (hps : ∀ p ∈ ps, P p.ends) :
    ∀ q ∈ pieces ps gs, P q.ends := by
  induction gs generalizing ps with
  | nil => exact hps
  | cons g gs ih =>
    refine ih fun q hq => ?_
    obtain ⟨p, hp, hq⟩ := List.mem_flatMap.mp hq
    rw [ends_of_mem_diff_out1 (hP _ (hps p hp)) hq]
    exact hps p hp

/-- The ranges of a vector are well formed. -/
def VecSane (h : Store Range) (v : RangeSetVector) : Prop := ∀ dim, ∀ o ∈ v.get dim, (h.obj o).WF

theorem VecOver.vecSane {h : Store Range} {v : RangeSetVector} (hv : VecOver P h v) (hwf : Range.AllWF h) : VecSane h v :=
  fun dim o ho => hwf o ((hv dim).set.live o ho)

theorem VecSane.congr {h h' : Store Range} {v : RangeSetVector} (hwf : VecSane h v) (hv : VecOver P h v)
    (hag : h.Agrees h' fun _ => False) : VecSane h' v := fun dim o ho => by
  rw [hag.obj_eq o ((hv dim).set.live o ho) id]
  exact hwf dim o ho

theorem Over.tidy {h : Store Range} {rs : List ℕ} (hwf : ∀ o ∈ rs, (h.obj o).WF) (ho : Over P h rs) : Tidy (rs.map h.obj) :=
  ⟨fun r hr => by
    obtain ⟨o, hm, rfl⟩ := List.mem_map.mp hr
    exact hwf o hm, List.pairwise_map.mpr ho.set.disjoint⟩

/-- **What was recorded** of the other vector: ranges over `P`, in each dimension that was compared. -/
structure Recorded (P : ℤ × ℤ → Prop) (h : Store Range) (c : Comparison) : Prop where
  /-- The copies are allocated. -/
  live : ∀ dim l r, c.diffs.get? dim = some (l, r) → ∀ d ∈ r, d.2 < h.next
  /-- Each covers one of the intervals. -/
  ends : ∀ dim l r, c.diffs.get? dim = some (l, r) → ∀ d ∈ r, P (h.obj d.2).ends

theorem Recorded.congr {h h' : Store Range} {c : Comparison} (hc : Recorded P h c) (hag : h.Agrees h' fun _ => False) :
    Recorded P h' c :=
  ⟨fun dim l r hd d hm => (hc.live dim l r hd d hm).trans_le hag.next_le, fun dim l r hd d hm => by
    rw [hag.obj_eq d.2 (hc.live dim l r hd d hm) id]
    exact hc.ends dim l r hd d hm⟩

/-- One dimension of the distance. -/
theorem distance_dim_over (hP : ∀ p, P p → p.1 = p.2) {h : Store Range} {v rhs : RangeSetVector} (hv : VecOver P h v)
    (hvwf : VecSane h v) (hr : VecOver P h rhs) (hrwf : VecSane h rhs) {c : Comparison} (hc : Unchanged h v c) (hrec : Recorded P c.heap c)
    (dim : String) :
    ∃ c', distance_dim rhs c dim = .ok c' ∧ Unchanged h v c' ∧ Recorded P c'.heap c' ∧
      (∀ d, c'.diffs.get? d = none ↔ d ≠ dim ∧ c.diffs.get? d = none) ∧
      ∀ d, c'.rsv.get? d = none ↔ d ≠ dim ∧ c.rsv.get? d = none := by
  have hvl : Live h v := fun d o ho => (hv d).set.live o ho
  have hrl : Live h rhs := fun d o ho => (hr d).set.live o ho
  have hvt := Over.tidy (hvwf dim) (hv dim)
  have hrt := Over.tidy (hrwf dim) (hr dim)
  obtain ⟨ld, rd, hspec⟩ := distance_spec hvt.wf hrt.wf hvt.disjoint hrt.disjoint
  have hd : dimDistance h v rhs dim = .ok _ := congrArg (Except.map Prod.fst) hspec
  obtain ⟨c', hrun, hc', -⟩ := distance_dim_ok hvl hrl hc hd
  refine ⟨c', hrun, hc', ?_⟩
  -- what the step recorded
  rw [distance_dim] at hrun
  obtain ⟨y, hy, hrun⟩ := bind_eq_ok.mp hrun
  obtain rfl := Except.ok.inj hrun
  rw [(get_ensure c.rsv dim dim).trans (hc.get_eq dim)] at hy
  obtain ⟨hl, -⟩ := hc.map_obj (hv dim).set.live
  obtain ⟨hrlive, hrv⟩ := hc.map_obj (hr dim).set.live
  have hag := (distance_refines hl hrlive).2 y hy
  have hnew := distance_rdiff hl hrlive hy
  have hold := hrec.congr hag
  have hpieces : ∀ q ∈ pieces ((rhs.get dim).map c.heap.obj) (overlaps ((v.get dim).map c.heap.obj)
      ((rhs.get dim).map c.heap.obj)), P q.ends := by
    refine ends_of_mem_pieces hP fun p hp => ?_
    rw [hrv] at hp
    obtain ⟨o, ho, rfl⟩ := List.mem_map.mp hp
    exact (hr dim).ends o ho
  refine ⟨⟨fun d l r hget e he => ?_, fun d l r hget e he => ?_⟩, fun d => ?_, fun d => ?_⟩
  · by_cases hdim : d = dim
    · rw [hdim, Dict.get?_put_self] at hget
      obtain ⟨-, rfl⟩ := Prod.mk.inj (Option.some.inj hget)
      exact (hnew e he).1
    · rw [Dict.get?_put_of_ne _ _ hdim] at hget
      exact hold.live d l r hget e he
  · by_cases hdim : d = dim
    · rw [hdim, Dict.get?_put_self] at hget
      obtain ⟨-, rfl⟩ := Prod.mk.inj (Option.some.inj hget)
      exact hpieces _ (hnew e he).2
    · rw [Dict.get?_put_of_ne _ _ hdim] at hget
      exact hold.ends d l r hget e he
  · by_cases hdim : d = dim
    · simp [hdim, Dict.get?_put_self]
    · simp [hdim, Dict.get?_put_of_ne _ _ hdim]
  · dsimp only
    by_cases hdim : d = dim
    · rw [hdim]
      split_ifs with hnone
      · simp [Dict.get?_put_self]
      · simpa using hnone
    · split_ifs
      · simp [hdim, Dict.get?_put_of_ne _ _ hdim]
      · simp [hdim]

/-- **The distance** of vectors over single integers. -/
theorem distance_over (hP : ∀ p, P p → p.1 = p.2) {h : Store Range} {v rhs : RangeSetVector} (hv : VecOver P h v)
    (hvwf : VecSane h v) (hr : VecOver P h rhs) (hrwf : VecSane h rhs) (dims : List String) :
    ∃ c, euclidean_distance dims h v rhs = .ok c ∧ h.Agrees c.heap (fun _ => False) ∧ Recorded P c.heap c ∧
      ∀ dim ∈ dims, c.diffs.get? dim ≠ none ∧ c.rsv.get? dim ≠ none := by
  have hloop : ∀ (dims : List String) (c : Comparison), Unchanged h v c → Recorded P c.heap c →
      ∃ c', dims.foldlM (distance_dim rhs) c = .ok c' ∧ Unchanged h v c' ∧ Recorded P c'.heap c' ∧
        (∀ d, c'.diffs.get? d = none ↔ d ∉ dims ∧ c.diffs.get? d = none) ∧
        ∀ d, c'.rsv.get? d = none ↔ d ∉ dims ∧ c.rsv.get? d = none := by
    intro dims
    induction dims with
    | nil => exact fun c hc hrec => ⟨c, rfl, hc, hrec, by simp, by simp⟩
    | cons dim dims ih =>
      intro c hc hrec
      obtain ⟨c₁, hrun₁, hc₁, hrec₁, hd₁, hv₁⟩ := distance_dim_over hP hv hvwf hr hrwf hc hrec dim
      obtain ⟨c', hrun, hc', hrec', hd, hv'⟩ := ih c₁ hc₁ hrec₁
      refine ⟨c', ?_, hc', hrec', fun d => ?_, fun d => ?_⟩
      · rw [List.foldlM_cons, hrun₁]
        exact hrun
      · rw [hd, hd₁]
        simp only [List.mem_cons, not_or]
        tauto
      · rw [hv', hv₁]
        simp only [List.mem_cons, not_or]
        tauto
  have hstart : Unchanged h v ⟨h, v, [], 0⟩ := ⟨.refl _ _, fun _ => rfl⟩
  obtain ⟨c, hrun, hc, hrec, hd, hv'⟩ := hloop dims ⟨h, v, [], 0⟩ hstart ⟨by simp, by simp⟩
  exact ⟨c, hrun, hc.agrees, hrec, fun dim hdim =>
    ⟨fun hnone => ((hd dim).mp hnone).1 hdim, fun hnone => ((hv' dim).mp hnone).1 hdim⟩⟩

end RangeSetVector

end SEDiff.Juxta
