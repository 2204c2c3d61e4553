import SEDiff.Juxta.AddWith
import Mathlib.Algebra.Order.BigOperators.Group.List

/-!
# Adding densities

The density of a set at `x` is the sum of the weights of its ranges that cover `x`. `add` is
meant to add the density of the new range.

## What is proved

* `RangeSet.add_density_iff` — `add` adds the density exactly when the cutting gives up or every
  piece of the last round, which is inserted twice, has weight zero once it is stored; and the
  same for the insertions of `intersection_assign`.
-/

namespace SEDiff.Juxta

open Foundation

namespace RangeSet

/-- The weight that the object of a settled piece `p` carries once `p` is added to `rs`: its own
in a gap, and that of a part of the stored range around it otherwise. -/
def storedWeight (rs : List Range) (p : Range) : ℚ :=
  match rs.find? fun r => ¬ p.Disjoint r with
  | none => p.weight
  | some r => Range.kept Range.add_two p r

/-- Inserting the last pieces twice does no harm: there is no last round, or the stored ranges
are apart and each last piece weighs nothing once it is stored. -/
def AddsOnce (rs : List Range) (N : Range) : Prop :=
  GivesUp rs N ∨
    (rs.Pairwise Range.Disjoint ∧ ∀ ps, LastRound rs N ps → ∀ p ∈ ps, storedWeight rs p = 0)

/-- What becomes of a piece is computed from the stored ranges. -/
theorem Stored.weight_eq {h : Store Range} {rs : List ℕ} (hs : SetWF h rs) {v q : Range}
    (hv : v.start ≤ v.stop) (hst : Stored Range.add_two h rs v q) :
    q.weight = storedWeight (rs.map h.obj) v := by
  unfold storedWeight
  rcases hst with ⟨hgap, rfl⟩ | ⟨r, hr, hin, -, hw⟩
  · have hnone : (rs.map h.obj).find? (fun r => ¬ q.Disjoint r) = none := by
      rw [List.find?_eq_none]
      intro r hr
      obtain ⟨o, ho, rfl⟩ := List.mem_map.mp hr
      simpa using hgap o ho
    rw [hnone]
  · have hover : ¬ v.Disjoint (h.obj r) := by
      rintro (h1 | h1) <;> have := hin.1 <;> have := hin.2 <;> omega
    cases hfind : (rs.map h.obj).find? (fun r => ¬ v.Disjoint r) with
    | none =>
      have := List.find?_eq_none.mp hfind (h.obj r) (List.mem_map_of_mem hr)
      exact absurd (by simpa using hover) this
    | some r' =>
      obtain ⟨o, ho, rfl⟩ := List.mem_map.mp (List.mem_of_find?_eq_some hfind)
      have ho' : ¬ v.Disjoint (h.obj o) := by simpa using List.find?_some hfind
      by_cases hor : o = r
      · rw [hor, hw]
      · exact absurd ((hs.disjoint.forall hr ho (Ne.symm hor)).symm.mono_right hin).symm ho'

/-- The density of well-formed ranges vanishes when their weights do. -/
theorem rhoAt_eq_zero_iff {h : Store Range} {rs : List ℕ} (hwf : ∀ o ∈ rs, (h.obj o).WF) :
    (∀ x, Range.rhoAt h rs x = 0) ↔ ∀ o ∈ rs, (h.obj o).weight = 0 := by
  constructor
  · intro hz o ho
    have hx := hz (h.obj o).start
    have hle := List.single_le_sum (l := rs.map fun q => (h.obj q).rho (h.obj o).start) (fun v hv => by
      obtain ⟨q, hq, rfl⟩ := List.mem_map.mp hv
      exact Range.rho_nonneg (hwf q hq) _) _ (List.mem_map_of_mem ho)
    have hself : (h.obj o).rho (h.obj o).start = (h.obj o).weight :=
      box_of_mem ⟨le_rfl, (hwf o ho).sane⟩
    have h0 := (hwf o ho).nonneg
    have hsum : (rs.map fun q => (h.obj q).rho (h.obj o).start).sum = 0 := hx
    linarith
  · intro hz x
    refine List.sum_eq_zero fun v hv => ?_
    obtain ⟨o, ho, rfl⟩ := List.mem_map.mp hv
    rw [Range.rho_def, hz o ho, ite_self]

/-! ### One insertion -/

/-- What `add` does to a set of pairwise disjoint ranges when the new range settles: `E` is the
density that is counted twice. -/
structure Exceeds (h : Store Range) (rs : List ℕ) (new : ℕ) (h' : Store Range) (rs' : List ℕ)
    (E : ℤ → ℚ) : Prop where
  /-- Nothing else is touched. -/
  touches : Touches h rs [new] h' rs'
  /-- Every range is well formed again. -/
  wf : Range.AllWF h'
  /-- The set is a set of pairwise disjoint ranges again. -/
  set : SetWF h' rs'
  /-- The excess is not negative. -/
  nonneg : ∀ x, 0 ≤ E x
  /-- The densities are added, and the excess comes on top. -/
  dens : ∀ x, Range.rhoAt h' rs' x = Range.rhoAt h rs x + (h.obj new).rho x + E x
  /-- When there is no excess. -/
  zero_iff : (∀ x, E x = 0) ↔ AddsOnce (rs.map h.obj) (h.obj new)

/-- The ranges of a set are apart, as values. -/
theorem SetWF.pairwise {h : Store Range} {rs : List ℕ} (hs : SetWF h rs) :
    (rs.map h.obj).Pairwise Range.Disjoint :=
  List.pairwise_map.mpr hs.disjoint

/-- The pieces of the last round weigh nothing when stored exactly when their range is added once. -/
theorem addsOnce_iff_of_lastRound {rs vs : List Range} {N : Range} (hd : rs.Pairwise Range.Disjoint)
    (hl : LastRound rs N vs) : AddsOnce rs N ↔ ∀ v ∈ vs, storedWeight rs v = 0 := by
  constructor
  · rintro (hg | ⟨-, hz⟩)
    · exact absurd hg hl.not_givesUp
    · exact hz vs hl
  · intro hz
    refine .inr ⟨hd, fun ps hps => ?_⟩
    rw [hps.unique hl]
    exact hz

/-- **What `add` does**: the excess is the density of the pieces of the last round as stored. -/
theorem add_exceeds {h : Store Range} (hwf : Range.AllWF h) {rs : List ℕ} (hs : SetWF h rs) {new : ℕ}
    (hn : new < h.next) (hnew : new ∉ rs) (hset : Settles (rs.map h.obj) (h.obj new)) :
    ∃ h' rs' E, add_with Range.intersection_assign h rs new = .ok (h', rs') ∧
      Exceeds h rs new h' rs' E := by
  obtain ⟨h', rs', h₁, w, hrun, ha⟩ := add_with_settled Range.merge_add_two hwf hs hn hnew hset
  have hE : ∀ x, Range.rhoAt h' w x - Range.rhoAt h₁ w x = Range.rhoAt h₁ w x := by
    intro x
    have hdouble : ∀ p ∈ w, (h'.obj p).rho x = (h₁.obj p).rho x + (h₁.obj p).rho x := by
      intro p hp
      rw [(ha.again p hp).2, rho_doubled Range.merge_add_two]
      rfl
    have hsum : Range.rhoAt h' w x = Range.rhoAt h₁ w x + Range.rhoAt h₁ w x := by
      unfold Range.rhoAt
      rw [List.map_congr_left hdouble, List.sum_map_add]
    rw [hsum, add_sub_cancel_right]
  refine ⟨h', rs', Range.rhoAt h₁ w, hrun, ha.touches, ha.wf, ha.set,
    Range.rhoAt_nonneg fun p hp => (ha.again p hp).1, fun x => ?_, ?_⟩
  · rw [ha.dens, hE]
    rfl
  · rw [rhoAt_eq_zero_iff fun p hp => (ha.again p hp).1]
    rcases ha.last with ⟨hg, rfl⟩ | ⟨vs, hl, hall⟩
    · exact iff_of_true (by simp) (.inl hg)
    · rw [addsOnce_iff_of_lastRound hs.pairwise hl]
      -- the pieces as cut and as stored correspond one to one
      have hw : List.Forall₂ (fun v p => (h₁.obj p).weight = storedWeight (rs.map h.obj) v) vs w :=
        hall.imp fun v p hvp => hvp.2.weight_eq hs hvp.1
      clear hall hl hE ha
      induction hw with
      | nil => simp
      | cons hvp _ ih =>
        rw [List.forall_mem_cons, List.forall_mem_cons, hvp]
        exact and_congr_right fun _ => ih

/-! ### The insertions of `intersection_assign` -/

/-- Every insertion settles: the excesses add up, and vanish when each of them does. -/
theorem add_all_exceeds {h : Store Range} (hwf : Range.AllWF h) {rs xs : List ℕ} (hs : SetWF h rs)
    (hx : Args h rs xs) (hset : BeforeEach Range.intersection_assign Settles h rs xs) :
    ∃ (h' : Store Range) (rs' : List ℕ) (E : ℤ → ℚ), add_all Range.intersection_assign h rs xs = .ok (h', rs') ∧
      Touches h rs xs h' rs' ∧ Range.AllWF h' ∧ SetWF h' rs' ∧ (∀ x, 0 ≤ E x) ∧
      (∀ x, Range.rhoAt h' rs' x = Range.rhoAt h rs x + Range.rhoAt h xs x + E x) ∧
      ((∀ x, E x = 0) ↔ BeforeEach Range.intersection_assign AddsOnce h rs xs) := by
  induction xs generalizing h rs with
  | nil => exact ⟨h, rs, fun _ => 0, rfl, .nil _ _, hwf, hs, fun _ => le_rfl, by simp, by simp [BeforeEach]⟩
  | cons y xs ih =>
    have hym : y ∈ y :: xs := List.mem_cons_self
    obtain ⟨h₁, rs₁, E₁, hrun₁, he⟩ := add_exceeds hwf hs (hx.live y hym) (hx.fresh y hym) hset.1
    obtain ⟨hx₁, hobj⟩ := hx.tail he.touches
    obtain ⟨h', rs', E, hrun, ht, hwf', hs', hnn, hdens, hzero⟩ := ih he.wf he.set hx₁ ((beforeEach_cons hrun₁).mp hset).2
    refine ⟨h', rs', fun x => E₁ x + E x, ?_, he.touches.cons ht, hwf', hs', fun x => add_nonneg (he.nonneg x) (hnn x), fun x => ?_, ?_⟩
    · rw [add_all, hrun₁]
      exact hrun
    · rw [hdens, he.dens, Range.rhoAt_congr hobj, Range.rhoAt_cons]
      ring
    · rw [beforeEach_cons hrun₁, ← he.zero_iff]
      constructor
      · intro hz
        have hz₁ : ∀ x, E₁ x = 0 ∧ E x = 0 := fun x =>
          (add_eq_zero_iff_of_nonneg (he.nonneg x) (hnn x)).mp (hz x)
        exact ⟨fun x => (hz₁ x).1, hzero.mp fun x => (hz₁ x).2⟩
      · rintro ⟨hz₁, hrest⟩ x
        show E₁ x + E x = 0
        rw [hz₁ x, hzero.mpr hrest x, add_zero]

/-- Each insertion adds once: the densities are added, whatever the set. -/
theorem add_all_once {h : Store Range} (hwf : Range.AllWF h) {rs xs : List ℕ}
    (hl : ∀ r ∈ rs, r < h.next) (hnd : rs.Nodup) (hx : Args h rs xs)
    (honce : BeforeEach Range.intersection_assign AddsOnce h rs xs) :
    ∃ h' rs', add_all Range.intersection_assign h rs xs = .ok (h', rs') ∧ Added h rs xs h' rs' := by
  induction xs generalizing h rs with
  | nil => exact ⟨h, rs, rfl, .nil _ _, hwf, hl, hnd, by simp⟩
  | cons y xs ih =>
    have hyn := hx.live y List.mem_cons_self
    have hyr := hx.fresh y List.mem_cons_self
    have hfirst := honce.1
    obtain ⟨h₁, rs₁, hrun₁, ha⟩ :
        ∃ h₁ rs₁, add_with Range.intersection_assign h rs y = .ok (h₁, rs₁) ∧ Added h rs [y] h₁ rs₁ := by
      by_cases hg : GivesUp (rs.map h.obj) (h.obj y)
      · exact add_with_givesUp hwf hl hnd hyn hyr hg
      · -- the cutting comes to an end, so the set is one of disjoint ranges
        have hs : SetWF h rs := ⟨hl, hnd, List.pairwise_map.mp (hfirst.resolve_left hg).1⟩
        obtain ⟨h₁, rs₁, E, hrun₁, he⟩ := add_exceeds hwf hs hyn hyr (settles_of_not_givesUp hg)
        refine ⟨h₁, rs₁, hrun₁, he.touches, he.wf, he.set.live, he.set.nodup, fun x => ?_⟩
        rw [he.dens, he.zero_iff.mpr hfirst x, Range.rhoAt_cons, Range.rhoAt_nil, add_assoc]
    obtain ⟨h', rs', hrun, ha'⟩ := ih ha.wf ha.live ha.nodup (hx.tail ha.touches).1
      ((beforeEach_cons hrun₁).mp honce).2
    refine ⟨h', rs', ?_, ha.cons hx ha'⟩
    rw [add_all, hrun₁]
    exact hrun

/-! ### Areas -/

/-- The total area of the ranges at `rs`. -/
def total_area (h : Store Range) (rs : List ℕ) : ℚ := (rs.map fun o => (h.obj o).calc_area).sum

theorem rhoAt_eq_listSum (h : Store Range) (rs : List ℕ) :
    Range.rhoAt h rs = listSum (rs.map fun o => (h.obj o).rho) := by
  funext x
  unfold listSum Range.rhoAt
  rw [List.map_map]
  rfl

theorem finite_support_rho {h : Store Range} {rs : List ℕ} :
    ∀ g ∈ rs.map fun o => (h.obj o).rho, (Function.support g).Finite := by
  intro g hg
  obtain ⟨o, -, rfl⟩ := List.mem_map.mp hg
  exact finite_support_box _ _ _

theorem finite_support_rhoAt (h : Store Range) (rs : List ℕ) :
    (Function.support (Range.rhoAt h rs)).Finite := by
  rw [rhoAt_eq_listSum]
  exact finite_support_listSum finite_support_rho

/-- The total area is the sum of the density over all the integers. -/
theorem total_area_eq {h : Store Range} {rs : List ℕ} (hwf : ∀ o ∈ rs, (h.obj o).WF) :
    total_area h rs = area (Range.rhoAt h rs) := by
  rw [rhoAt_eq_listSum, area_listSum finite_support_rho, List.map_map, total_area]
  congr 1
  refine List.map_congr_left fun o ho => ?_
  have := (hwf o ho).sane
  exact (area_box _ (by omega)).symm

/-- **`add` adds densities** exactly when the new range is added once, and so does
`intersection_assign` when each of its insertions is; when they all settle, only then. -/
theorem add_density_iff {h : Store Range} (hwf : Range.AllWF h) {rs : List ℕ} (hs : SetWF h rs) :
    (∀ new, new < h.next → new ∉ rs → ∃ h' rs', add h rs new = .ok (h', rs') ∧
      ((∀ x, Range.rhoAt h' rs' x = Range.rhoAt h rs x + (h.obj new).rho x) ↔
        AddsOnce (rs.map h.obj) (h.obj new))) ∧
    (∀ xs, Args h rs xs → BeforeEach Range.intersection_assign AddsOnce h rs xs →
      ∃ h' rs', intersection_assign h rs xs = .ok (h', rs') ∧
        (∀ x, Range.rhoAt h' rs' x = Range.rhoAt h rs x + Range.rhoAt h xs x) ∧
        total_area h' rs' = total_area h rs + total_area h xs) ∧
    (∀ xs, Args h rs xs → BeforeEach Range.intersection_assign Settles h rs xs →
      ∃ h' rs', intersection_assign h rs xs = .ok (h', rs') ∧
        ((∀ x, Range.rhoAt h' rs' x = Range.rhoAt h rs x + Range.rhoAt h xs x) ↔
          BeforeEach Range.intersection_assign AddsOnce h rs xs)) := by
  refine ⟨fun new hn hnew => ?_, fun xs hx honce => ?_, fun xs hx hset => ?_⟩
  · by_cases hset : Settles (rs.map h.obj) (h.obj new)
    · obtain ⟨h', rs', E, hrun, he⟩ := add_exceeds hwf hs hn hnew hset
      refine ⟨h', rs', hrun, ?_⟩
      rw [← he.zero_iff]
      exact forall_congr' fun x => by rw [he.dens, add_eq_left]
    · -- what is left after thirty rounds is not settled
      have hg : GivesUp (rs.map h.obj) (h.obj new) := by
        by_contra hg
        exact hset (settles_of_not_givesUp hg)
      obtain ⟨h', rs', hrun, ha⟩ := add_with_givesUp hwf hs.live hs.nodup hn hnew hg
      refine ⟨h', rs', hrun, iff_of_true (fun x => ?_) (.inl hg)⟩
      rw [ha.dens, Range.rhoAt_cons, Range.rhoAt_nil, add_zero]
  · obtain ⟨h', rs', hrun, ha⟩ := add_all_once hwf hs.live hs.nodup hx honce
    refine ⟨h', rs', hrun, ha.dens, ?_⟩
    rw [total_area_eq fun o ho => ha.wf o (ha.live o ho), total_area_eq fun o ho => hwf o (hs.live o ho),
      total_area_eq fun o ho => hwf o (hx.live o ho), funext ha.dens,
      area_add (finite_support_rhoAt h rs) (finite_support_rhoAt h xs)]
  · obtain ⟨h', rs', E, hrun, -, -, -, -, hdens, hzero⟩ := add_all_exceeds hwf hs hx hset
    refine ⟨h', rs', hrun, ?_⟩
    rw [← hzero]
    exact forall_congr' fun x => by rw [hdens, add_eq_left]

/-- The last piece lies strictly inside a stored range without weight, and nothing is lost. -/
theorem add_density_iff_inside :
    ∃ h' rs', add (Store.ofList ⟨0, 0, 0, ∅⟩ [⟨1, 9, 0, ∅⟩, ⟨3, 5, 2, ∅⟩]) [0] 1 = .ok (h', rs') ∧
      ((∀ x, Range.rhoAt h' rs' x =
          Range.rhoAt (Store.ofList ⟨0, 0, 0, ∅⟩ [⟨1, 9, 0, ∅⟩, ⟨3, 5, 2, ∅⟩]) [0] x +
            (⟨3, 5, 2, ∅⟩ : Range).rho x) ↔
        AddsOnce [⟨1, 9, 0, ∅⟩] ⟨3, 5, 2, ∅⟩) :=
  (add_density_iff (by unfold Range.AllWF; decide +kernel) ⟨by decide, by decide, by decide⟩).1 1
    (by decide) (by decide)

/-- A range added to the empty set is inserted twice, and its weight counts twice. -/
theorem add_density_doubled :
    ¬ ∀ (h : Store Range) (rs : List ℕ) (new : ℕ), Range.AllWF h → SetWF h rs → new < h.next →
      new ∉ rs → ∀ h' rs', add h rs new = .ok (h', rs') →
        ∀ x, Range.rhoAt h' rs' x = Range.rhoAt h rs x + (h.obj new).rho x := by
  intro hall
  have hbad : ((add (Store.ofList ⟨0, 0, 0, ∅⟩ [⟨1, 100, 2, ∅⟩]) [] 0).toOption.any fun r =>
      decide (Range.rhoAt r.1 r.2 1 = 4)) = true := by decide +kernel
  cases hrun : add (Store.ofList ⟨0, 0, 0, ∅⟩ [⟨1, 100, 2, ∅⟩]) [] 0 with
  | error e =>
    rw [hrun] at hbad
    cases hbad
  | ok y =>
    rw [hrun] at hbad
    have hadd := hall (Store.ofList ⟨0, 0, 0, ∅⟩ [⟨1, 100, 2, ∅⟩]) [] 0
      (by unfold Range.AllWF; decide +kernel) ⟨by decide, by decide, by decide⟩ (by decide) (by decide)
      y.1 y.2 hrun 1
    rw [of_decide_eq_true hbad] at hadd
    exact absurd hadd (by decide +kernel)

end RangeSet

end SEDiff.Juxta
