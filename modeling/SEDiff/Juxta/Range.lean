import SEDiff.Foundation.Python
import SEDiff.Foundation.Store
import SEDiff.Foundation.StepFunction
import Mathlib.Data.Finset.Lattice.Basic

/-!
# Weighted ranges

The class `Range` of `rsv.py`: an integer range with inclusive endpoints and a weight,
and `Range.__op`, which merges two ranges in place into one, two or three. Endpoints are
integers and weights exact rationals.

A `Range` is an object that several holders share, so `__op` works on references into a
store of ranges, and its assignments to `lhs` and `rhs` are assignments to the objects.

## What is proved

* `Range.op_spec` — on two well-formed ranges, `__op` returns without an assertion
  failing; it keeps the reference of its receiver, changes nothing but its two operands,
  and the densities of the ranges it returns add up to the two densities combined by `op`.
-/

namespace SEDiff.Juxta

open Foundation

/-- A range; `stop` is the attribute `end`. -/
structure Range where
  /-- The first integer. -/
  start : ℤ
  /-- The last integer. -/
  stop : ℤ
  /-- The weight at each integer. -/
  weight : ℚ
  /-- Where the range comes from. -/
  comments : Finset String
  deriving DecidableEq

namespace Range

/-- `check_sanity`. -/
def check_sanity (r : Range) : Prop := r.start ≤ r.stop

instance (r : Range) : Decidable r.check_sanity := inferInstanceAs (Decidable (_ ≤ _))

/-- What the constructor asserts. -/
structure WF (r : Range) : Prop where
  /-- `self.start <= self.end`. -/
  sane : r.start ≤ r.stop
  /-- `self.weight >= 0`. -/
  nonneg : 0 ≤ r.weight

instance (r : Range) : Decidable r.WF :=
  decidable_of_iff (r.start ≤ r.stop ∧ 0 ≤ r.weight) ⟨fun h => ⟨h.1, h.2⟩, fun h => ⟨h.1, h.2⟩⟩

/-- `Range(start, end, weight, comments)`. -/
def new (h : Store Range) (r : Range) : Except PyErr (Store Range × ℕ) := do
  pyAssert (r.start ≤ r.stop)
  pyAssert (0 ≤ r.weight)
  return h.alloc r

/-- `div_assign`. -/
def div_assign (r : Range) (n : ℚ) : Range := { r with weight := r.weight / n }

/-- `_calc_area`. -/
def calc_area (r : Range) : ℚ := (r.stop - r.start + 1) * r.weight

/-- `_overlapped_area`: the area of the overlap, its ends and its weight. -/
def overlapped_area (r rhs : Range) : ℚ × ℤ × ℤ × ℚ :=
  let s := max r.start rhs.start
  let e := min r.stop rhs.stop
  if s > e then (0, 0, 0, 0)
  else
    let w := min r.weight rhs.weight
    ((e - s + 1) * w, s, e, w)

/-- `__op`: merge `self` and `rhs`, combining the weights of the overlap with `op`. -/
def op (op : ℚ → ℚ → ℚ) (h : Store Range) (self rhs : ℕ) : Except PyErr (Store Range × List ℕ) :=
  let (lhs, rhs) := if (h.obj self).start > (h.obj rhs).start then (rhs, self) else (self, rhs)
  let L := h.obj lhs
  let R := h.obj rhs
  -- CASE 1: single region
  if L.start = R.start ∧ L.stop = R.stop then
    .ok (h.set lhs { L with weight := op L.weight R.weight, comments := L.comments ∪ R.comments },
      [lhs])
  -- CASE 2: two regions
  else if L.stop < R.start then .ok (h, [lhs, rhs])
  else if L.start = R.start then
    let (lhs, rhs) := if L.stop > R.stop then (rhs, lhs) else (lhs, rhs)
    let L := h.obj lhs
    let R := h.obj rhs
    let h := h.set lhs { L with weight := op L.weight R.weight, comments := L.comments ∪ R.comments }
    let h := h.set rhs { R with start := L.stop + 1 }
    do pyAssert (h.obj rhs).check_sanity
       return (h, [lhs, rhs])
  else if L.stop = R.stop then
    let h := h.set rhs { R with weight := op L.weight R.weight, comments := L.comments ∪ R.comments }
    let h := h.set lhs { L with stop := R.start - 1 }
    do pyAssert (h.obj lhs).check_sanity
       return (h, [lhs, rhs])
  -- CASE 3: three regions
  else do
    let (h, mhs) ← new h ⟨R.start, min L.stop R.stop, op L.weight R.weight, L.comments ∪ R.comments⟩
    let R := if L.stop > R.stop then { R with stop := L.stop, weight := L.weight, comments := L.comments }
      else R
    let h := h.set lhs { L with stop := (h.obj mhs).start - 1 }
    let h := h.set rhs { R with start := (h.obj mhs).stop + 1 }
    pyAssert (h.obj lhs).check_sanity
    pyAssert (h.obj mhs).check_sanity
    pyAssert (h.obj rhs).check_sanity
    return (h, [lhs, mhs, rhs])

/-- `union_assign`. -/
def union_assign (h : Store Range) (lhs rhs : ℕ) : Except PyErr (Store Range × List ℕ) :=
  op max h lhs rhs

/-- `add_two`. -/
def add_two (lhs rhs : ℚ) : ℚ := lhs + rhs

/-- `intersection_assign`. -/
def intersection_assign (h : Store Range) (lhs rhs : ℕ) : Except PyErr (Store Range × List ℕ) :=
  op add_two h lhs rhs

/-! ### Densities -/

/-- The density of one range: its weight where it covers. -/
def rho (r : Range) : ℤ → ℚ := box r.start r.stop r.weight

theorem rho_nonneg {r : Range} (h : r.WF) (x : ℤ) : 0 ≤ r.rho x := box_nonneg h.nonneg x

/-- No integer lies in both ranges. -/
def Disjoint (r s : Range) : Prop := r.stop < s.start ∨ s.stop < r.start

instance (r s : Range) : Decidable (r.Disjoint s) := inferInstanceAs (Decidable (_ ∨ _))

theorem Disjoint.symm {r s : Range} (h : r.Disjoint s) : s.Disjoint r := Or.symm h

/-- Every integer of `r` lies in `s`. -/
def Within (r s : Range) : Prop := s.start ≤ r.start ∧ r.stop ≤ s.stop

instance (r s : Range) : Decidable (r.Within s) := inferInstanceAs (Decidable (_ ∧ _))

theorem Within.trans {p q r : Range} (hp : p.Within q) (hq : q.Within r) : p.Within r :=
  ⟨hq.1.trans hp.1, hp.2.trans hq.2⟩

/-- What avoids a range avoids every part of it. -/
theorem Disjoint.mono_right {p q r : Range} (h : p.Disjoint r) (hq : q.Within r) : p.Disjoint q :=
  h.imp (fun h1 => h1.trans_le hq.1) fun h1 => hq.2.trans_lt h1

/-- A way of combining weights that `__op` is used with: it does not depend on the order of
the operands, and a range combined with nothing keeps its weight. -/
structure Merge (op : ℚ → ℚ → ℚ) : Prop where
  /-- The order of the operands does not matter. -/
  comm : ∀ a b, op a b = op b a
  /-- Nothing adds nothing. -/
  zero : ∀ a, 0 ≤ a → op a 0 = a
  /-- Weights stay nonnegative. -/
  nonneg : ∀ a b, 0 ≤ a → 0 ≤ b → 0 ≤ op a b

theorem merge_max : Merge max :=
  ⟨max_comm, fun _ ha => max_eq_left ha, fun _ _ ha _ => le_max_of_le_left ha⟩

theorem merge_add_two : Merge add_two :=
  ⟨fun a b => add_comm a b, fun a _ => add_zero a, fun _ _ ha hb => add_nonneg ha hb⟩

/-! ### What a merge does -/

variable {f : ℚ → ℚ → ℚ}

/-- The total density of the ranges at `rs`. -/
def rhoAt (h : Store Range) (rs : List ℕ) (x : ℤ) : ℚ := (rs.map fun o => (h.obj o).rho x).sum

@[simp] theorem rhoAt_nil (h : Store Range) (x : ℤ) : rhoAt h [] x = 0 := rfl

@[simp] theorem rhoAt_cons (h : Store Range) (o : ℕ) (rs : List ℕ) (x : ℤ) :
    rhoAt h (o :: rs) x = (h.obj o).rho x + rhoAt h rs x := by simp [rhoAt]

@[simp] theorem rhoAt_append (h : Store Range) (rs ss : List ℕ) (x : ℤ) :
    rhoAt h (rs ++ ss) x = rhoAt h rs x + rhoAt h ss x := by simp [rhoAt]

/-- Densities are read through the objects only. -/
theorem rhoAt_congr {h h' : Store Range} {rs : List ℕ} (ho : ∀ o ∈ rs, h'.obj o = h.obj o) (x : ℤ) :
    rhoAt h' rs x = rhoAt h rs x := by
  unfold rhoAt
  rw [List.map_congr_left fun o hm => by rw [ho o hm]]

theorem rhoAt_perm {h : Store Range} {rs ss : List ℕ} (hp : rs.Perm ss) (x : ℤ) :
    rhoAt h rs x = rhoAt h ss x :=
  (hp.map _).sum_eq

theorem rhoAt_nonneg {h : Store Range} {rs : List ℕ} (hwf : ∀ o ∈ rs, (h.obj o).WF) (x : ℤ) :
    0 ≤ rhoAt h rs x :=
  List.sum_nonneg fun v hv => by
    obtain ⟨o, ho, rfl⟩ := List.mem_map.mp hv
    exact rho_nonneg (hwf o ho) x

/-- Every allocated range is well formed. -/
def AllWF (h : Store Range) : Prop := ∀ o, o < h.next → (h.obj o).WF

/-- What `__op` does to two ranges at `new` and `r`, whatever their position. -/
structure OpSpec (f : ℚ → ℚ → ℚ) (h : Store Range) (new r : ℕ) (h' : Store Range) (xs : List ℕ) :
    Prop where
  /-- Only the two operands change. -/
  agrees : h.Agrees h' fun o => o = new ∨ o = r
  /-- The receiver is kept. -/
  mem : new ∈ xs
  /-- No range is returned twice. -/
  nodup : xs.Nodup
  /-- The returned ranges are the operands or fresh. -/
  refs : ∀ o ∈ xs, o = new ∨ o = r ∨ h.next ≤ o
  /-- The returned ranges are allocated. -/
  live : ∀ o ∈ xs, o < h'.next
  /-- Every range is well formed again. -/
  wf : AllWF h'
  /-- The densities are combined pointwise. -/
  dens : ∀ x, rhoAt h' xs x = f ((h.obj new).rho x) ((h.obj r).rho x)

/-- `__op` starts by ordering its operands. -/
theorem op_of_lt (h : Store Range) {l r : ℕ} (hlt : (h.obj l).start < (h.obj r).start) :
    op f h r l = op f h l r := by
  unfold op
  rw [if_pos hlt, if_neg (not_lt.mpr hlt.le)]

/-- CASE 1: the two ranges cover the same integers. -/
theorem op_same (h : Store Range) {l r : ℕ} (hs : (h.obj l).start = (h.obj r).start)
    (he : (h.obj l).stop = (h.obj r).stop) :
    op f h l r = .ok (h.set l { h.obj l with
      weight := f (h.obj l).weight (h.obj r).weight,
      comments := (h.obj l).comments ∪ (h.obj r).comments }, [l]) := by
  unfold op
  rw [if_neg (not_lt.mpr hs.le)]
  exact if_pos ⟨hs, he⟩

/-- CASE 2: the first range ends before the second. -/
theorem op_before (h : Store Range) {l r : ℕ} (hl : (h.obj l).WF)
    (hb : (h.obj l).stop < (h.obj r).start) : op f h l r = .ok (h, [l, r]) := by
  have := hl.sane
  unfold op
  rw [if_neg (by omega)]
  simp only
  rw [if_neg (by omega), if_pos hb]

/-- The ranges start together and the first is the shorter. -/
theorem op_head_left (h : Store Range) {l r : ℕ} (hl : (h.obj l).WF)
    (hs : (h.obj l).start = (h.obj r).start) (he : (h.obj l).stop < (h.obj r).stop) :
    op f h l r = .ok ((h.set l { h.obj l with
      weight := f (h.obj l).weight (h.obj r).weight,
      comments := (h.obj l).comments ∪ (h.obj r).comments }).set r
        { h.obj r with start := (h.obj l).stop + 1 }, [l, r]) := by
  have := hl.sane
  unfold op
  rw [if_neg (not_lt.mpr hs.le)]
  simp only
  rw [if_neg (by omega), if_neg (by omega), if_pos hs, if_neg (by omega)]
  simp only
  rw [pyAssert_of_true (by rw [Store.obj_set_self]; show _ ≤ _; simp only; omega)]
  rfl

/-- The ranges start together and the second is the shorter. -/
theorem op_head_right (h : Store Range) {l r : ℕ} (hr : (h.obj r).WF)
    (hs : (h.obj l).start = (h.obj r).start) (he : (h.obj r).stop < (h.obj l).stop) :
    op f h l r = .ok ((h.set r { h.obj r with
      weight := f (h.obj r).weight (h.obj l).weight,
      comments := (h.obj r).comments ∪ (h.obj l).comments }).set l
        { h.obj l with start := (h.obj r).stop + 1 }, [r, l]) := by
  have := hr.sane
  unfold op
  rw [if_neg (not_lt.mpr hs.le)]
  simp only
  rw [if_neg (by omega), if_neg (by omega), if_pos hs, if_pos he]
  simp only
  rw [pyAssert_of_true (by rw [Store.obj_set_self]; show _ ≤ _; simp only; omega)]
  rfl

/-- The ranges end together. -/
theorem op_tail (h : Store Range) {l r : ℕ} (hr : (h.obj r).WF)
    (hs : (h.obj l).start < (h.obj r).start) (he : (h.obj l).stop = (h.obj r).stop) :
    op f h l r = .ok ((h.set r { h.obj r with
      weight := f (h.obj l).weight (h.obj r).weight,
      comments := (h.obj l).comments ∪ (h.obj r).comments }).set l
        { h.obj l with stop := (h.obj r).start - 1 }, [l, r]) := by
  have := hr.sane
  unfold op
  rw [if_neg (not_lt.mpr hs.le)]
  simp only
  rw [if_neg (by omega), if_neg (by omega), if_neg hs.ne, if_pos he]
  rw [pyAssert_of_true (by rw [Store.obj_set_self]; show _ ≤ _; simp only; omega)]
  rfl

/-- The third region of CASE 3: what is left of the longer range. -/
def rest (L R : Range) : Range :=
  if L.stop > R.stop then { R with stop := L.stop, weight := L.weight, comments := L.comments } else R

theorem rest_of_gt {L R : Range} (h : R.stop < L.stop) :
    rest L R = { R with stop := L.stop, weight := L.weight, comments := L.comments } := if_pos h

theorem rest_of_lt {L R : Range} (h : L.stop < R.stop) : rest L R = R := if_neg (not_lt.mpr h.le)

theorem rest_stop (L R : Range) : (rest L R).stop = max L.stop R.stop := by
  unfold rest
  split_ifs with hlt
  · exact (max_eq_left (le_of_lt hlt)).symm
  · exact (max_eq_right (not_lt.mp hlt)).symm

/-- CASE 3: three regions, the middle one a fresh object. -/
theorem op_three (h : Store Range) (hf : Merge f) {l r : ℕ} (hl : (h.obj l).WF) (hr : (h.obj r).WF)
    (hll : l < h.next) (hrl : r < h.next)
    (hs : (h.obj l).start < (h.obj r).start) (ho : (h.obj r).start ≤ (h.obj l).stop)
    (he : (h.obj l).stop ≠ (h.obj r).stop) :
    op f h l r = .ok ((((h.alloc ⟨(h.obj r).start, min (h.obj l).stop (h.obj r).stop,
        f (h.obj l).weight (h.obj r).weight, (h.obj l).comments ∪ (h.obj r).comments⟩).1.set l
          { h.obj l with stop := (h.obj r).start - 1 }).set r
          { rest (h.obj l) (h.obj r) with start := min (h.obj l).stop (h.obj r).stop + 1 }),
        [l, h.next, r]) := by
  have h1 := hl.sane
  have h2 := hr.sane
  have hne : l ≠ r := by rintro rfl; exact lt_irrefl _ hs
  have hln : h.next ≠ l := Nat.ne_of_gt hll
  have hrn : h.next ≠ r := Nat.ne_of_gt hrl
  unfold op new
  rw [if_neg (not_lt.mpr hs.le)]
  simp only
  rw [if_neg (by omega), if_neg (by omega), if_neg hs.ne, if_neg he]
  rw [pyAssert_of_true (by omega), pyAssert_of_true (hf.nonneg _ _ hl.nonneg hr.nonneg)]
  simp only [ok_bind, pure_bind, Store.ref_alloc, Store.obj_alloc_next]
  rw [Store.obj_set_of_ne _ _ hln, Store.obj_alloc_next]
  simp only
  rw [pyAssert_of_true, pyAssert_of_true, pyAssert_of_true]
  · rfl
  · rw [Store.obj_set_self]
    show min (h.obj l).stop (h.obj r).stop + 1 ≤ (rest (h.obj l) (h.obj r)).stop
    rw [rest_stop]; omega
  · rw [Store.obj_set_of_ne _ _ hrn, Store.obj_set_of_ne _ _ hln, Store.obj_alloc_next]
    show _ ≤ _; simp only; omega
  · rw [Store.obj_set_of_ne _ _ hne, Store.obj_set_self]; show _ ≤ _; simp only; omega

/-- Nothing combined with a weight is the weight. -/
theorem Merge.zero_left (hf : Merge f) {a : ℚ} (ha : 0 ≤ a) : f 0 a = a := by rw [hf.comm, hf.zero a ha]

theorem rho_def (r : Range) (x : ℤ) : r.rho x = if r.start ≤ x ∧ x ≤ r.stop then r.weight else 0 := rfl

theorem AllWF.set {h : Store Range} (hwf : AllWF h) {p : ℕ} {v : Range} (hs : v.start ≤ v.stop)
    (hw : 0 ≤ v.weight) : AllWF (h.set p v) := by
  intro o ho
  by_cases hop : o = p
  · rw [hop, Store.obj_set_self]; exact ⟨hs, hw⟩
  · rw [Store.obj_set_of_ne _ _ hop]; exact hwf o ho

theorem AllWF.alloc {h : Store Range} (hwf : AllWF h) {v : Range} (hs : v.start ≤ v.stop)
    (hw : 0 ≤ v.weight) : AllWF (h.alloc v).1 := by
  intro o ho
  rw [Store.next_alloc] at ho
  by_cases hop : o = h.next
  · rw [hop, Store.obj_alloc_next]; exact ⟨hs, hw⟩
  · rw [Store.obj_alloc_of_ne _ _ hop]; exact hwf o (by omega)

/-- Overwriting the two operands is a change to the two operands. -/
theorem agrees_set_set (h : Store Range) (p q : ℕ) (v w : Range) :
    h.Agrees ((h.set p v).set q w) fun o => o = p ∨ o = q :=
  ⟨le_rfl, fun o _ ho => by
    rw [not_or] at ho
    rw [Store.obj_set_of_ne _ _ ho.2, Store.obj_set_of_ne _ _ ho.1]⟩

/-- `__op` on operands in order: the ranges' positions decide which of the three cases runs. -/
theorem op_spec_of_le (hf : Merge f) {h : Store Range} (hwf : AllWF h) {l r : ℕ} (hl : l < h.next)
    (hr : r < h.next) (hle : (h.obj l).start ≤ (h.obj r).start) :
    ∃ h' xs, op f h l r = .ok (h', xs) ∧ OpSpec f h l r h' xs ∧
      ((h.obj l).start < (h.obj r).start → r ∈ xs) := by
  have wl := hwf l hl
  have wr := hwf r hr
  have hsl := wl.sane
  have hsr := wr.sane
  have h00 : f 0 0 = 0 := hf.zero 0 le_rfl
  have hl0 := hf.zero _ wl.nonneg
  have h0r := hf.zero_left wr.nonneg
  have hw := hf.nonneg _ _ wl.nonneg wr.nonneg
  have hlr : ∀ o, o ∈ [l, r] → o < h.next := by simp [hl, hr]
  rcases hle.lt_or_eq with hlt | heq
  · have hne : l ≠ r := by rintro rfl; exact lt_irrefl _ hlt
    rcases lt_or_ge (h.obj l).stop (h.obj r).start with hb | hb
    · -- no overlap
      refine ⟨h, [l, r], op_before h wl hb, ⟨.refl _ _, by simp, by simp [hne], by simp +contextual,
        hlr, hwf, fun x => ?_⟩, fun _ => by simp⟩
      simp only [rhoAt_cons, rhoAt_nil, rho_def]
      split_ifs <;> first | (exfalso; omega) | simp [h00, hl0, h0r]
    · rcases lt_trichotomy (h.obj l).stop (h.obj r).stop with he | he | he
      · -- three regions, the second range ends last
        refine ⟨_, _, op_three h hf wl wr hl hr hlt hb he.ne, ?_, fun _ => by simp⟩
        have hln : h.next ≠ l := Nat.ne_of_gt hl
        have hrn : h.next ≠ r := Nat.ne_of_gt hr
        rw [rest_of_lt he, min_eq_left he.le]
        refine ⟨⟨by simp, fun o ho hn => ?_⟩, by simp, by simp [hne, hln.symm, hrn],
          by simp +contextual, ?_, ?_, fun x => ?_⟩
        · rw [not_or] at hn
          rw [Store.obj_set_of_ne _ _ hn.2, Store.obj_set_of_ne _ _ hn.1, Store.obj_alloc_of_lt _ _ ho]
        · simp only [List.mem_cons, List.not_mem_nil, or_false, Store.next_set, Store.next_alloc]
          rintro o (rfl | rfl | rfl) <;> omega
        · refine AllWF.set (AllWF.set (AllWF.alloc hwf ?_ ?_) ?_ ?_) ?_ ?_
          all_goals first | exact hw | exact wl.nonneg | exact wr.nonneg | (simp only; omega)
        · simp only [rhoAt_cons, rhoAt_nil, Store.obj_set_self, Store.obj_set_of_ne _ _ hne,
            Store.obj_set_of_ne _ _ hln, Store.obj_set_of_ne _ _ hrn, Store.obj_alloc_next, rho_def]
          split_ifs <;> first | (exfalso; omega) | simp [h00, hl0, h0r]
      · -- the ranges end together
        refine ⟨_, _, op_tail h wr hlt he, ⟨(agrees_set_set h _ _ _ _).mono (by simp +contextual),
          by simp, by simp [hne], by simp +contextual, hlr, ?_, fun x => ?_⟩, fun _ => by simp⟩
        · refine AllWF.set (AllWF.set hwf ?_ ?_) ?_ ?_
          all_goals first | exact hw | exact wl.nonneg | exact wr.nonneg | (simp only; omega)
        · simp only [rhoAt_cons, rhoAt_nil, Store.obj_set_self, Store.obj_set_of_ne _ _ hne.symm, rho_def]
          split_ifs <;> first | (exfalso; omega) | simp [h00, hl0]
      · -- three regions, the first range ends last
        refine ⟨_, _, op_three h hf wl wr hl hr hlt hb he.ne', ?_, fun _ => by simp⟩
        have hln : h.next ≠ l := Nat.ne_of_gt hl
        have hrn : h.next ≠ r := Nat.ne_of_gt hr
        rw [rest_of_gt he, min_eq_right he.le]
        refine ⟨⟨by simp, fun o ho hn => ?_⟩, by simp, by simp [hne, hln.symm, hrn],
          by simp +contextual, ?_, ?_, fun x => ?_⟩
        · rw [not_or] at hn
          rw [Store.obj_set_of_ne _ _ hn.2, Store.obj_set_of_ne _ _ hn.1, Store.obj_alloc_of_lt _ _ ho]
        · simp only [List.mem_cons, List.not_mem_nil, or_false, Store.next_set, Store.next_alloc]
          rintro o (rfl | rfl | rfl) <;> omega
        · refine AllWF.set (AllWF.set (AllWF.alloc hwf ?_ ?_) ?_ ?_) ?_ ?_
          all_goals first | exact hw | exact wl.nonneg | exact wr.nonneg | (simp only; omega)
        · simp only [rhoAt_cons, rhoAt_nil, Store.obj_set_self, Store.obj_set_of_ne _ _ hne,
            Store.obj_set_of_ne _ _ hln, Store.obj_set_of_ne _ _ hrn, Store.obj_alloc_next, rho_def]
          split_ifs <;> first | (exfalso; omega) | simp [h00, hl0]
  · suffices hex : ∃ h' xs, op f h l r = .ok (h', xs) ∧ OpSpec f h l r h' xs by
      obtain ⟨h', xs, hop, hspec⟩ := hex
      exact ⟨h', xs, hop, hspec, fun hlt => absurd heq hlt.ne⟩
    rcases lt_trichotomy (h.obj l).stop (h.obj r).stop with he | he | he
    · -- the ranges start together, the second ends last
      have hne : l ≠ r := by rintro rfl; exact lt_irrefl _ he
      refine ⟨_, _, op_head_left h wl heq he, ⟨agrees_set_set h _ _ _ _, by simp, by simp [hne],
        by simp +contextual, hlr, ?_, fun x => ?_⟩⟩
      · refine AllWF.set (AllWF.set hwf ?_ ?_) ?_ ?_
        all_goals first | exact hw | exact wl.nonneg | exact wr.nonneg | (simp only; omega)
      · simp only [rhoAt_cons, rhoAt_nil, Store.obj_set_self, Store.obj_set_of_ne _ _ hne, rho_def]
        split_ifs <;> first | (exfalso; omega) | simp [h00, h0r]
    · -- the ranges cover the same integers
      refine ⟨_, _, op_same h heq he, ⟨⟨le_rfl, fun o _ ho => ?_⟩, by simp, by simp, by simp,
        by simp [hl], hwf.set hsl hw, fun x => ?_⟩⟩
      · rw [not_or] at ho
        exact Store.obj_set_of_ne _ _ ho.1
      · simp only [rhoAt_cons, rhoAt_nil, Store.obj_set_self, rho_def, ← heq, ← he]
        split_ifs <;> simp [h00]
    · -- the ranges start together, the first ends last
      have hne : l ≠ r := by rintro rfl; exact lt_irrefl _ he
      refine ⟨_, _, op_head_right h wr heq he, ⟨(agrees_set_set h _ _ _ _).mono (by simp +contextual),
        by simp, by simp [hne.symm], by simp +contextual, by simp [hl, hr], ?_, fun x => ?_⟩⟩
      · rw [hf.comm] at hw
        refine AllWF.set (AllWF.set hwf ?_ ?_) ?_ ?_
        all_goals first | exact hw | exact wl.nonneg | exact wr.nonneg | (simp only; omega)
      · simp only [rhoAt_cons, rhoAt_nil, Store.obj_set_self, Store.obj_set_of_ne _ _ hne.symm, rho_def]
        split_ifs <;> first | (exfalso; omega) | simp [h00, hl0, hf.comm]

/-- **A merge in place**: `__op` returns, changes its operands only, and combines their
densities pointwise. -/
theorem op_spec (hf : Merge f) {h : Store Range} (hwf : AllWF h) {new r : ℕ} (hn : new < h.next)
    (hr : r < h.next) : ∃ h' xs, op f h new r = .ok (h', xs) ∧ OpSpec f h new r h' xs := by
  rcases le_or_gt (h.obj new).start (h.obj r).start with hle | hlt
  · obtain ⟨h', xs, hop, hspec, -⟩ := op_spec_of_le hf hwf hn hr hle
    exact ⟨h', xs, hop, hspec⟩
  · obtain ⟨h', xs, hop, hspec, hmem⟩ := op_spec_of_le hf hwf hr hn hlt.le
    refine ⟨h', xs, (op_of_lt h hlt).trans hop, ?_, hmem hlt, hspec.nodup, ?_, hspec.live, hspec.wf, ?_⟩
    · exact hspec.agrees.mono fun o => Or.symm
    · intro o ho
      rcases hspec.refs o ho with h1 | h1 | h1 <;> simp [h1]
    · intro x
      rw [hspec.dens, hf.comm]

/-! ### A range merged with one it lies within -/

/-- `q` covers `p`, or what `r` has before `p`, or what `r` has after `p`. -/
def Part (p r q : Range) : Prop :=
  (q.start = p.start ∧ q.stop = p.stop) ∨ (q.start = r.start ∧ q.stop = p.start - 1) ∨
    (q.start = p.stop + 1 ∧ q.stop = r.stop)

/-- The weight that the object of `p` carries after `p` was merged into a range `r` around it:
strictly inside `r` the object becomes what `r` has after `p`. -/
def kept (f : ℚ → ℚ → ℚ) (p r : Range) : ℚ :=
  if r.start < p.start ∧ p.stop < r.stop then r.weight else f p.weight r.weight

/-- Disjoint ranges are left alone. -/
theorem op_disjoint {h : Store Range} (hwf : AllWF h) {new r : ℕ} (hn : new < h.next) (hr : r < h.next)
    (hd : (h.obj new).Disjoint (h.obj r)) :
    op f h new r = .ok (h, [new, r]) ∨ op f h new r = .ok (h, [r, new]) := by
  have h1 := (hwf new hn).sane
  have h2 := (hwf r hr).sane
  rcases hd with hlt | hlt
  · exact .inl (op_before h (hwf new hn) hlt)
  · exact .inr ((op_of_lt h (by omega)).trans (op_before h (hwf r hr) hlt))

/-- A range merged with one around it: the results are parts of the outer range, apart from
each other. -/
theorem op_within (hf : Merge f) {h : Store Range} (hwf : AllWF h) {new r : ℕ} (hn : new < h.next)
    (hr : r < h.next) (hne : new ≠ r) (hin : (h.obj new).Within (h.obj r)) :
    ∃ h' xs, op f h new r = .ok (h', xs) ∧ OpSpec f h new r h' xs ∧
      (∀ o ∈ xs, Part (h.obj new) (h.obj r) (h'.obj o)) ∧
      xs.Pairwise (fun a b => (h'.obj a).Disjoint (h'.obj b)) ∧
      (h'.obj new).weight = kept f (h.obj new) (h.obj r) := by
  obtain ⟨h', xs, hop, hspec⟩ := op_spec hf hwf hn hr
  refine ⟨h', xs, hop, hspec, ?_⟩
  have wn := hwf new hn
  have wr := hwf r hr
  have hsn := wn.sane
  obtain ⟨hs, he⟩ := hin
  rcases hs.lt_or_eq with hs | hs <;> rcases he.lt_or_eq with he | he
  · -- strictly inside
    have hnn : h.next ≠ new := Nat.ne_of_gt hn
    have hnr : h.next ≠ r := Nat.ne_of_gt hr
    rw [op_of_lt h hs, op_three h hf wr wn hr hn hs (by omega) he.ne', rest_of_gt he,
      min_eq_right he.le] at hop
    obtain ⟨rfl, rfl⟩ := Prod.mk.inj (Except.ok.inj hop)
    simp only [List.mem_cons, List.not_mem_nil, or_false, forall_eq_or_imp, forall_eq,
      List.pairwise_cons, Store.obj_set_self, Store.obj_set_of_ne _ _ hne.symm,
      Store.obj_set_of_ne _ _ hnn, Store.obj_set_of_ne _ _ hnr, Store.obj_alloc_next, Part, Disjoint]
    refine ⟨by simp, by simp; omega, (if_pos ⟨hs, he⟩).symm⟩
  · -- at the end
    rw [op_of_lt h hs, op_tail h wn hs he.symm] at hop
    obtain ⟨rfl, rfl⟩ := Prod.mk.inj (Except.ok.inj hop)
    simp only [List.mem_cons, List.not_mem_nil, or_false, forall_eq_or_imp, forall_eq,
      List.pairwise_cons, Store.obj_set_self, Store.obj_set_of_ne _ _ hne, Part, Disjoint]
    refine ⟨by simp, by simp, ?_⟩
    rw [kept, if_neg (by omega), hf.comm]
  · -- at the start
    rw [op_head_left h wn hs.symm he] at hop
    obtain ⟨rfl, rfl⟩ := Prod.mk.inj (Except.ok.inj hop)
    simp only [List.mem_cons, List.not_mem_nil, or_false, forall_eq_or_imp, forall_eq,
      List.pairwise_cons, Store.obj_set_self, Store.obj_set_of_ne _ _ hne, Part, Disjoint]
    refine ⟨by simp, by simp, ?_⟩
    rw [kept, if_neg (by omega)]
  · -- the same integers
    rw [op_same h hs.symm he] at hop
    obtain ⟨rfl, rfl⟩ := Prod.mk.inj (Except.ok.inj hop)
    simp only [List.mem_cons, List.not_mem_nil, or_false, forall_eq, List.pairwise_cons,
      Store.obj_set_self, Part]
    refine ⟨by simp, by simp, ?_⟩
    rw [kept, if_neg (by omega)]

/-- A range merged with itself only combines its weight with itself. -/
theorem op_self (h : Store Range) (new : ℕ) :
    op f h new new = .ok (h.set new { h.obj new with
      weight := f (h.obj new).weight (h.obj new).weight }, [new]) := by
  rw [op_same h rfl rfl, Finset.union_self]

end Range

end SEDiff.Juxta
