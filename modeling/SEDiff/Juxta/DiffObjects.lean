import SEDiff.Juxta.Differences
import SEDiff.Juxta.Addition
import Mathlib.Data.List.Sort

/-!
# Recording the differences

`RangeSet.__histogram_intersection` of `rsv.py` on objects: it copies the ranges of both sets and then
cuts the copies in place, one overlap after the other.

## What is proved

* `InPlace.distance_refines` — it returns what it would on the ranges' values, the copies have
  those values, and no range of either set changes.
* `InPlace.distance_diffs_iff` — the differences are one-sided, at each integer, exactly when every
  overlap is made good; the areas are always those of the ranges.
-/

namespace SEDiff.Juxta

open Foundation

namespace RangeSet

namespace InPlace

/-- A list of differences: areas, with the ranges they were measured on. -/
abbrev RefDiff := List (ℚ × ℕ)

/-- `[r._calc_area(), r]`. -/
def entry (h : Store Range) (r : ℕ) : ℚ × ℕ := ((h.obj r).calc_area, r)

/-- `__create_diff`. -/
def create_diff : Store Range → List ℕ → Store Range × RefDiff
  | h, [] => (h, [])
  | h, r :: rs =>
    let (h, cr) := h.alloc (h.obj r)
    let d := entry h cr
    let (h, diff) := create_diff h rs
    (h, d :: diff)

/-- `rs1.weight -= mw`, and `rs1` is kept `if rs1.weight > 0`. -/
def lighten (h : Store Range) (rs1 : ℕ) (mw : ℚ) : Store Range × RefDiff :=
  let h := h.set rs1 { h.obj rs1 with weight := (h.obj rs1).weight - mw }
  (h, if 0 < (h.obj rs1).weight then [entry h rs1] else [])

/-- What `__diff_out` does with one range. -/
def diff_out1 (s e : ℤ) (w : ℚ) (h : Store Range) (rs1 : ℕ) : Store Range × RefDiff :=
  let R := h.obj rs1
  let ms := max R.start s
  let me := min R.stop e
  -- case 0. non-overlapped
  if ms > me ∨ R.weight ≤ 0 then (h, [entry h rs1])
  else
    let mw := min R.weight w
    -- case 1. completely overlapped
    if R.start = ms ∧ R.stop = me then lighten h rs1 mw
    -- case 2. partially overlapped, generating two new regions
    else if R.start < ms ∧ me < R.stop then
      let (h, rs0) := h.alloc R
      let (h, rs2) := h.alloc R
      let h := (h.set rs0 { R with stop := ms - 1 }).set rs2 { R with start := me + 1 }
      let new_diff := [entry h rs0, entry h rs2]
      let (h, rest) := lighten h rs1 mw
      (h, new_diff ++ rest)
    -- case 3. partially overlapped, generating one new region
    else
      let (h, rs0) := h.alloc R
      if R.start = ms then
        let h := h.set rs0 { R with start := me + 1 }
        let d := entry h rs0
        let (h, rest) := lighten (h.set rs1 { R with stop := me }) rs1 mw
        (h, d :: rest)
      else if R.stop = me then
        let h := h.set rs0 { R with stop := ms - 1 }
        let d := entry h rs0
        let (h, rest) := lighten (h.set rs1 { R with start := ms }) rs1 mw
        (h, d :: rest)
      else (h, [])

/-- `__diff_out`. -/
def diff_out (s e : ℤ) (w : ℚ) : Store Range → RefDiff → Store Range × RefDiff
  | h, [] => (h, [])
  | h, d :: diff =>
    let (h, new_diff) := diff_out1 s e w h d.2
    let (h, rest) := diff_out s e w h diff
    (h, new_diff ++ rest)

/-- What `__histogram_intersection` has computed so far. -/
structure Running where
  /-- The ranges. -/
  heap : Store Range
  /-- The area of the overlaps. -/
  overlap : ℚ
  /-- `self.ldiff`. -/
  ldiff : RefDiff
  /-- `self.rdiff`. -/
  rdiff : RefDiff

/-- One step of the inner loop. -/
def meet (s r : ℕ) (a : Running) : Running :=
  let (area, start, stop, weight) := (a.heap.obj s).overlapped_area (a.heap.obj r)
  let a := { a with overlap := a.overlap + area }
  if weight ≤ 0 then a
  else
    let (h, ldiff) := diff_out start stop weight a.heap a.ldiff
    let (h, rdiff) := diff_out start stop weight h a.rdiff
    { a with heap := h, ldiff := ldiff, rdiff := rdiff }

/-- `diff.sort(reverse=True)`; the order of ranges of the same area is not specified. -/
def sort_diff (diff : RefDiff) : RefDiff := diff.mergeSort fun d e => e.1 ≤ d.1

/-- `distance`: the distance, and the new `ldiff` and `rdiff` of the receiver. -/
def distance (h : Store Range) (rs rhs : List ℕ) : Except PyErr (Store Range × ℚ × RefDiff × RefDiff) := do
  let (h, ldiff) := create_diff h rs
  let (h, rdiff) := create_diff h rhs
  let total := total_area h rs + total_area h rhs
  let a := rs.foldl (fun a s => rhs.foldl (fun a r => meet s r a) a) ⟨h, 0, ldiff, rdiff⟩
  let dist := total - a.overlap
  pyAssert (0 ≤ dist)
  return (a.heap, dist, sort_diff a.ldiff, sort_diff a.rdiff)

/-! ### The copies -/

/-- The areas and the values of a list of differences. -/
def vals (h : Store Range) (diff : RefDiff) : Diff := diff.map fun d => (d.1, h.obj d.2)

/-- The objects of a list of differences. -/
def refs (diff : RefDiff) : List ℕ := diff.map Prod.snd

/-- Cutting the object `o` gives `new_diff`, whose values are `qs`. -/
structure Replaced (h : Store Range) (o : ℕ) (h' : Store Range) (new_diff : RefDiff) (qs : List Range) :
    Prop where
  /-- No other object changes. -/
  agrees : h.Agrees h' (· = o)
  /-- What is kept is the object itself or a new one. -/
  from_ : ∀ p ∈ refs new_diff, (p = o ∨ h.next ≤ p) ∧ p < h'.next
  /-- No object is kept twice. -/
  nodup : (refs new_diff).Nodup
  /-- The values, with their areas. -/
  vals_eq : vals h' new_diff = RangeSet.create_diff qs

theorem refs_append (d e : RefDiff) : refs (d ++ e) = refs d ++ refs e := List.map_append

theorem vals_append (h : Store Range) (d e : RefDiff) : vals h (d ++ e) = vals h d ++ vals h e := List.map_append

/-- The values are read off the objects listed. -/
theorem vals_congr {h h' : Store Range} {diff : RefDiff} (ho : ∀ p ∈ refs diff, h'.obj p = h.obj p) :
    vals h' diff = vals h diff :=
  List.map_congr_left fun d hd => by rw [ho d.2 (List.mem_map_of_mem hd)]

theorem lighten_replaced {h : Store Range} {o : ℕ} (ho : o < h.next) (mw : ℚ) :
    Replaced h o (lighten h o mw).1 (lighten h o mw).2
      (if 0 < (h.obj o).weight - mw then [{ h.obj o with weight := (h.obj o).weight - mw }] else []) := by
  have hag : h.Agrees (lighten h o mw).1 (· = o) := ⟨le_rfl, fun p _ hp => Store.obj_set_of_ne h _ hp⟩
  unfold lighten at hag ⊢
  simp only [Store.obj_set_self] at hag ⊢
  split_ifs
  · refine ⟨hag, ?_, List.nodup_singleton _, ?_⟩
    · intro p hp
      obtain rfl := List.mem_singleton.mp hp
      exact ⟨.inl rfl, ho⟩
    · simp [vals, entry, RangeSet.create_diff]
  · exact ⟨hag, by simp [refs], List.nodup_nil, rfl⟩

/-- What is cut off first, as new objects, and then the object itself. -/
theorem Replaced.front {h h₁ h' : Store Range} {o : ℕ} (front : RefDiff) (fs : List Range) (ho : o < h.next)
    (hag : h.Agrees h₁ (· = o)) {new_diff : RefDiff} {qs : List Range} (hnew : ∀ p ∈ refs front, h.next ≤ p ∧ p < h₁.next)
    (hnd : (refs front).Nodup) (hvals : vals h₁ front = RangeSet.create_diff fs)
    (hr : Replaced h₁ o h' new_diff qs) : Replaced h o h' (front ++ new_diff) (fs ++ qs) := by
  have hne : ∀ p ∈ refs front, p ≠ o := fun p hp => by
    have := (hnew p hp).1
    omega
  refine ⟨hag.trans hr.agrees fun _ _ e => e, fun p hp => ?_, ?_, ?_⟩
  · rw [refs_append] at hp
    rcases List.mem_append.mp hp with hp | hp
    · obtain ⟨h1, h2⟩ := hnew p hp
      exact ⟨.inr h1, h2.trans_le hr.agrees.next_le⟩
    · obtain ⟨h1, h2⟩ := hr.from_ p hp
      exact ⟨h1.imp_right fun h3 => hag.next_le.trans h3, h2⟩
  · rw [refs_append]
    refine List.nodup_append.mpr ⟨hnd, hr.nodup, fun p hp q hq => ?_⟩
    rintro rfl
    have h1 := (hnew p hp).2
    rcases (hr.from_ p hq).1 with h2 | h2
    · exact hne p hp h2
    · omega
  · have hkeep : vals h' front = vals h₁ front :=
      vals_congr fun p hp => hr.agrees.obj_eq p (hnew p hp).2 (hne p hp)
    rw [vals_append, hkeep, hvals, hr.vals_eq]
    exact List.map_append.symm

/-- Case 3: a new object holds what sticks out, and the object itself the overlap. -/
theorem lighten_replaced_one {h : Store Range} {o : ℕ} (ho : o < h.next) (mw : ℚ) (f c : Range) :
    let h₁ := (h.alloc (h.obj o)).1.set h.next f
    let l := lighten (h₁.set o c) o mw
    Replaced h o l.1 (entry h₁ h.next :: l.2)
      (f :: if 0 < c.weight - mw then [{ c with weight := c.weight - mw }] else []) := by
  intro h₁ l
  have hne : h.next ≠ o := ho.ne'
  have hnew : (h₁.set o c).obj h.next = f := by
    rw [Store.obj_set_of_ne _ _ hne]
    exact Store.obj_set_self _ _ _
  have hl := lighten_replaced (h := h₁.set o c) (Nat.lt_succ_of_lt ho) mw
  rw [Store.obj_set_self] at hl
  refine Replaced.front [entry h₁ h.next] [f] ho ⟨Nat.le_succ _, fun p hp hpo => ?_⟩ ?_ (List.nodup_singleton _) ?_ hl
  · rw [Store.obj_set_of_ne _ _ hpo, Store.obj_set_of_ne _ _ hp.ne, Store.obj_alloc_of_lt _ _ hp]
  · intro p hp
    obtain rfl := List.mem_singleton.mp hp
    exact ⟨le_rfl, Nat.lt_succ_self _⟩
  · simp only [vals, entry, List.map_cons, List.map_nil, hnew, RangeSet.create_diff]
    rw [Store.obj_set_self]

/-- Case 2: two new objects hold what sticks out. -/
theorem lighten_replaced_two {h : Store Range} {o : ℕ} (ho : o < h.next) (mw : ℚ) (f g : Range) :
    let h₁ := (((h.alloc (h.obj o)).1.alloc (h.obj o)).1.set h.next f).set (h.next + 1) g
    let l := lighten h₁ o mw
    Replaced h o l.1 (entry h₁ h.next :: entry h₁ (h.next + 1) :: l.2)
      (f :: g :: if 0 < (h.obj o).weight - mw then [{ h.obj o with weight := (h.obj o).weight - mw }] else []) := by
  intro h₁ l
  have hold : ∀ p, p < h.next → h₁.obj p = h.obj p := by
    intro p hp
    rw [Store.obj_set_of_ne _ _ (by omega), Store.obj_set_of_ne _ _ hp.ne,
      Store.obj_alloc_of_lt _ _ (Nat.lt_succ_of_lt hp), Store.obj_alloc_of_lt _ _ hp]
  have hf : h₁.obj h.next = f := by
    rw [Store.obj_set_of_ne _ _ (Nat.lt_succ_self _).ne]
    exact Store.obj_set_self _ _ _
  have hg : h₁.obj (h.next + 1) = g := Store.obj_set_self _ _ _
  have hn₁ : h₁.next = h.next + 2 := rfl
  have hl := lighten_replaced (h := h₁) (o := o) (by omega) mw
  rw [hold o ho] at hl
  refine Replaced.front [entry h₁ h.next, entry h₁ (h.next + 1)] [f, g] ho
    ⟨by omega, fun p hp _ => hold p hp⟩ ?_ ?_ ?_ hl
  · intro p hp
    simp only [refs, entry, List.map_cons, List.map_nil, List.mem_cons, List.not_mem_nil, or_false] at hp
    omega
  · simp [refs, entry]
  · simp only [vals, entry, List.map_cons, List.map_nil, hf, hg, RangeSet.create_diff]

/-- One range is cut in place as its value is. -/
theorem diff_out1_replaced {h : Store Range} {o : ℕ} (ho : o < h.next) (s e : ℤ) (w : ℚ) :
    Replaced h o (diff_out1 s e w h o).1 (diff_out1 s e w h o).2 (RangeSet.diff_out1 s e w (h.obj o)) := by
  unfold diff_out1 RangeSet.diff_out1
  simp only
  by_cases h0 : max (h.obj o).start s > min (h.obj o).stop e ∨ (h.obj o).weight ≤ 0
  · rw [if_pos h0, if_pos h0]
    refine ⟨.refl _ _, fun p hp => ?_, List.nodup_singleton _, rfl⟩
    obtain rfl := List.mem_singleton.mp hp
    exact ⟨.inl rfl, ho⟩
  rw [if_neg h0, if_neg h0]
  by_cases h1 : (h.obj o).start = max (h.obj o).start s ∧ (h.obj o).stop = min (h.obj o).stop e
  · rw [if_pos h1, if_pos h1]
    exact lighten_replaced ho _
  rw [if_neg h1, if_neg h1]
  by_cases h2 : (h.obj o).start < max (h.obj o).start s ∧ min (h.obj o).stop e < (h.obj o).stop
  · rw [if_pos h2, if_pos h2]
    exact lighten_replaced_two ho _ _ _
  rw [if_neg h2, if_neg h2]
  by_cases h3 : (h.obj o).start = max (h.obj o).start s
  · rw [if_pos h3, if_pos h3]
    exact lighten_replaced_one ho _ _ { h.obj o with stop := min (h.obj o).stop e }
  · -- the range does not start with the overlap, so it ends with it
    have h4 : (h.obj o).stop = min (h.obj o).stop e := by omega
    rw [if_neg h3, if_neg h3, if_pos h4, if_pos h4]
    exact lighten_replaced_one ho _ _ { h.obj o with start := max (h.obj o).start s }

/-- A list of differences on objects of its own, from `base` on, with the values `ps`. -/
structure Owns (base : ℕ) (h : Store Range) (diff : RefDiff) (ps : List Range) : Prop where
  /-- The objects are allocated after `base`. -/
  fresh : ∀ p ∈ refs diff, base ≤ p ∧ p < h.next
  /-- No object is listed twice. -/
  nodup : (refs diff).Nodup
  /-- The values, with their areas. -/
  vals_eq : vals h diff = RangeSet.create_diff ps

theorem create_diff_owns {h : Store Range} {rs : List ℕ} (hl : ∀ r ∈ rs, r < h.next) :
    h.Agrees (create_diff h rs).1 (fun _ => False) ∧
      Owns h.next (create_diff h rs).1 (create_diff h rs).2 (rs.map h.obj) := by
  induction rs generalizing h with
  | nil => exact ⟨.refl _ _, by simp [create_diff, refs], List.nodup_nil, rfl⟩
  | cons r rs ih =>
    have hrs := fun q hq => hl q (List.mem_cons_of_mem r hq)
    set h₁ := (h.alloc (h.obj r)).1 with hh₁
    obtain ⟨hag, hown⟩ := ih (h := h₁) fun q hq => Nat.lt_succ_of_lt (hrs q hq)
    have hrun : create_diff h (r :: rs) = ((create_diff h₁ rs).1, entry h₁ h.next :: (create_diff h₁ rs).2) := rfl
    have hn₁ : h₁.next = h.next + 1 := rfl
    rw [hrun]
    refine ⟨⟨(Nat.le_succ _).trans hag.next_le, fun o ho _ => ?_⟩, ?_, ?_, ?_⟩
    · rw [hag.obj_eq o (Nat.lt_succ_of_lt ho) id, hh₁, Store.obj_alloc_of_lt _ _ ho]
    · refine List.forall_mem_cons.mpr ⟨⟨le_rfl, hag.next_le⟩, fun p hp => ?_⟩
      obtain ⟨h1, h2⟩ := hown.fresh p hp
      exact ⟨by omega, h2⟩
    · refine List.nodup_cons.mpr ⟨fun hm => ?_, hown.nodup⟩
      have := (hown.fresh _ hm).1
      simp only [entry] at this
      omega
    · have hnew : (create_diff h₁ rs).1.obj h.next = h₁.obj h.next := hag.obj_eq h.next (Nat.lt_succ_self _) id
      have hobj : h₁.obj h.next = h.obj r := Store.obj_alloc_next _ _
      have hrest : rs.map h₁.obj = rs.map h.obj :=
        List.map_congr_left fun q hq => Store.obj_alloc_of_lt _ _ (hrs q hq)
      show ((h₁.obj h.next).calc_area, (create_diff h₁ rs).1.obj h.next) :: vals _ (create_diff h₁ rs).2 = _
      rw [hown.vals_eq, hnew, hobj, hrest]
      rfl

/-- A list of differences is cut in place as its values are, and nothing but its objects changes. -/
theorem diff_out_owns (s e : ℤ) (w : ℚ) {base : ℕ} {h : Store Range} {diff : RefDiff} {ps : List Range}
    (hb : base ≤ h.next) (ho : Owns base h diff ps) :
    h.Agrees (diff_out s e w h diff).1 (· ∈ refs diff) ∧
      Owns base (diff_out s e w h diff).1 (diff_out s e w h diff).2 (ps.flatMap (RangeSet.diff_out1 s e w)) ∧
      ∀ p ∈ refs (diff_out s e w h diff).2, p ∈ refs diff ∨ h.next ≤ p := by
  induction diff generalizing h ps with
  | nil =>
    cases ps with
    | nil => exact ⟨.refl _ _, ho, by simp [diff_out, refs]⟩
    | cons p ps => cases ho.vals_eq
  | cons d diff ih =>
    cases ps with
    | nil => cases ho.vals_eq
    | cons p₀ ps =>
      obtain ⟨hval, hvals⟩ := List.cons.inj ho.vals_eq
      have hobj : h.obj d.2 = p₀ := congrArg Prod.snd hval
      obtain ⟨hbd, hd⟩ := ho.fresh d.2 List.mem_cons_self
      obtain ⟨hdm, hnd⟩ := List.nodup_cons.mp ho.nodup
      have hlive : ∀ p ∈ refs diff, base ≤ p ∧ p < h.next := fun p hp => ho.fresh p (List.mem_cons_of_mem _ hp)
      have hr := diff_out1_replaced hd s e w
      rw [hobj] at hr
      set h₁ := (diff_out1 s e w h d.2).1
      set xs := (diff_out1 s e w h d.2).2
      have hn₁ := hr.agrees.next_le
      have hkeep : vals h₁ diff = vals h diff := vals_congr fun p hp =>
        hr.agrees.obj_eq p (hlive p hp).2 fun hpd => hdm (hpd ▸ hp)
      obtain ⟨hag, hown, hfrom⟩ := ih (hb.trans hn₁)
        ⟨fun p hp => ⟨(hlive p hp).1, (hlive p hp).2.trans_le hn₁⟩, hnd, hkeep.trans hvals⟩
      set h' := (diff_out s e w h₁ diff).1
      set ys := (diff_out s e w h₁ diff).2
      have hrun : diff_out s e w h (d :: diff) = (h', xs ++ ys) := rfl
      have hapart : ∀ p ∈ refs xs, p ∉ refs diff := fun p hp hm => by
        rcases (hr.from_ p hp).1 with h1 | h1
        · exact hdm (h1 ▸ hm)
        · exact absurd (hlive p hm).2 (not_lt.mpr h1)
      rw [hrun]
      have hag₁ : h.Agrees h₁ (· ∈ refs (d :: diff)) := hr.agrees.mono fun p hp => hp ▸ List.mem_cons_self
      refine ⟨hag₁.trans hag fun p _ hp => List.mem_cons_of_mem _ hp, ⟨?_, ?_, ?_⟩, ?_⟩
      · intro p hp
        rcases List.mem_append.mp (refs_append xs ys ▸ hp) with hp | hp
        · obtain ⟨h1, h2⟩ := hr.from_ p hp
          refine ⟨?_, h2.trans_le hag.next_le⟩
          rcases h1 with h1 | h1 <;> omega
        · exact hown.fresh p hp
      · rw [refs_append]
        refine List.nodup_append.mpr ⟨hr.nodup, hown.nodup, fun p hp q hq => ?_⟩
        rintro rfl
        rcases hfrom p hq with h1 | h1
        · exact hapart p hp h1
        · exact absurd (hr.from_ p hp).2 (not_lt.mpr h1)
      · have hxs : vals h' xs = vals h₁ xs :=
          vals_congr fun p hp => hag.obj_eq p (hr.from_ p hp).2 (hapart p hp)
        rw [vals_append, hxs, hr.vals_eq, hown.vals_eq, List.flatMap_cons]
        exact List.map_append.symm
      · intro p hp
        rcases List.mem_append.mp (refs_append xs ys ▸ hp) with hp | hp
        · rcases (hr.from_ p hp).1 with h1 | h1
          · exact .inl (h1 ▸ List.mem_cons_self)
          · exact .inr h1
        · rcases hfrom p hp with h1 | h1
          · exact .inl (List.mem_cons_of_mem _ h1)
          · exact .inr (hn₁.trans h1)

/-- The state of the loops as the values have it: `h₀` is the store before the copies were made. -/
structure Tracks (h₀ : Store Range) (a : Running) (o : ℚ) (ps qs : List Range) : Prop where
  /-- Nothing old changes. -/
  agrees : h₀.Agrees a.heap fun _ => False
  /-- The area so far. -/
  overlap : a.overlap = o
  /-- The copies of the receiver's ranges. -/
  left : Owns h₀.next a.heap a.ldiff ps
  /-- The copies of the other set's ranges. -/
  right : Owns h₀.next a.heap a.rdiff qs
  /-- No copy is in both lists. -/
  apart : ∀ p ∈ refs a.ldiff, p ∉ refs a.rdiff

/-- Lists of differences on other objects stay as they are. -/
theorem Owns.congr {base : ℕ} {h h' : Store Range} {diff : RefDiff} {ps : List Range} {cs : ℕ → Prop}
    (ho : Owns base h diff ps) (hag : h.Agrees h' cs) (hc : ∀ p ∈ refs diff, ¬ cs p) : Owns base h' diff ps :=
  ⟨fun p hp => ⟨(ho.fresh p hp).1, (ho.fresh p hp).2.trans_le hag.next_le⟩, ho.nodup,
    (vals_congr fun p hp => hag.obj_eq p (ho.fresh p hp).2 (hc p hp)).trans ho.vals_eq⟩

/-- Old objects are not cut. -/
theorem agrees_of_owns {h₀ h h' : Store Range} {diff : RefDiff} {ps : List Range}
    (h0 : h₀.Agrees h fun _ => False) (ho : Owns h₀.next h diff ps) (hag : h.Agrees h' (· ∈ refs diff)) :
    h₀.Agrees h' fun _ => False :=
  ⟨h0.next_le.trans hag.next_le, fun o hon _ => by
    rw [hag.obj_eq o (hon.trans_le h0.next_le) fun hm => absurd (ho.fresh o hm).1 (not_le.mpr hon),
      h0.obj_eq o hon id]⟩

/-- One step of the loops. -/
theorem Tracks.step {h₀ : Store Range} {a : Running} {o : ℚ} {ps qs : List Range} (ht : Tracks h₀ a o ps qs)
    {s r : ℕ} (hs : s < h₀.next) (hr : r < h₀.next) :
    Tracks h₀ (meet s r a) (o + ((h₀.obj s).overlapped_area (h₀.obj r)).1)
      (pieces ps (overlapsOf (h₀.obj s) [h₀.obj r])) (pieces qs (overlapsOf (h₀.obj s) [h₀.obj r])) := by
  unfold InPlace.meet overlapsOf
  rw [ht.agrees.obj_eq s hs id, ht.agrees.obj_eq r hr id]
  simp only [ht.overlap]
  by_cases hw : ((h₀.obj s).overlapped_area (h₀.obj r)).2.2.2 ≤ 0
  · have hdec : ¬ decide (0 < (RangeSet.overlap (h₀.obj s) (h₀.obj r)).weight) = true :=
      fun h => absurd (of_decide_eq_true h) (not_lt.mpr hw)
    rw [if_pos hw, List.map_singleton, List.filter_cons, if_neg hdec]
    exact ⟨ht.agrees, rfl, ht.left, ht.right, ht.apart⟩
  · have hdec : decide (0 < (RangeSet.overlap (h₀.obj s) (h₀.obj r)).weight) = true :=
      decide_eq_true (not_le.mp hw)
    rw [if_neg hw, List.map_singleton, List.filter_cons, if_pos hdec]
    set g := RangeSet.overlap (h₀.obj s) (h₀.obj r) with hg
    obtain ⟨hag₁, hown₁, hfrom₁⟩ := diff_out_owns g.start g.stop g.weight ht.agrees.next_le ht.left
    set h₁ := (diff_out g.start g.stop g.weight a.heap a.ldiff).1 with hh₁
    have h0₁ : h₀.Agrees h₁ fun _ => False := agrees_of_owns ht.agrees ht.left hag₁
    have hright₁ : Owns h₀.next h₁ a.rdiff qs := ht.right.congr hag₁ fun p hp hm => ht.apart p hm hp
    obtain ⟨hag₂, hown₂, hfrom₂⟩ := diff_out_owns g.start g.stop g.weight h0₁.next_le hright₁
    set ldiff := (diff_out g.start g.stop g.weight a.heap a.ldiff).2 with hld
    have hap : ∀ p ∈ refs ldiff, p ∉ refs a.rdiff := fun p hp hm => by
      rcases hfrom₁ p hp with h1 | h1
      · exact ht.apart p h1 hm
      · exact absurd (ht.right.fresh p hm).2 (not_lt.mpr h1)
    refine ⟨agrees_of_owns h0₁ hright₁ hag₂, rfl, hown₁.congr hag₂ hap, hown₂, fun p hp hm => ?_⟩
    rcases hfrom₂ p hm with h1 | h1
    · exact hap p hp h1
    · exact absurd (hown₁.fresh p hp).2 (not_lt.mpr h1)

theorem Tracks.row {h₀ : Store Range} {a : Running} {o : ℚ} {ps qs : List Range} (ht : Tracks h₀ a o ps qs)
    {s : ℕ} (hs : s < h₀.next) {rhs : List ℕ} (hr : ∀ r ∈ rhs, r < h₀.next) :
    Tracks h₀ (rhs.foldl (fun a r => meet s r a) a)
      (o + ((rhs.map h₀.obj).map fun r => ((h₀.obj s).overlapped_area r).1).sum)
      (pieces ps (overlapsOf (h₀.obj s) (rhs.map h₀.obj))) (pieces qs (overlapsOf (h₀.obj s) (rhs.map h₀.obj))) := by
  induction rhs generalizing a o ps qs with
  | nil => simpa [overlapsOf, pieces] using ht
  | cons r rhs ih =>
    have hstep := ih (ht.step hs (hr r List.mem_cons_self)) fun q hq => hr q (List.mem_cons_of_mem _ hq)
    rw [← pieces_append, ← pieces_append, ← overlapsOf_cons, add_assoc] at hstep
    exact hstep

theorem Tracks.rows {h₀ : Store Range} {a : Running} {o : ℚ} {ps qs : List Range} (ht : Tracks h₀ a o ps qs)
    {rs rhs : List ℕ} (hl : ∀ s ∈ rs, s < h₀.next) (hr : ∀ r ∈ rhs, r < h₀.next) :
    Tracks h₀ (rs.foldl (fun a s => rhs.foldl (fun a r => meet s r a) a) a)
      (o + ((rs.map h₀.obj).map fun s => ((rhs.map h₀.obj).map fun r => (s.overlapped_area r).1).sum).sum)
      (pieces ps (overlaps (rs.map h₀.obj) (rhs.map h₀.obj))) (pieces qs (overlaps (rs.map h₀.obj) (rhs.map h₀.obj))) := by
  induction rs generalizing a o ps qs with
  | nil => simpa [overlaps, pieces] using ht
  | cons s rs ih =>
    have hstep := ih (ht.row (hl s List.mem_cons_self) hr) fun q hq => hl q (List.mem_cons_of_mem _ hq)
    rw [← pieces_append, ← pieces_append, add_assoc] at hstep
    exact hstep

theorem vals_sort_diff (h : Store Range) (diff : RefDiff) : vals h (sort_diff diff) = RangeSet.sort_diff (vals h diff) :=
  List.map_mergeSort fun _ _ _ _ => rfl

/-- **The loops** follow the values. -/
theorem distance_tracks {h : Store Range} {rs rhs : List ℕ} (hl : ∀ s ∈ rs, s < h.next) (hr : ∀ r ∈ rhs, r < h.next) :
    ∃ a : Running, Tracks h a (overlap_rows (rhs.map h.obj) (rs.map h.obj) (0, [], [])).1
        (pieces (rs.map h.obj) (overlaps (rs.map h.obj) (rhs.map h.obj)))
        (pieces (rhs.map h.obj) (overlaps (rs.map h.obj) (rhs.map h.obj))) ∧
      distance h rs rhs = (do
        let dist := ((rs.map h.obj).map Range.calc_area).sum + ((rhs.map h.obj).map Range.calc_area).sum - a.overlap
        pyAssert (0 ≤ dist)
        return (a.heap, dist, sort_diff a.ldiff, sort_diff a.rdiff)) := by
  set L := rs.map h.obj with hL
  set R := rhs.map h.obj with hR
  obtain ⟨hagl, hownl⟩ := create_diff_owns hl
  set h₁ := (create_diff h rs).1 with hh₁
  have hr₁ : ∀ r ∈ rhs, r < h₁.next := fun r hm => (hr r hm).trans_le hagl.next_le
  obtain ⟨hagr, hownr⟩ := create_diff_owns hr₁
  set h₂ := (create_diff h₁ rhs).1 with hh₂
  have hR₁ : rhs.map h₁.obj = R := List.map_congr_left fun r hm => hagl.obj_eq r (hr r hm) id
  rw [hR₁] at hownr
  have hag : h.Agrees h₂ fun _ => False := hagl.trans hagr fun _ _ e => e
  have htracks : Tracks h ⟨h₂, 0, (create_diff h rs).2, (create_diff h₁ rhs).2⟩ 0 L R := by
    refine ⟨hag, rfl, hownl.congr hagr fun _ _ e => e, ⟨fun p hp => ?_, hownr.nodup, hownr.vals_eq⟩, fun p hp hm => ?_⟩
    · obtain ⟨h1, h2⟩ := hownr.fresh p hp
      exact ⟨hagl.next_le.trans h1, h2⟩
    · exact absurd (hownl.fresh p hp).2 (not_lt.mpr (hownr.fresh p hm).1)
  have hrun := htracks.rows hl hr
  have htotal : ∀ os : List ℕ, (∀ o ∈ os, o < h.next) →
      total_area h₂ os = ((os.map h.obj).map Range.calc_area).sum := by
    intro os hos
    rw [total_area, List.map_map]
    congr 1
    exact List.map_congr_left fun o ho => by rw [hag.obj_eq o (hos o ho) id]; rfl
  rw [overlap_rows_fst, ← htotal rs hl, ← htotal rhs hr]
  exact ⟨_, hrun, rfl⟩

/-- **On objects** the distance and the differences are those of the values, and no range of either
set changes. -/
theorem distance_refines {h : Store Range} {rs rhs : List ℕ} (hl : ∀ s ∈ rs, s < h.next)
    (hr : ∀ r ∈ rhs, r < h.next) :
    ((distance h rs rhs).map fun y => (y.2.1, vals y.1 y.2.2.1, vals y.1 y.2.2.2)) =
        RangeSet.distance (rs.map h.obj) (rhs.map h.obj) ∧
      ∀ y, distance h rs rhs = .ok y → h.Agrees y.1 fun _ => False := by
  obtain ⟨a, hrun, hdist⟩ := distance_tracks hl hr
  set L := rs.map h.obj with hL
  set R := rhs.map h.obj with hR
  have hover : (overlap_rows R L (0, RangeSet.create_diff L, RangeSet.create_diff R)).1 = a.overlap := by
    rw [hrun.overlap, overlap_rows_fst, overlap_rows_fst]
  have hdiffs := overlap_rows_diffs R L 0 L R
  rw [hdist]
  unfold RangeSet.distance
  simp only [hover, hdiffs]
  by_cases hnn : 0 ≤ (L.map Range.calc_area).sum + (R.map Range.calc_area).sum - a.overlap
  · rw [pyAssert_of_true hnn]
    refine ⟨?_, fun y hy => ?_⟩
    · have hvl : vals a.heap (sort_diff a.ldiff) = _ := (vals_sort_diff _ _).trans (congrArg _ hrun.left.vals_eq)
      have hvr : vals a.heap (sort_diff a.rdiff) = _ := (vals_sort_diff _ _).trans (congrArg _ hrun.right.vals_eq)
      rw [← hvl, ← hvr]
      rfl
    · obtain rfl := Except.ok.inj hy
      exact hrun.agrees
  · rw [pyAssert, if_neg hnn]
    exact ⟨rfl, fun y hy => by cases hy⟩

/-- The other set's differences are copies, with the values that the overlaps leave of it. -/
theorem distance_rdiff {h : Store Range} {rs rhs : List ℕ} (hl : ∀ s ∈ rs, s < h.next) (hr : ∀ r ∈ rhs, r < h.next)
    {y : Store Range × ℚ × RefDiff × RefDiff} (hy : distance h rs rhs = .ok y) :
    ∀ d ∈ y.2.2.2, d.2 < y.1.next ∧ y.1.obj d.2 ∈ pieces (rhs.map h.obj) (overlaps (rs.map h.obj) (rhs.map h.obj)) := by
  obtain ⟨a, hrun, hdist⟩ := distance_tracks hl hr
  rw [hdist] at hy
  obtain ⟨_, -, hy⟩ := bind_eq_ok.mp hy
  obtain rfl := Except.ok.inj hy
  intro d hd
  have hmem : d ∈ a.rdiff := (List.mergeSort_perm _ _).mem_iff.mp hd
  refine ⟨(hrun.right.fresh d.2 (List.mem_map_of_mem hmem)).2, ?_⟩
  have hval : (d.1, a.heap.obj d.2) ∈ vals a.heap a.rdiff := List.mem_map_of_mem hmem
  rw [hrun.right.vals_eq] at hval
  obtain ⟨p, hp, heq⟩ := List.mem_map.mp hval
  exact (Prod.mk.inj heq).2 ▸ hp

/-! ### What the differences say -/

theorem rhoAt_eq_rhoOf (h : Store Range) (os : List ℕ) (x : ℤ) : Range.rhoAt h os x = rhoOf (os.map h.obj) x := by
  rw [rhoOf, listSum, List.map_map, List.map_map]
  rfl

/-- Differences with the values `ps`: their density, and each area that of its range. -/
theorem of_vals {h : Store Range} {diff : RefDiff} {ps : List Range}
    (hv : vals h diff = RangeSet.sort_diff (RangeSet.create_diff ps)) :
    (∀ x, Range.rhoAt h (refs diff) x = rhoOf ps x) ∧ ∀ d ∈ diff, d.1 = (h.obj d.2).calc_area := by
  have hperm : (vals h diff).Perm (RangeSet.create_diff ps) := hv ▸ List.mergeSort_perm _ _
  constructor
  · intro x
    have hobj : (refs diff).map h.obj = (vals h diff).map Prod.snd := by
      rw [refs, vals, List.map_map, List.map_map]
      rfl
    have hps : (RangeSet.create_diff ps).map Prod.snd = ps := by
      rw [RangeSet.create_diff, List.map_map]
      exact List.map_id _
    rw [rhoAt_eq_rhoOf, hobj, rhoOf_perm (hperm.map Prod.snd), hps]
  · intro d hd
    have hm : (d.1, h.obj d.2) ∈ RangeSet.create_diff ps :=
      hperm.mem_iff.mp (List.mem_map.mpr ⟨d, hd, rfl⟩)
    obtain ⟨p, -, hp⟩ := List.mem_map.mp hm
    obtain ⟨h1, h2⟩ := Prod.mk.inj hp
    rw [← h1, ← h2]

/-- What is above the smaller of two numbers is above the other. -/
theorem max_sub_min (a b : ℚ) : max (a - min a b) 0 = max (a - b) 0 := by
  rcases le_total a b with hab | hab
  · rw [min_eq_left hab, sub_self, max_self, max_eq_right (sub_nonpos.mpr hab)]
  · rw [min_eq_right hab]

/-- **The differences** that `distance` records have as density what each set has more than the other
exactly when every overlap is made good, in both sets. Each recorded area is that of its range, and
both sets stay as they are. -/
theorem distance_diffs_iff {h : Store Range} {rs rhs : List ℕ} (hl : ∀ s ∈ rs, s < h.next)
    (hr : ∀ r ∈ rhs, r < h.next) (hlt : Tidy (rs.map h.obj)) (hrt : Tidy (rhs.map h.obj)) :
    ∃ h' dist ldiff rdiff, distance h rs rhs = .ok (h', dist, ldiff, rdiff) ∧
      (∀ o < h.next, h'.obj o = h.obj o) ∧ (∀ d ∈ ldiff ++ rdiff, d.1 = (h'.obj d.2).calc_area) ∧
      (((∀ x, Range.rhoAt h' (refs ldiff) x = max (Range.rhoAt h rs x - Range.rhoAt h rhs x) 0) ∧
          ∀ x, Range.rhoAt h' (refs rdiff) x = max (Range.rhoAt h rhs x - Range.rhoAt h rs x) 0) ↔
        MadeGood (rs.map h.obj) [] (overlaps (rs.map h.obj) (rhs.map h.obj)) ∧
          MadeGood (rhs.map h.obj) [] (overlaps (rs.map h.obj) (rhs.map h.obj))) := by
  obtain ⟨hval, hag⟩ := distance_refines hl hr
  obtain ⟨ld, rd, hdist⟩ := distance_spec hlt.wf hrt.wf hlt.disjoint hrt.disjoint
  obtain ⟨hld, hrd⟩ := distance_diffs hdist
  rw [hdist] at hval
  cases hrun : distance h rs rhs with
  | error e =>
    rw [hrun] at hval
    cases hval
  | ok y =>
    obtain ⟨h', dist, ldiff, rdiff⟩ := y
    rw [hrun] at hval
    have hvals := Except.ok.inj hval
    have hvl : vals h' ldiff = ld := congrArg (fun z => z.2.1) hvals
    have hvr : vals h' rdiff = rd := congrArg (fun z => z.2.2) hvals
    obtain ⟨hdl, hal⟩ := of_vals (hvl.trans hld)
    obtain ⟨hdr, har⟩ := of_vals (hvr.trans hrd)
    refine ⟨h', dist, ldiff, rdiff, rfl, fun o ho => (hag _ hrun).obj_eq o ho id, fun d hd => ?_, ?_⟩
    · rcases List.mem_append.mp hd with hd | hd
      · exact hal d hd
      · exact har d hd
    · have hgs := @overlaps_overlap (rs.map h.obj) (rhs.map h.obj)
      have hgd := overlaps_disjoint hlt.disjoint hrt.disjoint
      rw [← pieces_exact_iff hlt hgs hgd, ← pieces_exact_iff hrt hgs hgd]
      refine and_congr (forall_congr' fun x => ?_) (forall_congr' fun x => ?_)
      · rw [hdl, rhoAt_eq_rhoOf, rhoAt_eq_rhoOf, rhoOf_overlaps hlt hrt, max_sub_min]
      · rw [hdr, rhoAt_eq_rhoOf, rhoAt_eq_rhoOf, rhoOf_overlaps hlt hrt, min_comm, max_sub_min]

/-- Two ranges that overlap at their ends. -/
theorem distance_diffs_iff_ends : ∃ h' dist ldiff rdiff,
    distance (Store.ofList ⟨0, 0, 0, ∅⟩ [⟨0, 5, 2, ∅⟩, ⟨4, 9, 1, ∅⟩]) [0] [1] = .ok (h', dist, ldiff, rdiff) ∧
      (∀ o < 2, h'.obj o = (Store.ofList ⟨0, 0, 0, ∅⟩ [⟨0, 5, 2, ∅⟩, ⟨4, 9, 1, ∅⟩] : Store Range).obj o) ∧
      (∀ d ∈ ldiff ++ rdiff, d.1 = (h'.obj d.2).calc_area) ∧
      (((∀ x, Range.rhoAt h' (refs ldiff) x = max (rhoOf [⟨0, 5, 2, ∅⟩] x - rhoOf [⟨4, 9, 1, ∅⟩] x) 0) ∧
          ∀ x, Range.rhoAt h' (refs rdiff) x = max (rhoOf [⟨4, 9, 1, ∅⟩] x - rhoOf [⟨0, 5, 2, ∅⟩] x) 0) ↔
        MadeGood [⟨0, 5, 2, ∅⟩] [] (overlaps [⟨0, 5, 2, ∅⟩] [⟨4, 9, 1, ∅⟩]) ∧
          MadeGood [⟨4, 9, 1, ∅⟩] [] (overlaps [⟨0, 5, 2, ∅⟩] [⟨4, 9, 1, ∅⟩])) :=
  @distance_diffs_iff (Store.ofList ⟨0, 0, 0, ∅⟩ [⟨0, 5, 2, ∅⟩, ⟨4, 9, 1, ∅⟩]) [0] [1]
    (by decide) (by decide) ⟨by decide, by decide⟩ ⟨by decide, by decide⟩

/-- An overlap strictly inside a heavier range: what is left of the range counts twice beside it. -/
theorem distance_diffs_not_one_sided :
    ¬ ∀ (h : Store Range) (rs rhs : List ℕ), (∀ s ∈ rs, s < h.next) → (∀ r ∈ rhs, r < h.next) →
      Tidy (rs.map h.obj) → Tidy (rhs.map h.obj) →
      ∀ h' dist ldiff rdiff, distance h rs rhs = .ok (h', dist, ldiff, rdiff) →
        (∀ x, Range.rhoAt h' (refs ldiff) x = max (Range.rhoAt h rs x - Range.rhoAt h rhs x) 0) ∧
          ∀ x, Range.rhoAt h' (refs rdiff) x = max (Range.rhoAt h rhs x - Range.rhoAt h rs x) 0 := by
  intro hall
  let h : Store Range := Store.ofList ⟨0, 0, 0, ∅⟩ [⟨0, 10, 2, ∅⟩, ⟨5, 5, 1, ∅⟩]
  have hl : ∀ s ∈ [0], s < h.next := by decide
  have hr : ∀ r ∈ [1], r < h.next := by decide
  have hlt : Tidy ([0].map h.obj) := ⟨by decide, by decide⟩
  have hrt : Tidy ([1].map h.obj) := ⟨by decide, by decide⟩
  obtain ⟨hval, -⟩ := distance_refines hl hr
  obtain ⟨ld, rd, hdist⟩ := distance_spec hlt.wf hrt.wf hlt.disjoint hrt.disjoint
  obtain ⟨hld, -⟩ := distance_diffs hdist
  have hgs : overlaps ([0].map h.obj) ([1].map h.obj) = [⟨5, 5, 1, ∅⟩] := by decide +kernel
  rw [hdist] at hval
  cases hrun : distance h [0] [1] with
  | error e =>
    rw [hrun] at hval
    cases hval
  | ok y =>
    obtain ⟨h', dist, ldiff, rdiff⟩ := y
    rw [hrun] at hval
    have hvl : vals h' ldiff = ld := congrArg (fun z => z.2.1) (Except.ok.inj hval)
    obtain ⟨hdl, -⟩ := of_vals (hvl.trans hld)
    have hsays := (hall h [0] [1] hl hr hlt hrt h' dist ldiff rdiff hrun).1 0
    rw [hdl, hgs] at hsays
    exact absurd hsays (by decide +kernel)

end InPlace

end RangeSet

end SEDiff.Juxta
