import SEDiff.Juxta.Maximum

/-!
# Runs over range sets

A run creates range sets, all empty at first, and applies `add`, `union_assign`,
`intersection_assign`, `div_assign` and `copy.deepcopy` to them in any order.

`union_assign` and `intersection_assign` do not copy their argument: the receiver keeps the
argument's range objects and cuts them in place. So the argument of such a call is *given
away*, until it is overwritten by a copy.

## What is proved

* `RangeSets.run_disjoint` — no assertion fails in any run and every range is well formed.
  When every insertion settles and no set that was given away is used again, all other sets
  consist of pairwise disjoint ranges.
-/

namespace SEDiff.Juxta

open Foundation

/-- The ranges allocated so far and the range sets, by number. -/
structure RangeSets where
  /-- The ranges. -/
  heap : Store Range
  /-- The ranges of each set. -/
  sets : ℕ → List ℕ

namespace RangeSets

open RangeSet

/-- What a program does with its range sets. -/
inductive Call
  /-- `si.add(Range(..))`. -/
  | add (i : ℕ) (r : Range)
  /-- `si.union_assign(sj)`. -/
  | union_assign (i j : ℕ)
  /-- `si.intersection_assign(sj)`. -/
  | intersection_assign (i j : ℕ)
  /-- `si.div_assign(n)`. -/
  | div_assign (i : ℕ) (n : ℚ)
  /-- `si = copy.deepcopy(sj)`. -/
  | deepcopy (i j : ℕ)

/-- All sets are `RangeSet()`. -/
def init : RangeSets := ⟨Store.ofList ⟨0, 0, 0, ∅⟩ [], fun _ => []⟩

/-- The set `i` now holds `rs`. -/
def update (s : RangeSets) (i : ℕ) (h : Store Range) (rs : List ℕ) : RangeSets :=
  ⟨h, Function.update s.sets i rs⟩

@[simp] theorem heap_update (s : RangeSets) (i : ℕ) (h : Store Range) (rs : List ℕ) :
    (s.update i h rs).heap = h := rfl

@[simp] theorem sets_update_self (s : RangeSets) (i : ℕ) (h : Store Range) (rs : List ℕ) :
    (s.update i h rs).sets i = rs := Function.update_self ..

theorem sets_update_of_ne (s : RangeSets) {i j : ℕ} (h : Store Range) (rs : List ℕ) (hj : j ≠ i) :
    (s.update i h rs).sets j = s.sets j := Function.update_of_ne hj ..

/-- One call. -/
def step (s : RangeSets) : Call → Except PyErr RangeSets
  | .add i r => do
    let (h, new) ← Range.new s.heap r
    let (h, rs) ← RangeSet.add h (s.sets i) new
    return s.update i h rs
  | .union_assign i j => do
    let (h, rs) ← RangeSet.union_assign s.heap (s.sets i) (s.sets j)
    return s.update i h rs
  | .intersection_assign i j => do
    let (h, rs) ← RangeSet.intersection_assign s.heap (s.sets i) (s.sets j)
    return s.update i h rs
  | .div_assign i n => .ok { s with heap := RangeSet.div_assign n s.heap (s.sets i) }
  | .deepcopy i j =>
    let (h, rs) := RangeSetVector.deepcopy s.heap (s.sets j)
    .ok (s.update i h rs)

/-- The calls one after the other. -/
def run : RangeSets → List Call → Except PyErr RangeSets
  | s, [] => .ok s
  | s, c :: cs => do
    let s ← s.step c
    run s cs

/-- The ranges that are added are well formed, and divisors are positive. -/
def Call.Valid : Call → Prop
  | .add _ r => r.WF
  | .div_assign _ n => 0 < n
  | _ => True

/-! ### No assertion fails -/

/-- Every range is well formed and the sets hold allocated ranges. -/
structure Sane (s : RangeSets) : Prop where
  /-- Every range is well formed. -/
  wf : Range.AllWF s.heap
  /-- The ranges of the sets are allocated. -/
  live : ∀ i, ∀ o ∈ s.sets i, o < s.heap.next

theorem sane_init : init.Sane :=
  ⟨fun o ho => absurd ho (Nat.not_lt_zero o), fun _ _ ho => absurd ho List.not_mem_nil⟩

/-- A set that holds ranges of a later store. -/
theorem Sane.update {s : RangeSets} (hs : s.Sane) {i : ℕ} {h : Store Range} {rs : List ℕ}
    (hsd : Sound s.heap h rs) : (s.update i h rs).Sane := by
  refine ⟨hsd.wf, fun j o ho => ?_⟩
  by_cases hj : j = i
  · subst hj
    rw [sets_update_self] at ho
    exact hsd.live o ho
  · rw [sets_update_of_ne _ _ _ hj] at ho
    exact (hs.live j o ho).trans_le hsd.next_le

/-- What `div_assign` leaves alone: everything but the weights. -/
structure Scaled (h h' : Store Range) : Prop where
  /-- Nothing is allocated. -/
  next_eq : h'.next = h.next
  /-- The ranges stay where they are. -/
  ends : ∀ o, (h'.obj o).start = (h.obj o).start ∧ (h'.obj o).stop = (h.obj o).stop
  /-- Every range is well formed again. -/
  wf : Range.AllWF h'

theorem div_assign_scaled {n : ℚ} (hn : 0 < n) {h : Store Range} (hwf : Range.AllWF h) {rs : List ℕ}
    (hl : ∀ o ∈ rs, o < h.next) : Scaled h (RangeSet.div_assign n h rs) := by
  induction rs generalizing h with
  | nil => exact ⟨rfl, fun _ => ⟨rfl, rfl⟩, hwf⟩
  | cons r rs ih =>
    have wr := hwf r (hl r List.mem_cons_self)
    have hwf₁ : Range.AllWF (h.set r ((h.obj r).div_assign n)) :=
      hwf.set wr.sane (div_nonneg wr.nonneg hn.le)
    have hd := ih hwf₁ fun o ho => hl o (List.mem_cons_of_mem _ ho)
    refine ⟨hd.next_eq, fun o => ?_, hd.wf⟩
    obtain ⟨h1, h2⟩ := hd.ends o
    rw [RangeSet.div_assign, h1, h2]
    by_cases ho : o = r
    · rw [ho, Store.obj_set_self]
      exact ⟨rfl, rfl⟩
    · rw [Store.obj_set_of_ne _ _ ho]
      exact ⟨rfl, rfl⟩

/-- No call fails, and every range is well formed afterwards. -/
theorem step_sane {s : RangeSets} (hs : s.Sane) {c : Call} (hc : c.Valid) :
    ∃ s', s.step c = .ok s' ∧ s'.Sane := by
  cases c with
  | add i r =>
    have hnew : Range.new s.heap r = .ok (s.heap.alloc r) := by
      rw [Range.new, pyAssert_of_true hc.sane, pyAssert_of_true hc.nonneg]
      rfl
    obtain ⟨h', rs', hrun, hsd⟩ := add_with_total Range.merge_add_two (hs.wf.alloc hc.sane hc.nonneg)
      (fun o ho => Nat.lt_succ_of_lt (hs.live i o ho)) (Nat.lt_succ_self s.heap.next)
    have hadd : RangeSet.add (s.heap.alloc r).1 (s.sets i) s.heap.next = .ok (h', rs') := hrun
    refine ⟨s.update i h' rs', ?_, hs.update ⟨(Nat.le_succ _).trans hsd.next_le, hsd.wf, hsd.live⟩⟩
    rw [step, hnew]
    simp only [ok_bind, Store.ref_alloc, hadd]
    rfl
  | union_assign i j =>
    obtain ⟨h', rs', hrun, hsd⟩ := add_all_total Range.merge_max hs.wf (hs.live i) (hs.live j)
    have hun : RangeSet.union_assign s.heap (s.sets i) (s.sets j) = .ok (h', rs') := hrun
    refine ⟨s.update i h' rs', ?_, hs.update hsd⟩
    rw [step, hun]
    rfl
  | intersection_assign i j =>
    obtain ⟨h', rs', hrun, hsd⟩ := add_all_total Range.merge_add_two hs.wf (hs.live i) (hs.live j)
    have hin : RangeSet.intersection_assign s.heap (s.sets i) (s.sets j) = .ok (h', rs') := hrun
    refine ⟨s.update i h' rs', ?_, hs.update hsd⟩
    rw [step, hin]
    rfl
  | div_assign i n =>
    have hd := div_assign_scaled hc hs.wf (hs.live i)
    exact ⟨_, rfl, hd.wf, fun j o ho => (hs.live j o ho).trans_eq hd.next_eq.symm⟩
  | deepcopy i j =>
    have hcp := RangeSetVector.deepcopy_spec hs.wf (hs.live j)
    exact ⟨_, rfl, hs.update ⟨hcp.agrees.next_le, hcp.wf, fun o ho => (hcp.fresh o ho).2⟩⟩

theorem run_sane {s : RangeSets} (hs : s.Sane) {cs : List Call} (hc : ∀ c ∈ cs, c.Valid) :
    ∃ s', s.run cs = .ok s' ∧ s'.Sane := by
  induction cs generalizing s with
  | nil => exact ⟨s, rfl, hs⟩
  | cons c cs ih =>
    obtain ⟨s₁, hstep, hs₁⟩ := step_sane hs (hc c List.mem_cons_self)
    obtain ⟨s', hrun, hs'⟩ := ih hs₁ fun d hd => hc d (List.mem_cons_of_mem _ hd)
    refine ⟨s', ?_, hs'⟩
    rw [run, hstep]
    exact hrun

/-! ### Disjoint ranges -/

/-- The sets that are given away after the call. -/
def Call.given (G : Finset ℕ) : Call → Finset ℕ
  | .union_assign _ j => insert j G
  | .intersection_assign _ j => insert j G
  | .deepcopy i _ => G.erase i
  | _ => G

/-- The call uses no set that was given away, and each of its insertions settles. -/
def Careful (s : RangeSets) (G : Finset ℕ) : Call → Prop
  | .add i r => i ∉ G ∧ Settles ((s.sets i).map s.heap.obj) r
  | .union_assign i j => i ≠ j ∧ i ∉ G ∧ j ∉ G ∧
      BeforeEach Range.union_assign Settles s.heap (s.sets i) (s.sets j)
  | .intersection_assign i j => i ≠ j ∧ i ∉ G ∧ j ∉ G ∧
      BeforeEach Range.intersection_assign Settles s.heap (s.sets i) (s.sets j)
  | .div_assign i _ => i ∉ G
  | .deepcopy _ j => j ∉ G

instance (s : RangeSets) (G : Finset ℕ) : (c : Call) → Decidable (s.Careful G c)
  | .add _ _ => inferInstanceAs (Decidable (_ ∧ _))
  | .union_assign _ _ => inferInstanceAs (Decidable (_ ∧ _ ∧ _ ∧ _))
  | .intersection_assign _ _ => inferInstanceAs (Decidable (_ ∧ _ ∧ _ ∧ _))
  | .div_assign _ _ => inferInstanceAs (Decidable (_ ∉ _))
  | .deepcopy _ _ => inferInstanceAs (Decidable (_ ∉ _))

/-- Every call of the run is careful. -/
def RunCareful : RangeSets → Finset ℕ → List Call → Prop
  | _, _, [] => True
  | s, G, c :: cs => s.Careful G c ∧
      match s.step c with
      | .ok s' => RunCareful s' (c.given G) cs
      | .error _ => True

instance : (s : RangeSets) → (G : Finset ℕ) → (cs : List Call) → Decidable (s.RunCareful G cs)
  | _, _, [] => inferInstanceAs (Decidable True)
  | s, G, c :: cs =>
    match hstep : s.step c with
    | .ok s' =>
      have := instDecidableRunCareful s' (c.given G) cs
      decidable_of_iff (s.Careful G c ∧ s'.RunCareful (c.given G) cs) (by rw [RunCareful, hstep])
    | .error _ => decidable_of_iff (s.Careful G c) (by rw [RunCareful, hstep, and_true])

/-- The sets that are given away after the calls. -/
def givenAfter (G : Finset ℕ) (cs : List Call) : Finset ℕ := cs.foldl Call.given G

/-- Every set that was not given away is one of disjoint ranges, and no two of them share a
range. -/
structure Inv (s : RangeSets) (G : Finset ℕ) : Prop where
  /-- Ranges are well formed. -/
  sane : s.Sane
  /-- The sets are sets of disjoint ranges. -/
  set : ∀ i, i ∉ G → SetWF s.heap (s.sets i)
  /-- The sets share nothing. -/
  apart : ∀ i j, i ∉ G → j ∉ G → i ≠ j → ∀ o ∈ s.sets i, o ∉ s.sets j

theorem inv_init : init.Inv ∅ :=
  ⟨sane_init, fun _ _ => ⟨by simp [init], by simp [init], by simp [init]⟩, by simp [init]⟩

/-- A set `i` is made of ranges `os` and `xs` that no other set holds. -/
theorem Inv.update {s : RangeSets} {G G' : Finset ℕ} (hs : s.Inv G) {i : ℕ} {os xs rs : List ℕ}
    {h : Store Range} (hG : ∀ k, k ∉ G' → k ≠ i → k ∉ G)
    (hi : ∀ k, k ∉ G' → k ≠ i → ∀ o ∈ s.sets k, o ∉ os)
    (hxs : ∀ k, k ∉ G' → k ≠ i → ∀ o ∈ s.sets k, o ∉ xs)
    (ht : Touches s.heap os xs h rs) (hwf : Range.AllWF h) (hrs : SetWF h rs) :
    (s.update i h rs).Inv G' := by
  have hout : ∀ k, k ∉ G' → k ≠ i → ∀ o ∈ s.sets k, o ∉ rs := by
    intro k hk hki o ho hm
    rcases ht.refs o hm with e | e | e
    · exact hxs k hk hki o ho e
    · exact hi k hk hki o ho e
    · have := hs.sane.live k o ho
      omega
  refine ⟨hs.sane.update ⟨ht.agrees.next_le, hwf, hrs.live⟩, fun k hk => ?_, fun k l hk hl hkl o ho hm => ?_⟩
  · by_cases hki : k = i
    · subst hki
      rw [sets_update_self]
      exact hrs
    · rw [sets_update_of_ne _ _ _ hki]
      exact (hs.set k (hG k hk hki)).congr ht.agrees.next_le fun o ho =>
        ht.agrees.obj_eq o (hs.sane.live k o ho)
          (not_or.mpr ⟨hxs k hk hki o ho, hi k hk hki o ho⟩)
  · by_cases hki : k = i
    · subst hki
      rw [sets_update_self] at ho
      rw [sets_update_of_ne _ _ _ hkl.symm] at hm
      exact hout l hl hkl.symm o hm ho
    · rw [sets_update_of_ne _ _ _ hki] at ho
      by_cases hli : l = i
      · subst hli
        rw [sets_update_self] at hm
        exact hout k hk hki o ho hm
      · rw [sets_update_of_ne _ _ _ hli] at hm
        exact hs.apart k l (hG k hk hki) (hG l hl hli) hkl o ho hm

/-- Scaling keeps disjoint ranges disjoint. -/
theorem Scaled.setWF {h h' : Store Range} (hd : Scaled h h') {rs : List ℕ} (hs : SetWF h rs) :
    SetWF h' rs := by
  refine ⟨fun o ho => (hs.live o ho).trans_eq hd.next_eq.symm, hs.nodup, hs.disjoint.imp fun hab => ?_⟩
  rw [Range.Disjoint, (hd.ends _).1, (hd.ends _).2, (hd.ends _).1, (hd.ends _).2]
  exact hab

/-- The argument of a careful call can be inserted. -/
theorem Inv.args {s : RangeSets} {G : Finset ℕ} (hs : s.Inv G) {i j : ℕ} (hij : i ≠ j) (hi : i ∉ G)
    (hj : j ∉ G) : Args s.heap (s.sets i) (s.sets j) :=
  ⟨hs.sane.live j, (hs.set j hj).nodup, fun o ho => hs.apart j i hj hi hij.symm o ho⟩

/-- A careful call keeps the sets that are not given away. -/
theorem step_inv {s : RangeSets} {G : Finset ℕ} (hs : s.Inv G) {c : Call} (hv : c.Valid)
    (hc : s.Careful G c) : ∃ s', s.step c = .ok s' ∧ s'.Inv (c.given G) := by
  cases c with
  | add i r =>
    obtain ⟨hi, hset⟩ := hc
    have hnew : Range.new s.heap r = .ok (s.heap.alloc r) := by
      rw [Range.new, pyAssert_of_true hv.sane, pyAssert_of_true hv.nonneg]
      rfl
    have hold : ∀ o, o < s.heap.next → (s.heap.alloc r).1.obj o = s.heap.obj o := fun o ho =>
      Store.obj_alloc_of_lt _ _ ho
    have hSi : SetWF (s.heap.alloc r).1 (s.sets i) :=
      (hs.set i hi).congr (Nat.le_succ _) fun o ho => hold o (hs.sane.live i o ho)
    have hfresh : ∀ k, ∀ o ∈ s.sets k, o ∉ [s.heap.next] := fun k o ho hm => by
      have := hs.sane.live k o ho
      rw [List.mem_singleton.mp hm] at this
      omega
    have hmap : (s.sets i).map (s.heap.alloc r).1.obj = (s.sets i).map s.heap.obj :=
      List.map_congr_left fun o ho => hold o (hs.sane.live i o ho)
    obtain ⟨h', rs', E, hrun, he⟩ := add_exceeds (hs.sane.wf.alloc hv.sane hv.nonneg) hSi
      (Nat.lt_succ_self s.heap.next) (fun hm => hfresh i _ hm (List.mem_singleton.mpr rfl))
      (by rw [hmap, Store.obj_alloc_next]; exact hset)
    have hadd : RangeSet.add (s.heap.alloc r).1 (s.sets i) s.heap.next = .ok (h', rs') := hrun
    have ht : Touches s.heap (s.sets i) [s.heap.next] h' rs' := by
      refine ⟨⟨(Nat.le_succ _).trans he.touches.agrees.next_le, fun o ho hn => ?_⟩, fun o ho => ?_⟩
      · rw [he.touches.agrees.obj_eq o (Nat.lt_succ_of_lt ho) hn, hold o ho]
      · exact (he.touches.refs o ho).imp_right (Or.imp_right (Nat.le_succ _).trans)
    refine ⟨s.update i h' rs', ?_, hs.update (fun k hk _ => hk)
      (fun k hk hki o ho => hs.apart k i hk hi hki o ho) (fun k _ _ => hfresh k) ht he.wf he.set⟩
    rw [step, hnew]
    simp only [ok_bind, Store.ref_alloc, hadd]
    rfl
  | union_assign i j =>
    obtain ⟨hij, hi, hj, hset⟩ := hc
    obtain ⟨h', rs', hrun, ht, hwf', hs', -⟩ :=
      union_assign_settled hs.sane.wf (hs.set i hi) (hs.args hij hi hj) (hs.set j hj) hset
    refine ⟨s.update i h' rs', ?_, hs.update (fun k hk _ hm => hk (Finset.mem_insert_of_mem hm)) ?_ ?_
      ht hwf' hs'⟩
    · rw [step, hrun]
      rfl
    all_goals
      intro k hk hki o ho
      obtain ⟨hkj, hkG⟩ := not_or.mp fun e => hk (Finset.mem_insert.mpr e)
    · exact hs.apart k i hkG hi hki o ho
    · exact hs.apart k j hkG hj hkj o ho
  | intersection_assign i j =>
    obtain ⟨hij, hi, hj, hset⟩ := hc
    obtain ⟨h', rs', E, hrun, ht, hwf', hs', -⟩ :=
      add_all_exceeds hs.sane.wf (hs.set i hi) (hs.args hij hi hj) hset
    have hin : RangeSet.intersection_assign s.heap (s.sets i) (s.sets j) = .ok (h', rs') := hrun
    refine ⟨s.update i h' rs', ?_, hs.update (fun k hk _ hm => hk (Finset.mem_insert_of_mem hm)) ?_ ?_
      ht hwf' hs'⟩
    · rw [step, hin]
      rfl
    all_goals
      intro k hk hki o ho
      obtain ⟨hkj, hkG⟩ := not_or.mp fun e => hk (Finset.mem_insert.mpr e)
    · exact hs.apart k i hkG hi hki o ho
    · exact hs.apart k j hkG hj hkj o ho
  | div_assign i n =>
    have hd := div_assign_scaled hv hs.sane.wf (hs.sane.live i)
    exact ⟨_, rfl, ⟨hd.wf, fun j o ho => (hs.sane.live j o ho).trans_eq hd.next_eq.symm⟩,
      fun k hk => hd.setWF (hs.set k hk), hs.apart⟩
  | deepcopy i j =>
    have hcp := RangeSetVector.deepcopy_spec hs.sane.wf (hs.sane.live j)
    have ht : Touches s.heap [] [] (RangeSetVector.deepcopy s.heap (s.sets j)).1
        (RangeSetVector.deepcopy s.heap (s.sets j)).2 :=
      ⟨hcp.agrees.mono fun _ e => e.elim, fun o ho => .inr (.inr (hcp.fresh o ho).1)⟩
    exact ⟨_, rfl, hs.update (fun k hk hki hm => hk (Finset.mem_erase.mpr ⟨hki, hm⟩))
      (fun _ _ _ _ _ => List.not_mem_nil) (fun _ _ _ _ _ => List.not_mem_nil) ht hcp.wf
      (hcp.setWF (hs.set j hc))⟩

/-- A careful run keeps the sets that are not given away. -/
theorem run_inv {s : RangeSets} {G : Finset ℕ} (hs : s.Inv G) {cs : List Call} (hv : ∀ c ∈ cs, c.Valid)
    (hc : s.RunCareful G cs) : ∃ s', s.run cs = .ok s' ∧ s'.Inv (givenAfter G cs) := by
  induction cs generalizing s G with
  | nil => exact ⟨s, rfl, hs⟩
  | cons c cs ih =>
    obtain ⟨s₁, hstep, hs₁⟩ := step_inv hs (hv c List.mem_cons_self) hc.1
    have hrest : s₁.RunCareful (c.given G) cs := by
      have := hc.2
      rwa [hstep] at this
    obtain ⟨s', hrun, hs'⟩ := ih hs₁ (fun d hd => hv d (List.mem_cons_of_mem _ hd)) hrest
    refine ⟨s', ?_, hs'⟩
    rw [run, hstep]
    exact hrun

/-- **The representation invariant**: no assertion fails in a run, and every range is well formed;
in a careful run the sets that were not given away are sets of pairwise disjoint ranges. -/
theorem run_disjoint (cs : List Call) (hv : ∀ c ∈ cs, c.Valid) :
    ∃ s, init.run cs = .ok s ∧ (∀ i, ∀ o ∈ s.sets i, (s.heap.obj o).WF) ∧
      (init.RunCareful ∅ cs → ∀ i, i ∉ givenAfter ∅ cs →
        ((s.sets i).map s.heap.obj).Pairwise Range.Disjoint) := by
  obtain ⟨s, hrun, hs⟩ := run_sane sane_init hv
  refine ⟨s, hrun, fun i o ho => hs.wf o (hs.live i o ho), fun hc i hi => ?_⟩
  obtain ⟨s', hrun', hs'⟩ := run_inv inv_init hv hc
  rw [hrun] at hrun'
  obtain rfl := Except.ok.inj hrun'
  exact (hs'.set i hi).pairwise

/-- A set built by two additions, scaled, and joined to a copy of itself. -/
def joining : List Call :=
  [.add 0 ⟨1, 100, 2, ∅⟩, .add 0 ⟨51, 200, 1, ∅⟩, .div_assign 0 2, .deepcopy 1 0, .union_assign 1 0]

theorem run_disjoint_joining :
    ∃ s, init.run joining = .ok s ∧ (∀ i, ∀ o ∈ s.sets i, (s.heap.obj o).WF) ∧
      ∀ i, i ∉ givenAfter ∅ joining → ((s.sets i).map s.heap.obj).Pairwise Range.Disjoint := by
  have hv : ∀ c ∈ joining, c.Valid := by
    intro c hc
    simp only [joining, List.mem_cons, List.not_mem_nil, or_false] at hc
    rcases hc with rfl | rfl | rfl | rfl | rfl
    · exact ⟨by decide, by decide⟩
    · exact ⟨by decide, by decide⟩
    · exact two_pos
    · trivial
    · trivial
  obtain ⟨s, hrun, hwf, hd⟩ := run_disjoint joining hv
  exact ⟨s, hrun, hwf, hd (by decide +kernel)⟩

/-- The calls after which a set that was given away holds `[6, 10]` twice. -/
def sharing : List Call :=
  [.add 0 ⟨1, 10, 1, ∅⟩, .add 1 ⟨4, 5, 1, ∅⟩, .add 1 ⟨6, 10, 1, ∅⟩, .union_assign 0 1]

/-- Thirty-two single points, and a range across them. -/
def crossing : List Call :=
  ((List.range 32).map fun k : ℕ => Call.add 0 ⟨2 * k + 2, 2 * k + 2, 1, ∅⟩) ++ [.add 0 ⟨1, 100, 1, ∅⟩]

/-- After the calls every set is one of pairwise disjoint ranges. -/
def Keeps (cs : List Call) : Prop :=
  (∀ c ∈ cs, c.Valid) →
    ∃ s, init.run cs = .ok s ∧ ∀ i, ((s.sets i).map s.heap.obj).Pairwise Range.Disjoint

theorem not_keeps {cs : List Call} (hv : ∀ c ∈ cs, c.Valid) (i : ℕ)
    (hbad : (match init.run cs with
      | .ok s => decide (((s.sets i).map s.heap.obj).Pairwise Range.Disjoint)
      | .error _ => true) = false) : ¬ Keeps cs := by
  intro hk
  obtain ⟨s, hrun, hd⟩ := hk hv
  rw [hrun] at hbad
  exact of_decide_eq_false hbad (hd i)

/-- The argument of `union_assign` shares its ranges with the receiver and is cut with it, and
where the cutting gives up the range across the points is left over one of them. -/
theorem run_not_disjoint : ¬ Keeps sharing ∧ ¬ Keeps crossing := by
  constructor
  · refine not_keeps (fun c hc => ?_) 1 (by decide +kernel)
    simp only [sharing, List.mem_cons, List.not_mem_nil, or_false] at hc
    rcases hc with rfl | rfl | rfl | rfl
    · exact ⟨by decide, by decide⟩
    · exact ⟨by decide, by decide⟩
    · exact ⟨by decide, by decide⟩
    · trivial
  · refine not_keeps (fun c hc => ?_) 0 (by decide +kernel)
    rcases List.mem_append.mp hc with hc | hc
    · obtain ⟨k, -, rfl⟩ := List.mem_map.mp hc
      exact ⟨le_rfl, zero_le_one⟩
    · rw [List.mem_singleton.mp hc]
      exact ⟨by decide, by decide⟩

end RangeSets

end SEDiff.Juxta
