import SEDiff.Foundation.Deal
import SEDiff.Juxta.Sections
import Mathlib.Data.Nat.Count

/-!
# Parsing a file in chunks

The pickler parses a file in chunks of `unit` bytes. A section belongs to the chunks that own it.

## What is proved

* `parse_parts_iff` — the chunks together yield the paths of the file exactly when every section
  that has a path is cut off from the one before it by exactly one chunk boundary in the last line
  of that one, or by no boundary there and in its own first line.
-/

namespace SEDiff.Juxta

open Foundation SEDiff.Juxta.Parser Pickler

/-! ### The parts of a file -/

/-- Parsing parts concatenates what the parts own. -/
theorem parse_parts_eq (ss : List Section) {unit : ℕ} {plans : List PicklePlan}
    (hplans : ∀ plan ∈ plans, plan.end_ = plan.start + unit) :
    parse_parts (content ss) plans =
      .ok ((plans.map PicklePlan.start).flatMap fun start => ownedPaths start (start + unit) ss) := by
  have hmap : plans.mapM (fun plan => parse_file (content ss) plan.start plan.end_) =
      .ok (plans.map fun plan => ownedPaths plan.start (plan.start + unit) ss) := by
    induction plans with
    | nil => rfl
    | cons plan plans ih =>
      rw [List.mapM_cons, parse_chunk, hplans plan List.mem_cons_self,
        ih fun p hp => hplans p (List.mem_cons_of_mem _ hp)]
      rfl
  rw [parse_parts, hmap, ok_bind, List.flatMap_map]
  rfl

theorem map_start_parts (id : ℕ) (fss : Str) (size unit : ℕ) :
    (parts id fss size unit).map PicklePlan.start = starts size unit := by
  refine List.ext_getElem ?_ fun i _ _ => ?_
  · rw [List.length_map, parts, List.length_mapIdx]
  · simp only [parts, List.getElem_map, List.getElem_mapIdx]

theorem end_parts {id : ℕ} {fss : Str} {size unit : ℕ} :
    ∀ plan ∈ parts id fss size unit, plan.end_ = plan.start + unit := by
  intro plan hplan
  obtain ⟨i, hi, rfl⟩ := List.mem_mapIdx.mp hplan
  rfl

/-! ### The offsets of sections -/

theorem length_text_le (s : Section) : 10 ≤ s.text.length := by
  have := s.length_text
  omega

/-- Every section ends before the file does. -/
theorem located_le {a : ℕ} {ss : List Section} {x : ℕ × Section} (hx : x ∈ located a ss) :
    x.1 + 10 ≤ a + (content ss).length := by
  induction ss generalizing a with
  | nil => exact absurd hx List.not_mem_nil
  | cons s ss ih =>
    have hcontent : (content (s :: ss)).length = s.text.length + (content ss).length := List.length_append
    have hs := length_text_le s
    cases List.mem_cons.mp hx with
    | inl h =>
      subst h
      rw [hcontent]
      omega
    | inr h =>
      have := ih h
      omega

/-- Sections are at least ten bytes apart. -/
theorem pairwise_located (a : ℕ) (ss : List Section) :
    (located a ss).Pairwise fun x y => x.1 + 10 ≤ y.1 := by
  induction ss generalizing a with
  | nil => exact List.Pairwise.nil
  | cons s ss ih =>
    refine List.Pairwise.cons (fun y hy => ?_) (ih _)
    have hs := length_text_le s
    have := le_of_mem_located hy
    show a + 10 ≤ y.1
    omega

theorem apart_of_mem {xs : List (ℕ × Section)} (hxs : xs.Pairwise fun x y => x.1 + 10 ≤ y.1)
    {x y : ℕ × Section} (hx : x ∈ xs) (hy : y ∈ xs) : x.1 = y.1 ∨ x.1 + 10 ≤ y.1 ∨ y.1 + 10 ≤ x.1 := by
  obtain ⟨i, hi, rfl⟩ := List.mem_iff_getElem.mp hx
  obtain ⟨j, hj, rfl⟩ := List.mem_iff_getElem.mp hy
  rw [List.pairwise_iff_getElem] at hxs
  rcases Nat.lt_trichotomy i j with h | rfl | h
  · exact .inr (.inl (hxs i j hi hj h))
  · exact .inl rfl
  · exact .inr (.inr (hxs j i hj hi h))

/-- Where the sections of a file are. -/
theorem mem_located {a : ℕ} {ss : List Section} {x : ℕ × Section} :
    x ∈ located a ss ↔ ∃ pre post, ss = pre ++ x.2 :: post ∧ x.1 = a + (content pre).length := by
  induction ss generalizing a with
  | nil => simp [located]
  | cons s ss ih =>
    rw [located, List.mem_cons, ih]
    constructor
    · rintro (rfl | ⟨pre, post, rfl, hx⟩)
      · exact ⟨[], ss, rfl, rfl⟩
      · refine ⟨s :: pre, post, rfl, ?_⟩
        rw [hx, content, content, List.flatMap_cons, List.length_append, Nat.add_assoc]
    · rintro ⟨pre, post, hss, hx⟩
      cases pre with
      | nil =>
        obtain ⟨rfl, rfl⟩ := List.cons.inj hss
        exact .inl (Prod.ext hx rfl)
      | cons s' pre =>
        obtain ⟨rfl, rfl⟩ := List.cons.inj hss
        refine .inr ⟨pre, post, rfl, ?_⟩
        rw [hx, content, content, List.flatMap_cons, List.length_append, Nat.add_assoc]

/-- The whole file has the paths of all its sections. -/
theorem parse_whole_eq {ss : List Section} (hsize : (content ss).length ≤ 2 ^ 64) :
    parse_whole (content ss) = .ok ((located 0 ss).flatMap fun x => x.2.paths) := by
  rw [parse_whole, parse_chunk, ownedPaths, List.filter_eq_self.mpr]
  intro x hx
  have hle := located_le hx
  refine decide_eq_true ?_
  unfold Owned
  rcases Nat.lt_or_ge x.1 5 with h | h
  · cases ss with
    | nil => exact absurd hx List.not_mem_nil
    | cons s ss =>
      cases List.mem_cons.mp hx with
      | inl h0 =>
        subst h0
        exact .inl ⟨by omega, le_rfl⟩
      | inr h0 =>
        have := le_of_mem_located h0
        have := length_text_le s
        omega
  · omega

/-! ### The owners of an offset -/

/-- Chunk `k` owns the section at `a`. -/
def OwnedBy (unit a k : ℕ) : Prop := Owned (k * unit) (k * unit + unit) a

instance (unit a k : ℕ) : Decidable (OwnedBy unit a k) := inferInstanceAs (Decidable (Owned _ _ _))

/-- **When one chunk owns the section at `a`**: exactly one chunk starts in the last line before it
or at its first byte, or none starts there or in its first line. -/
def CutOnce (unit a : ℕ) : Prop :=
  (∃! k, a < k * unit + 5 ∧ k * unit ≤ a) ∨ ∀ k, ¬ (a < k * unit + 5 ∧ k * unit ≤ a + 5)

section Owners

variable {unit a : ℕ}

theorem mul_unit_le (unit : ℕ) {j k : ℕ} (h : j < k) : j * unit + unit ≤ k * unit := by
  rw [← Nat.succ_mul]
  exact Nat.mul_le_mul_right unit h

/-- Chunks start at different offsets. -/
theorem eq_of_near (unit : ℕ) {j k : ℕ} (h : j * unit < k * unit + unit) (h' : k * unit < j * unit + unit) : j = k := by
  rcases Nat.lt_trichotomy j k with hlt | heq | hgt
  · have := mul_unit_le unit hlt
    omega
  · exact heq
  · have := mul_unit_le unit hgt
    omega

/-- Chunks of at least five bytes do not share a section. -/
theorem OwnedBy.unique (hunit : 5 ≤ unit) {j k : ℕ} (hj : OwnedBy unit a j) (hk : OwnedBy unit a k) :
    j = k := by
  unfold OwnedBy Owned at hj hk
  apply eq_of_near unit <;> omega

/-- Chunks of at most five bytes miss no section. -/
theorem exists_ownedBy (h0 : 0 < unit) (hunit : unit ≤ 5) : OwnedBy unit a (a / unit) := by
  have hle := Nat.div_mul_le_self a unit
  have hlt := Nat.lt_div_mul_add (a := a) h0
  unfold OwnedBy Owned
  omega

/-- A chunk that owns a section starts before it. -/
theorem OwnedBy.lt {k n : ℕ} (h : OwnedBy unit a k) (ha : a < n * unit) : k < n := by
  unfold OwnedBy Owned at h
  exact Nat.lt_of_mul_lt_mul_right (a := unit) (by omega)

theorem existsUnique_ownedBy_iff (h0 : 0 < unit) : (∃! k, OwnedBy unit a k) ↔ CutOnce unit a := by
  constructor
  · rintro ⟨k, hk, huniq⟩
    cases hk with
    | inl hin => exact .inl ⟨k, hin, fun j hj => huniq j (.inl hj)⟩
    | inr hfar =>
      refine .inr fun j hj => ?_
      rcases Nat.lt_or_ge k j with hlt | hge
      · have := mul_unit_le unit hlt
        omega
      · have := Nat.mul_le_mul_right unit hge
        omega
  · rintro (⟨k, hin, huniq⟩ | hnone)
    · refine ⟨k, .inl hin, fun j hj => ?_⟩
      cases hj with
      | inl hj => exact huniq j hj
      | inr hfar =>
        rcases Nat.lt_or_ge j k with hlt | hge
        · have := mul_unit_le unit hlt
          omega
        · have := Nat.mul_le_mul_right unit hge
          omega
    · have hle := Nat.div_mul_le_self a unit
      have hlt := Nat.lt_div_mul_add (a := a) h0
      have h1 := hnone (a / unit)
      have h2 := hnone (a / unit + 1)
      rw [Nat.succ_mul] at h2
      refine ⟨a / unit, .inr ⟨by omega, by omega⟩, fun j hj => ?_⟩
      cases hj with
      | inl hj => exact absurd ⟨hj.1, by omega⟩ (hnone j)
      | inr hfar => apply eq_of_near unit <;> omega

/-- How many of the first `n` chunks own the section at `a`. -/
def owners (unit n a : ℕ) : ℕ := ((List.range n).map (· * unit)).countP fun start => Owned start (start + unit) a

theorem owners_eq_card (unit n a : ℕ) :
    owners unit n a = ((Finset.range n).filter (OwnedBy unit a)).card := by
  rw [owners, List.countP_map, ← Nat.count_eq_card_filter_range]
  rfl

variable {n : ℕ}

theorem owners_le_one (hunit : 5 ≤ unit) : owners unit n a ≤ 1 := by
  rw [owners_eq_card, Finset.card_le_one]
  intro j hj k hk
  exact (Finset.mem_filter.mp hj).2.unique hunit (Finset.mem_filter.mp hk).2

theorem one_le_owners (h0 : 0 < unit) (hunit : unit ≤ 5) (ha : a < n * unit) : 1 ≤ owners unit n a := by
  have hown : OwnedBy unit a (a / unit) := exists_ownedBy h0 hunit
  rw [owners_eq_card]
  exact Finset.card_pos.mpr ⟨_, Finset.mem_filter.mpr ⟨Finset.mem_range.mpr (hown.lt ha), hown⟩⟩

theorem owners_eq_one_iff (h0 : 0 < unit) (ha : a < n * unit) : owners unit n a = 1 ↔ CutOnce unit a := by
  rw [owners_eq_card, Finset.card_eq_one, ← existsUnique_ownedBy_iff h0]
  constructor
  · rintro ⟨k, hk⟩
    have hmem : ∀ j, OwnedBy unit a j ↔ j = k := fun j => by
      rw [← Finset.mem_singleton, ← hk, Finset.mem_filter, Finset.mem_range]
      exact ⟨fun h => ⟨h.lt ha, h⟩, And.right⟩
    exact ⟨k, (hmem k).mpr rfl, fun j hj => (hmem j).mp hj⟩
  · rintro ⟨k, hk, huniq⟩
    refine ⟨k, Finset.ext fun j => ?_⟩
    rw [Finset.mem_filter, Finset.mem_range, Finset.mem_singleton]
    exact ⟨fun h => huniq j h.2, fun h => h ▸ ⟨hk.lt ha, hk⟩⟩

end Owners

/-! ### All chunks -/

/-- What all chunks yield. -/
theorem flatMap_ownedPaths (ss : List Section) (unit n : ℕ) :
    (((List.range n).map (· * unit)).flatMap fun start => ownedPaths start (start + unit) ss) =
      (((List.range n).map (· * unit)).flatMap fun start =>
        (located 0 ss).filter fun x => Owned start (start + unit) x.1).flatMap fun x => x.2.paths := by
  rw [List.flatMap_assoc]
  rfl

/-- How much all chunks yield. -/
theorem length_flatMap_ownedPaths (ss : List Section) (unit n : ℕ) :
    (((List.range n).map (· * unit)).flatMap fun start => ownedPaths start (start + unit) ss).length =
      ((located 0 ss).map fun x => owners unit n x.1 * x.2.paths.length).sum := by
  rw [List.length_flatMap]
  refine Eq.trans ?_ (@sum_filter_eq (ℕ × Section) ℕ (fun start x => Owned start (start + unit) x.1) _ _
    (located 0 ss) fun x => x.2.paths.length)
  refine congrArg List.sum (List.map_congr_left fun start _ => ?_)
  rw [ownedPaths, List.length_flatMap]

/-- Sections without a path do not matter. -/
theorem flatMap_filter_paths (xs : List (ℕ × Section)) :
    ((xs.filter fun x => x.2.paths ≠ []).flatMap fun x => x.2.paths) = xs.flatMap fun x => x.2.paths := by
  induction xs with
  | nil => rfl
  | cons x xs ih =>
    by_cases hx : x.2.paths = []
    · rw [List.filter_cons_of_neg (by simpa using hx), ih, List.flatMap_cons, hx, List.nil_append]
    · rw [List.filter_cons_of_pos (by simpa using hx), List.flatMap_cons, List.flatMap_cons, ih]

/-- Chunks that own every section with a path once yield the paths of the file. -/
theorem flatMap_ownedPaths_eq {ss : List Section} {unit n : ℕ} (h0 : 0 < unit)
    (hn : (content ss).length ≤ n * unit)
    (hcut : ∀ x ∈ located 0 ss, x.2.paths ≠ [] → CutOnce unit x.1) :
    (((List.range n).map (· * unit)).flatMap fun start => ownedPaths start (start + unit) ss) =
      (located 0 ss).flatMap fun x => x.2.paths := by
  let xs := (located 0 ss).filter fun x => x.2.paths ≠ []
  have hmem : ∀ x ∈ xs, x ∈ located 0 ss ∧ ∃! k, OwnedBy unit x.1 k := by
    intro x hx
    obtain ⟨hloc, hpaths⟩ := List.mem_filter.mp hx
    exact ⟨hloc, (existsUnique_ownedBy_iff h0).mpr (hcut x hloc (of_decide_eq_true hpaths))⟩
  have hpair : xs.Pairwise fun x y => x.1 + 10 ≤ y.1 := (pairwise_located 0 ss).filter _
  have hall : (((List.range n).map (· * unit)).flatMap fun start =>
      xs.filter fun x => Owned start (start + unit) x.1) = xs := by
    refine flatMap_filter_eq Prod.fst (hpair.imp fun h => by omega) ?_ fun x hx => ?_
    · refine List.pairwise_map.mpr (List.pairwise_lt_range.imp fun {j k} hjk x hx y hy hj hk => ?_)
      have hunit := mul_unit_le unit hjk
      have hnot : ¬ (y.1 + 10 ≤ x.1) := by
        unfold Owned at hj hk
        omega
      have hne : x.1 ≠ y.1 := by
        intro heq
        obtain ⟨m, -, huniq⟩ := (hmem x hx).2
        have hjm := huniq j hj
        have hkm := huniq k (heq ▸ hk)
        omega
      have := apart_of_mem hpair hx hy
      omega
    · obtain ⟨hloc, k, hk, -⟩ := hmem x hx
      have hle := located_le hloc
      exact ⟨k * unit, List.mem_map.mpr ⟨k, List.mem_range.mpr (hk.lt (by omega)), rfl⟩, hk⟩
  rw [flatMap_ownedPaths, ← flatMap_filter_paths, ← flatMap_filter_paths (located 0 ss), List.filter_flatMap]
  refine congrArg (List.flatMap _) (Eq.trans ?_ hall)
  refine congrArg List.flatten (List.map_congr_left fun start _ => ?_)
  exact List.filter_comm _ _ _

/-- Chunks that yield the paths of the file own every section with a path once. -/
theorem cutOnce_of_eq {ss : List Section} {unit n : ℕ} (h0 : 0 < unit)
    (hn : (content ss).length ≤ n * unit)
    (heq : (((List.range n).map (· * unit)).flatMap fun start => ownedPaths start (start + unit) ss) =
      (located 0 ss).flatMap fun x => x.2.paths) :
    ∀ x ∈ located 0 ss, x.2.paths ≠ [] → CutOnce unit x.1 := by
  have hsum := congrArg List.length heq
  rw [length_flatMap_ownedPaths, List.length_flatMap] at hsum
  have hlt : ∀ x ∈ located 0 ss, x.1 < n * unit := fun x hx => by
    have := located_le hx
    omega
  -- long chunks can only lose sections, short ones only repeat them
  have hsame : ∀ x ∈ located 0 ss, owners unit n x.1 * x.2.paths.length = x.2.paths.length := by
    rcases Nat.le_total 5 unit with h5 | h5
    · refine eq_of_sum_eq (fun x _ => ?_) hsum
      exact (Nat.mul_le_mul_right _ (owners_le_one h5)).trans_eq (Nat.one_mul _)
    · intro x hx
      refine (eq_of_sum_eq (fun y hy => ?_) hsum.symm x hx).symm
      exact (Nat.one_mul _).symm.trans_le (Nat.mul_le_mul_right _ (one_le_owners h0 h5 (hlt y hy)))
  intro x hx hpaths
  refine (owners_eq_one_iff h0 (hlt x hx)).mp ?_
  exact Nat.eq_of_mul_eq_mul_right (List.length_pos_iff.mpr hpaths) ((hsame x hx).trans (Nat.one_mul _).symm)

/-- The starts of the chunks reach the end of the file. -/
theorem length_le_starts (size : ℕ) {unit : ℕ} (h0 : 0 < unit) :
    size ≤ (size + unit / 2 + unit - 1) / unit * unit := by
  have := Nat.lt_div_mul_add (a := size + unit / 2 + unit - 1) h0
  omega

/-! ### A section of any length -/

/-- The body of a section with one path, after `n + 1` empty lines. -/
def paddedBody (n : ℕ) : List Str := [] :: (List.replicate n [] ++ ["@LOCATION: main.c:3:3".toList])

/-- The path of that section. -/
def mainPath : RetPath := ⟨[("LOCATION".toList, .one (.text "main.c:3:3".toList))], []⟩

theorem mem_paddedBody {n : ℕ} {l : Str} (hl : l ∈ paddedBody n) :
    l = [] ∨ l = "@LOCATION: main.c:3:3".toList := by
  cases List.mem_cons.mp hl with
  | inl h => exact .inl h
  | inr h =>
    cases List.mem_append.mp h with
    | inl h => exact .inl (List.eq_of_mem_replicate h)
    | inr h => exact .inr (List.mem_singleton.mp h)

/-- Empty lines have no entries. -/
theorem feeder_empty_lines (n : ℕ) (body : List Str) :
    _feeder ⟨true, none⟩ (bodyPairs [] (List.replicate n [] ++ body)) =
      _feeder ⟨true, none⟩ (bodyPairs [] body) := by
  induction n with
  | zero => rfl
  | succ n ih =>
    rw [List.replicate_succ, List.cons_append, bodyPairs, _feeder]
    exact ih

theorem parse_paddedBody (n : ℕ) :
    parse_whole (unlines '\n' (sectionLines (paddedBody n))) = .ok [mainPath] := by
  have hall : ∀ l ∈ sectionLines (paddedBody n), '\n' ∉ l := by
    intro l hl
    rcases List.mem_cons.mp hl with rfl | hl
    · exact newline_not_mem_opening
    rcases List.mem_append.mp hl with hl | hl
    · rcases mem_paddedBody hl with rfl | rfl <;> decide
    · rw [List.mem_singleton.mp hl]
      exact newline_not_mem_closing
  have hcloses : ∀ l ∈ paddedBody n, ¬ closing <:+: l := by
    intro l hl
    rcases mem_paddedBody hl with rfl | rfl <;> decide
  have hscan : _dual_open (unlines '\n' (sectionLines (paddedBody n))) 0 (2 ^ 64) =
      dual (2 ^ 64) opening 5 ((paddedBody n).map (line '\n') ++ line '\n' closing :: []) := by
    rw [_dual_open, List.drop_zero, lines_unlines hall, sectionLines, List.map_cons, List.map_append]
    simp only [strip_opening]
    rfl
  rw [parse_whole, parse_file, hscan, feeder_body _ (by decide) hcloses, paddedBody, bodyPairs, _feeder]
  have hopen : ∀ m, feed ⟨false, none⟩ opening m = ([], ⟨true, none⟩) := fun _ => rfl
  have hempty : Str.strip (line '\n' []) = [] := by decide
  rw [hopen, hempty, feeder_empty_lines, dual]
  decide

/-- A section with one path, after `n + 1` empty lines. -/
def padded (n : ℕ) : Section where
  body := paddedBody n
  newline l hl := by rcases mem_paddedBody hl with rfl | rfl <;> decide
  opens l hl := by rcases mem_paddedBody hl with rfl | rfl <;> decide
  closes l hl := by rcases mem_paddedBody hl with rfl | rfl <;> decide
  paths := [mainPath]
  parses := parse_paddedBody n

theorem length_padded (n : ℕ) : (padded n).text.length = n + 33 := by
  have hrep : (unlines '\n' (List.replicate n ([] : Str))).length = n := by
    induction n with
    | zero => rfl
    | succ n ih =>
      rw [List.replicate_succ, unlines_cons, List.length_append, ih, length_line]
      exact Nat.add_comm 1 n
  have hbody : (padded n).body = [] :: (List.replicate n [] ++ ["@LOCATION: main.c:3:3".toList]) := rfl
  have hloc : "@LOCATION: main.c:3:3".toList.length = 21 := by decide
  rw [Section.length_text, hbody, unlines_cons, unlines_append, List.length_append, List.length_append, hrep,
    unlines_cons, unlines_nil, List.append_nil, length_line, length_line, hloc]
  show 5 + (0 + 1 + (n + (21 + 1))) + 5 = _
  omega

/-! ### Chunks and the whole file -/

/-- **Parsing in chunks**: the chunks that the pickler plans yield the paths of the whole file, in
order and once each, exactly when every section that has a path is cut off by the chunk boundaries
at most once. -/
theorem parse_parts_iff {ss : List Section} (hsize : (content ss).length ≤ 2 ^ 64) {unit : ℕ}
    (h0 : 0 < unit) (id : ℕ) (fss : Str) :
    parse_parts (content ss) (parts id fss (content ss).length unit) = parse_whole (content ss) ↔
      ∀ pre s post, ss = pre ++ s :: post → s.paths ≠ [] → CutOnce unit (content pre).length := by
  have hcut : (∀ pre s post, ss = pre ++ s :: post → s.paths ≠ [] → CutOnce unit (content pre).length) ↔
      ∀ x ∈ located 0 ss, x.2.paths ≠ [] → CutOnce unit x.1 := by
    constructor
    · intro h x hx
      obtain ⟨pre, post, hss, hpos⟩ := mem_located.mp hx
      rw [hpos, Nat.zero_add]
      exact h pre x.2 post hss
    · intro h pre s post hss
      exact h (_, s) (mem_located.mpr ⟨pre, post, hss, (Nat.zero_add _).symm⟩)
  have hn := length_le_starts (content ss).length h0
  rw [parse_parts_eq ss end_parts, map_start_parts, starts, parse_whole_eq hsize, hcut, Except.ok.injEq]
  exact ⟨cutOnce_of_eq h0 hn, flatMap_ownedPaths_eq h0 hn⟩

/-- Boundaries at 40 and 80 lie inside the two sections, which start at 0 and 53. -/
theorem parse_parts_iff_padded :
    parse_parts (content [padded 20, padded 0]) (parts 0 [] (content [padded 20, padded 0]).length 40) =
      parse_whole (content [padded 20, padded 0]) := by
  have hfirst : (content [padded 20]).length = 53 := by
    rw [content, List.flatMap_cons, List.flatMap_nil, List.append_nil, length_padded]
  have hsize : (content [padded 20, padded 0]).length = 86 := by
    rw [content, List.flatMap_cons, List.flatMap_cons, List.flatMap_nil, List.append_nil, List.length_append,
      length_padded, length_padded]
  refine (parse_parts_iff (hsize.trans_le (by decide)) (by decide) 0 []).mpr fun pre s post hss _ => ?_
  cases pre with
  | nil =>
    refine .inl ⟨0, by decide, fun k hk => ?_⟩
    have hzero : (content []).length = 0 := rfl
    rw [hzero] at hk
    omega
  | cons p pre =>
    obtain ⟨rfl, hrest⟩ := List.cons_eq_cons.mp hss
    have hshort : [padded 0].length = (pre ++ s :: post).length := congrArg List.length hrest
    simp only [List.length_append, List.length_cons, List.length_nil] at hshort
    obtain rfl : pre = [] := List.eq_nil_of_length_eq_zero (by omega)
    rw [hfirst]
    exact .inr fun k hk => by omega

/-- The second section starts one byte before a boundary: no chunk parses it. -/
theorem parse_parts_not_whole : ¬ ∀ (ss : List Section) (unit : ℕ), (content ss).length ≤ 2 ^ 64 → 0 < unit →
    parse_parts (content ss) (parts 0 [] (content ss).length unit) = parse_whole (content ss) := by
  intro hall
  have hlen : (content [padded 33554398, padded 0]).length = 33554431 + 33 := by
    rw [content, List.flatMap_cons, List.flatMap_cons, List.flatMap_nil, List.append_nil, List.length_append,
      length_padded, length_padded]
  have hsize : (content [padded 33554398, padded 0]).length ≤ 2 ^ 64 := hlen.trans_le (by decide)
  have h0 : 0 < MIN_UNIT_SIZE := by decide
  have heq := hall [padded 33554398, padded 0] MIN_UNIT_SIZE hsize h0
  rw [parse_parts_eq _ end_parts, map_start_parts, starts, parse_whole_eq hsize, Except.ok.injEq] at heq
  have hcut := cutOnce_of_eq h0 (length_le_starts _ h0) heq (33554431, padded 0)
    (mem_located.mpr ⟨[padded 33554398], [], rfl, by
      rw [content, List.flatMap_cons, List.flatMap_nil, List.append_nil, length_padded]⟩) (List.cons_ne_nil _ _)
  have hunit : MIN_UNIT_SIZE = 33554432 := rfl
  rw [CutOnce, hunit] at hcut
  rcases hcut with ⟨k, hk, -⟩ | hnone
  · omega
  · exact hnone 1 (by omega)

end SEDiff.Juxta
