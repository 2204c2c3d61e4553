import SEDiff.Juxta.Distance

/-!
# Ranges cut by overlaps

What `__diff_out` of `rsv.py` makes of a list of ranges, one overlap after the other. When an overlap
lies strictly inside a range that outweighs it, the rest of the range's weight is kept on the whole
range, and not on the overlap only, so that both sides of the overlap count twice until a later
overlap takes that weight off too.

## What is proved

* `RangeSet.rhoOf_pieces` — the density of the pieces is what the ranges have above the overlaps,
  plus what counts twice.
* `RangeSet.pieces_exact_iff` — nothing counts twice exactly when every overlap strictly inside an
  untouched part of a heavier range is made good by the later ones.
-/

namespace SEDiff.Juxta

open Foundation

namespace RangeSet

/-- Well-formed ranges that are apart from each other. -/
structure Tidy (rs : List Range) : Prop where
  /-- Each is well formed. -/
  wf : ∀ r ∈ rs, r.WF
  /-- No integer lies in two of them. -/
  disjoint : rs.Pairwise Range.Disjoint

theorem rhoOf_nil (x : ℤ) : rhoOf [] x = 0 := rfl

theorem rhoOf_cons (r : Range) (rs : List Range) (x : ℤ) : rhoOf (r :: rs) x = r.rho x + rhoOf rs x := by
  rw [rhoOf, List.map_cons, listSum_cons]
  rfl

theorem rhoOf_append (rs ss : List Range) (x : ℤ) : rhoOf (rs ++ ss) x = rhoOf rs x + rhoOf ss x := by
  simp [rhoOf, listSum]

theorem rhoOf_perm {rs ss : List Range} (hp : rs.Perm ss) (x : ℤ) : rhoOf rs x = rhoOf ss x :=
  (((hp.map Range.rho).map fun f : ℤ → ℚ => f x)).sum_eq

/-! ### One range and one overlap -/

/-- What is left of a range that loses the weight `w`. -/
def lighten (w : ℚ) (r : Range) : List Range :=
  if w < r.weight then [{ r with weight := r.weight - w }] else []

/-- How an overlap `g` cuts a range `p`: the cases of `__diff_out`. -/
inductive CutCase (g p : Range) : List Range → Prop
  /-- Case 0: they are apart, or the range weighs nothing. -/
  | apart : p.stop < g.start ∨ g.stop < p.start ∨ p.weight = 0 → CutCase g p [p]
  /-- Case 1: the overlap is the whole range. -/
  | whole : 0 < p.weight → g.start ≤ p.start → p.stop ≤ g.stop → CutCase g p (lighten g.weight p)
  /-- Case 2: the range sticks out on both sides. -/
  | inside : 0 < p.weight → p.start < g.start → g.stop < p.stop →
      CutCase g p ([{ p with stop := g.start - 1 }, { p with start := g.stop + 1 }] ++ lighten g.weight p)
  /-- Case 3: it sticks out on the right. -/
  | head : 0 < p.weight → g.start ≤ p.start → p.start ≤ g.stop → g.stop < p.stop →
      CutCase g p ({ p with start := g.stop + 1 } :: lighten g.weight { p with stop := g.stop })
  /-- Case 3: it sticks out on the left. -/
  | tail : 0 < p.weight → p.start < g.start → g.start ≤ p.stop → p.stop ≤ g.stop →
      CutCase g p ({ p with stop := g.start - 1 } :: lighten g.weight { p with start := g.start })

/-- `__diff_out` on one range, for an overlap. -/
def cutBy (g p : Range) : List Range := diff_out1 g.start g.stop g.weight p

theorem lighten_eq (w : ℚ) {p r : Range} (hw : r.weight = p.weight) :
    (if 0 < p.weight - min p.weight w then [{ r with weight := p.weight - min p.weight w }] else []) =
      lighten w r := by
  unfold lighten
  rcases le_total p.weight w with hle | hle
  · rw [min_eq_left hle, sub_self, if_neg (lt_irrefl _), if_neg (by rw [hw]; exact not_lt.mpr hle)]
  · rw [min_eq_right hle, hw]
    simp only [sub_pos]

theorem cutCase {g p : Range} (hg : g.start ≤ g.stop) (hp : p.WF) : CutCase g p (cutBy g p) := by
  have hsane := hp.sane
  unfold cutBy diff_out1
  simp only
  by_cases h0 : max p.start g.start > min p.stop g.stop ∨ p.weight ≤ 0
  · rw [if_pos h0]
    apply CutCase.apart
    rcases h0 with h0 | h0
    · omega
    · exact .inr (.inr (le_antisymm h0 hp.nonneg))
  rw [if_neg h0]
  obtain ⟨hover, hpos⟩ := not_or.mp h0
  have hpos := not_le.mp hpos
  by_cases h1 : p.start = max p.start g.start ∧ p.stop = min p.stop g.stop
  · rw [if_pos h1, lighten_eq g.weight rfl]
    exact .whole hpos (by omega) (by omega)
  rw [if_neg h1]
  by_cases h2 : p.start < max p.start g.start ∧ min p.stop g.stop < p.stop
  · have hs : max p.start g.start = g.start := by omega
    have he : min p.stop g.stop = g.stop := by omega
    rw [if_pos h2, lighten_eq g.weight rfl, hs, he]
    exact .inside hpos (by omega) (by omega)
  rw [if_neg h2]
  by_cases h3 : p.start = max p.start g.start
  · have he : min p.stop g.stop = g.stop := by omega
    rw [if_pos h3, he, lighten_eq g.weight (p := p) (r := { p with stop := g.stop }) rfl]
    exact .head hpos (by omega) (by omega) (by omega)
  · have hs : max p.start g.start = g.start := by omega
    rw [if_neg h3, if_pos (by omega), hs,
      lighten_eq g.weight (p := p) (r := { p with start := g.start }) rfl]
    exact .tail hpos (by omega) (by omega) (by omega)

/-! ### What counts twice -/

/-- What a range has above the level `b`, as a density. -/
def above (b : ℚ) (p : Range) : ℤ → ℚ := box p.start p.stop (max (p.weight - b) 0)

/-- What ranges have above the level `b`. -/
def aboveOf (b : ℚ) (ps : List Range) (x : ℤ) : ℚ := (ps.map fun p => above b p x).sum

/-- What of `p` above the level `b` counts twice at `x` once `g` has cut `p` in two. -/
def bump (g : Range) (b : ℚ) (p : Range) (x : ℤ) : ℚ :=
  if (p.start < g.start ∧ g.stop < p.stop) ∧ (p.start ≤ x ∧ x ≤ p.stop) ∧ ¬ (g.start ≤ x ∧ x ≤ g.stop) then
    max (p.weight - g.weight - b) 0
  else 0

theorem above_lighten {w b : ℚ} (hb : 0 ≤ b) (r : Range) (x : ℤ) :
    aboveOf b (lighten w r) x = box r.start r.stop (max (r.weight - w - b) 0) x := by
  unfold lighten
  split_ifs with hw
  · simp [aboveOf, above]
  · have hneg : r.weight - w - b ≤ 0 := by linarith [not_lt.mp hw]
    rw [max_eq_right hneg]
    simp [aboveOf, box]

theorem aboveOf_cons (b : ℚ) (p : Range) (ps : List Range) (x : ℤ) :
    aboveOf b (p :: ps) x = above b p x + aboveOf b ps x := List.sum_cons

theorem aboveOf_append (b : ℚ) (ps qs : List Range) (x : ℤ) :
    aboveOf b (ps ++ qs) x = aboveOf b ps x + aboveOf b qs x := by simp [aboveOf]

/-- **One cut**: at each integer the overlap raises the level by its weight, and a range that it cuts
in two counts twice outside it. -/
theorem CutCase.aboveOf_eq {g p : Range} {qs : List Range} (hc : CutCase g p qs) (hg : g.start ≤ g.stop)
    (hw : 0 ≤ g.weight) {b : ℚ} (hb : 0 ≤ b) (x : ℤ) :
    aboveOf b qs x = above (b + g.rho x) p x + bump g b p x := by
  have hsub : p.weight - (b + g.weight) = p.weight - g.weight - b := by ring
  have hnil : aboveOf b [] x = 0 := rfl
  cases hc with
  | apart h =>
    rw [aboveOf_cons, hnil, add_zero, bump, Range.rho_def, above, above, box, box]
    by_cases hp : p.weight = 0
    · have h1 : p.weight - b ≤ 0 := by linarith
      have h2 : p.weight - (b + if g.start ≤ x ∧ x ≤ g.stop then g.weight else 0) ≤ 0 := by
        split_ifs <;> linarith
      have h3 : p.weight - g.weight - b ≤ 0 := by linarith
      rw [max_eq_right h1, max_eq_right h2, max_eq_right h3]
      simp
    · have hap : p.stop < g.start ∨ g.stop < p.start := by tauto
      by_cases hx : p.start ≤ x ∧ x ≤ p.stop
      · rw [if_pos hx, if_pos hx, if_neg (by omega), if_neg (by omega), add_zero, add_zero]
      · rw [if_neg hx, if_neg hx, if_neg (by omega), add_zero]
  | whole hpos h1 h2 =>
    rw [above_lighten hb, bump, Range.rho_def, above, box, box]
    by_cases hx : p.start ≤ x ∧ x ≤ p.stop
    · rw [if_pos hx, if_pos hx, if_pos (by omega), if_neg (by omega), hsub, add_zero]
    · rw [if_neg hx, if_neg hx, if_neg (by omega), add_zero]
  | inside hpos h1 h2 =>
    rw [aboveOf_append, above_lighten hb, aboveOf_cons, aboveOf_cons, hnil, bump, Range.rho_def]
    simp only [above, box]
    by_cases hx : p.start ≤ x ∧ x ≤ p.stop
    · by_cases hgx : g.start ≤ x ∧ x ≤ g.stop
      · rw [if_neg (by omega), if_neg (by omega), if_pos hx, if_pos hx, if_pos hgx, if_neg (by omega), hsub]
        ring
      · have hout : (p.start < g.start ∧ g.stop < p.stop) ∧ (p.start ≤ x ∧ x ≤ p.stop) ∧
            ¬ (g.start ≤ x ∧ x ≤ g.stop) := ⟨⟨h1, h2⟩, hx, hgx⟩
        rw [if_pos hout, if_pos hx, if_pos hx, if_neg hgx, add_zero]
        by_cases hl : x < g.start
        · rw [if_pos (by omega), if_neg (by omega)]
          simp only [add_zero]
        · rw [if_neg (by omega), if_pos (by omega)]
          simp only [add_zero, zero_add]
    · rw [if_neg (by omega), if_neg (by omega), if_neg hx, if_neg hx, if_neg (by omega)]
      ring
  | head hpos h1 h2 h3 =>
    rw [aboveOf_cons, above_lighten hb, bump, Range.rho_def]
    simp only [above, box]
    by_cases hx : p.start ≤ x ∧ x ≤ p.stop
    · by_cases hgx : g.start ≤ x ∧ x ≤ g.stop
      · rw [if_neg (by omega), if_pos (by omega), if_pos hx, if_pos hgx, if_neg (by omega), hsub]
        ring
      · rw [if_pos (by omega), if_neg (by omega), if_pos hx, if_neg hgx, if_neg (by omega)]
        simp only [add_zero]
    · rw [if_neg (by omega), if_neg (by omega), if_neg hx, if_neg (by omega)]
  | tail hpos h1 h2 h3 =>
    rw [aboveOf_cons, above_lighten hb, bump, Range.rho_def]
    simp only [above, box]
    by_cases hx : p.start ≤ x ∧ x ≤ p.stop
    · by_cases hgx : g.start ≤ x ∧ x ≤ g.stop
      · rw [if_neg (by omega), if_pos (by omega), if_pos hx, if_pos hgx, if_neg (by omega), hsub]
        ring
      · rw [if_pos (by omega), if_neg (by omega), if_pos hx, if_neg hgx, if_neg (by omega)]
        simp only [add_zero]
    · rw [if_neg (by omega), if_neg (by omega), if_neg hx, if_neg (by omega)]

theorem mem_lighten {w : ℚ} {r q : Range} (hq : q ∈ lighten w r) :
    w < r.weight ∧ q = { r with weight := r.weight - w } := by
  unfold lighten at hq
  split_ifs at hq with hw
  · exact ⟨hw, List.mem_singleton.mp hq⟩
  · cases hq

/-- A part of the range apart from the overlap stays in one piece, with its weight. -/
theorem CutCase.keeps {g p : Range} {qs : List Range} (hc : CutCase g p qs) {u v : ℤ}
    (hu : p.start ≤ u) (huv : u ≤ v) (hv : v ≤ p.stop) (hap : v < g.start ∨ g.stop < u) :
    ∃ q ∈ qs, q.weight = p.weight ∧ q.start ≤ u ∧ v ≤ q.stop := by
  cases hc with
  | apart h => exact ⟨p, List.mem_singleton_self _, rfl, hu, hv⟩
  | whole hpos h1 h2 => omega
  | inside hpos h1 h2 =>
    rcases hap with h | h
    · exact ⟨_, List.mem_cons_self, rfl, hu, Int.le_sub_one_of_lt h⟩
    · exact ⟨_, List.mem_cons_of_mem _ List.mem_cons_self, rfl, h, hv⟩
  | head hpos h1 h2 h3 => exact ⟨_, List.mem_cons_self, rfl, by simp only; omega, hv⟩
  | tail hpos h1 h2 h3 => exact ⟨_, List.mem_cons_self, rfl, hu, by simp only; omega⟩

/-- A piece of `p` once `g` has cut it: a part apart from `g`, with the weight of `p`, or what is
left of the weight, on a part inside `g` or, when `p` sticks out on both sides, anywhere. -/
structure PieceOf (g p q : Range) : Prop where
  /-- It is well formed. -/
  wf : q.WF
  /-- It lies in the range. -/
  within : q.Within p
  /-- What it weighs, and where it lies. -/
  case : q.weight = p.weight ∧ (q.weight = 0 ∨ q.Disjoint g) ∨
    g.weight < p.weight ∧ q.weight = p.weight - g.weight ∧ ¬ p.Disjoint g ∧
      (q.Within g ∨ p.start < g.start ∧ g.stop < p.stop)

/-- The pieces of a range. -/
theorem CutCase.piece {g p : Range} {qs : List Range} (hc : CutCase g p qs) (hg : g.start ≤ g.stop)
    (hp : p.WF) {q : Range} (hq : q ∈ qs) : PieceOf g p q := by
  have hsane := hp.sane
  cases hc with
  | apart h =>
    obtain rfl := List.mem_singleton.mp hq
    refine ⟨hp, ⟨le_rfl, le_rfl⟩, .inl ⟨rfl, ?_⟩⟩
    rcases h with h | h | h
    · exact .inr (.inl h)
    · exact .inr (.inr h)
    · exact .inl h
  | whole hpos h1 h2 =>
    obtain ⟨hlt, rfl⟩ := mem_lighten hq
    refine ⟨⟨hsane, (sub_pos.mpr hlt).le⟩, ⟨le_rfl, le_rfl⟩, .inr ⟨hlt, rfl, ?_, .inl ⟨h1, h2⟩⟩⟩
    rintro (h | h) <;> omega
  | inside hpos h1 h2 =>
    rcases List.mem_append.mp hq with hq | hq
    · simp only [List.mem_cons, List.not_mem_nil, or_false] at hq
      rcases hq with rfl | rfl
      · exact ⟨⟨by simp only; omega, hp.nonneg⟩, ⟨le_rfl, by simp only; omega⟩,
          .inl ⟨rfl, .inr (.inl (Int.sub_one_lt_of_le le_rfl))⟩⟩
      · exact ⟨⟨by simp only; omega, hp.nonneg⟩, ⟨by simp only; omega, le_rfl⟩,
          .inl ⟨rfl, .inr (.inr (Int.lt_add_one_of_le le_rfl))⟩⟩
    · obtain ⟨hlt, rfl⟩ := mem_lighten hq
      refine ⟨⟨hsane, (sub_pos.mpr hlt).le⟩, ⟨le_rfl, le_rfl⟩, .inr ⟨hlt, rfl, ?_, .inr ⟨h1, h2⟩⟩⟩
      rintro (h | h) <;> omega
  | head hpos h1 h2 h3 =>
    rcases List.mem_cons.mp hq with rfl | hq
    · exact ⟨⟨by simp only; omega, hp.nonneg⟩, ⟨by simp only; omega, le_rfl⟩,
        .inl ⟨rfl, .inr (.inr (Int.lt_add_one_of_le le_rfl))⟩⟩
    · obtain ⟨hlt, rfl⟩ := mem_lighten hq
      refine ⟨⟨h2, (sub_pos.mpr hlt).le⟩, ⟨le_rfl, h3.le⟩, .inr ⟨hlt, rfl, ?_, .inl ⟨h1, le_rfl⟩⟩⟩
      rintro (h | h) <;> omega
  | tail hpos h1 h2 h3 =>
    rcases List.mem_cons.mp hq with rfl | hq
    · exact ⟨⟨by simp only; omega, hp.nonneg⟩, ⟨le_rfl, by simp only; omega⟩,
        .inl ⟨rfl, .inr (.inl (Int.sub_one_lt_of_le le_rfl))⟩⟩
    · obtain ⟨hlt, rfl⟩ := mem_lighten hq
      refine ⟨⟨h2, (sub_pos.mpr hlt).le⟩, ⟨h1.le, le_rfl⟩, .inr ⟨hlt, rfl, ?_, .inl ⟨le_rfl, h3⟩⟩⟩
      rintro (h | h) <;> omega

/-! ### One overlap after the other -/

/-- An overlap: it covers at least one integer, with some weight. -/
structure Overlap (g : Range) : Prop where
  /-- It is not empty. -/
  sane : g.start ≤ g.stop
  /-- It weighs something. -/
  pos : 0 < g.weight

/-- `__diff_out` for each overlap. -/
def pieces : List Range → List Range → List Range
  | ps, [] => ps
  | ps, g :: gs => pieces (ps.flatMap (cutBy g)) gs

/-- What counts twice at `x` in the end. -/
def bumps (x : ℤ) : List Range → List Range → ℚ
  | _, [] => 0
  | ps, g :: gs => (ps.map fun p => bump g (rhoOf gs x) p x).sum + bumps x (ps.flatMap (cutBy g)) gs

theorem cutBy_wf {g : Range} (hg : Overlap g) {ps : List Range} (hps : ∀ p ∈ ps, p.WF) :
    ∀ q ∈ ps.flatMap (cutBy g), q.WF := by
  intro q hq
  obtain ⟨p, hp, hq⟩ := List.mem_flatMap.mp hq
  exact ((cutCase hg.sane (hps p hp)).piece hg.sane (hps p hp) hq).wf

theorem aboveOf_flatMap (b : ℚ) (f : Range → List Range) (ps : List Range) (x : ℤ) :
    aboveOf b (ps.flatMap f) x = (ps.map fun p => aboveOf b (f p) x).sum := by
  induction ps with
  | nil => rfl
  | cons p ps ih => rw [List.flatMap_cons, aboveOf_append, ih, List.map_cons, List.sum_cons]

theorem aboveOf_zero {ps : List Range} (hps : ∀ p ∈ ps, p.WF) (x : ℤ) : aboveOf 0 ps x = rhoOf ps x := by
  induction ps with
  | nil => rfl
  | cons p ps ih =>
    have hp := (hps p List.mem_cons_self).nonneg
    rw [aboveOf_cons, rhoOf_cons, ih fun q hq => hps q (List.mem_cons_of_mem _ hq), above, sub_zero,
      max_eq_left hp]
    rfl

/-- **The density of the pieces**: what the ranges have above the overlaps, and what counts twice. -/
theorem rhoOf_pieces {gs : List Range} (hgs : ∀ g ∈ gs, Overlap g) {ps : List Range} (hps : ∀ p ∈ ps, p.WF)
    (x : ℤ) : rhoOf (pieces ps gs) x = aboveOf (rhoOf gs x) ps x + bumps x ps gs := by
  induction gs generalizing ps with
  | nil =>
    rw [rhoOf_nil, aboveOf_zero hps, bumps, add_zero]
    rfl
  | cons g gs ih =>
    have hg := hgs g List.mem_cons_self
    have hrest := fun g' hg' => hgs g' (List.mem_cons_of_mem _ hg')
    have hnn : 0 ≤ rhoOf gs x := rhoOf_nonneg (fun g' hg' => ⟨(hrest g' hg').sane, (hrest g' hg').pos.le⟩) x
    have hcut : aboveOf (rhoOf gs x) (ps.flatMap (cutBy g)) x =
        aboveOf (rhoOf (g :: gs) x) ps x + (ps.map fun p => bump g (rhoOf gs x) p x).sum := by
      have heach : ∀ p ∈ ps, aboveOf (rhoOf gs x) (cutBy g p) x =
          above (rhoOf (g :: gs) x) p x + bump g (rhoOf gs x) p x := by
        intro p hp
        rw [(cutCase hg.sane (hps p hp)).aboveOf_eq hg.sane hg.pos.le hnn, rhoOf_cons, add_comm (rhoOf gs x)]
      rw [aboveOf_flatMap, List.map_congr_left heach, List.sum_map_add]
      rfl
    rw [pieces, ih hrest (cutBy_wf hg hps), hcut, bumps, add_assoc]

/-- No piece counts twice anywhere: each overlap that cuts a piece in two is made good at every
other integer of the piece by the overlaps still to come. -/
def NoBump : List Range → List Range → Prop
  | _, [] => True
  | ps, g :: gs =>
    (∀ p ∈ ps, p.start < g.start → g.stop < p.stop → ∀ x, p.start ≤ x → x ≤ p.stop →
      x < g.start ∨ g.stop < x → p.weight ≤ g.weight + rhoOf gs x) ∧
    NoBump (ps.flatMap (cutBy g)) gs

theorem bump_nonneg (g : Range) (b : ℚ) (p : Range) (x : ℤ) : 0 ≤ bump g b p x := by
  unfold bump
  split_ifs
  · exact le_max_right _ _
  · exact le_rfl

theorem bump_eq_zero_iff {g : Range} {b : ℚ} {p : Range} {x : ℤ} :
    bump g b p x = 0 ↔ (p.start < g.start → g.stop < p.stop → p.start ≤ x → x ≤ p.stop →
      x < g.start ∨ g.stop < x → p.weight ≤ g.weight + b) := by
  unfold bump
  split_ifs with hx
  · rw [max_eq_right_iff]
    constructor
    · intro hle _ _ _ _ _
      linarith
    · intro h
      have := h hx.1.1 hx.1.2 hx.2.1.1 hx.2.1.2 (by omega)
      linarith
  · refine iff_of_true rfl fun h1 h2 h3 h4 h5 => absurd ⟨⟨h1, h2⟩, ⟨h3, h4⟩, ?_⟩ hx
    omega

theorem bumps_nonneg (x : ℤ) (ps gs : List Range) : 0 ≤ bumps x ps gs := by
  induction gs generalizing ps with
  | nil => exact le_rfl
  | cons g gs ih =>
    refine add_nonneg (List.sum_nonneg fun v hv => ?_) (ih _)
    obtain ⟨p, -, rfl⟩ := List.mem_map.mp hv
    exact bump_nonneg _ _ _ _

/-- A sum of things that are not negative vanishes when each of them does. -/
theorem sum_map_eq_zero_iff {α : Type*} {f : α → ℚ} (hf : ∀ a, 0 ≤ f a) {l : List α} :
    (l.map f).sum = 0 ↔ ∀ a ∈ l, f a = 0 := by
  induction l with
  | nil => simp
  | cons a l ih =>
    have hnn : 0 ≤ (l.map f).sum := List.sum_nonneg fun v hv => by
      obtain ⟨b, -, rfl⟩ := List.mem_map.mp hv
      exact hf b
    rw [List.map_cons, List.sum_cons, add_eq_zero_iff_of_nonneg (hf a) hnn, ih, List.forall_mem_cons]

theorem bumps_eq_zero_iff {ps gs : List Range} : (∀ x, bumps x ps gs = 0) ↔ NoBump ps gs := by
  induction gs generalizing ps with
  | nil => exact iff_of_true (fun _ => rfl) trivial
  | cons g gs ih =>
    have hsum : ∀ x, 0 ≤ (ps.map fun p => bump g (rhoOf gs x) p x).sum := fun x =>
      List.sum_nonneg fun v hv => by
        obtain ⟨p, -, rfl⟩ := List.mem_map.mp hv
        exact bump_nonneg _ _ _ _
    have hsplit : ∀ x, bumps x ps (g :: gs) = 0 ↔
        (∀ p ∈ ps, bump g (rhoOf gs x) p x = 0) ∧ bumps x (ps.flatMap (cutBy g)) gs = 0 := fun x => by
      rw [bumps, add_eq_zero_iff_of_nonneg (hsum x) (bumps_nonneg _ _ _), sum_map_eq_zero_iff fun p => bump_nonneg _ _ _ _]
    rw [NoBump, ← ih]
    constructor
    · intro h
      refine ⟨fun p hp h1 h2 x h3 h4 h5 => ?_, fun x => ((hsplit x).mp (h x)).2⟩
      exact bump_eq_zero_iff.mp (((hsplit x).mp (h x)).1 p hp) h1 h2 h3 h4 h5
    · rintro ⟨h1, h2⟩ x
      refine (hsplit x).mpr ⟨fun p hp => bump_eq_zero_iff.mpr fun a b c d e => h1 p hp a b x c d e, h2 x⟩

/-! ### When nothing counts twice -/

/-- Every overlap is made good: where `g` lies strictly inside an interval `[u, v]` of a heavier range
`l` and no overlap `before` it touches the interval, the later ones take off at least the rest of
the weight at every other integer of the interval. -/
def MadeGood (qs : List Range) : List Range → List Range → Prop
  | _, [] => True
  | before, g :: gs =>
    (∀ l ∈ qs, g.weight < l.weight → ∀ u v, l.start ≤ u → u < g.start → g.stop < v → v ≤ l.stop →
      (∀ b ∈ before, b.stop < u ∨ v < b.start) → ∀ x, u ≤ x → x ≤ v → x < g.start ∨ g.stop < x →
        l.weight ≤ g.weight + rhoOf gs x) ∧
    MadeGood qs (before ++ [g]) gs

/-- An interval of a range that no overlap has touched is in one piece. -/
def Unbroken (qs before ps : List Range) : Prop :=
  ∀ l ∈ qs, ∀ u v, l.start ≤ u → u ≤ v → v ≤ l.stop → (∀ b ∈ before, b.stop < u ∨ v < b.start) →
    ∃ p ∈ ps, p.weight = l.weight ∧ p.start ≤ u ∧ v ≤ p.stop

theorem Unbroken.step {qs before ps : List Range} (hu : Unbroken qs before ps) {g : Range} (hg : Overlap g)
    (hps : ∀ p ∈ ps, p.WF) : Unbroken qs (before ++ [g]) (ps.flatMap (cutBy g)) := by
  intro l hl u v h1 h2 h3 hb
  obtain ⟨p, hp, hpw, hpu, hpv⟩ := hu l hl u v h1 h2 h3 fun b hm => hb b (List.mem_append_left _ hm)
  have hap := hb g (List.mem_append_right _ (List.mem_singleton_self g))
  obtain ⟨q, hq, hqw, hqu, hqv⟩ := (cutCase hg.sane (hps p hp)).keeps hpu h2 hpv hap.symm
  exact ⟨q, List.mem_flatMap.mpr ⟨p, hp, hq⟩, hqw.trans hpw, hqu, hqv⟩

theorem madeGood_of_noBump {qs before gs ps : List Range} (hgs : ∀ g ∈ gs, Overlap g)
    (hps : ∀ p ∈ ps, p.WF) (hu : Unbroken qs before ps) (hn : NoBump ps gs) : MadeGood qs before gs := by
  induction gs generalizing before ps with
  | nil => trivial
  | cons g gs ih =>
    have hg := hgs g List.mem_cons_self
    constructor
    · intro l hl _ u v h1 h2 h3 h4 hb x hxu hxv hx
      have hsane := hg.sane
      obtain ⟨p, hp, hpw, hpu, hpv⟩ := hu l hl u v h1 (by omega) h4 hb
      rw [← hpw]
      exact hn.1 p hp (by omega) (by omega) x (by omega) (by omega) hx
    · exact ih (fun g' hg' => hgs g' (List.mem_cons_of_mem _ hg')) (cutBy_wf hg hps) (hu.step hg hps) hn.2

/-- Where a piece comes from when every overlap is made good. -/
def Comes (qs before gs : List Range) (p : Range) : Prop :=
  p.weight = 0 ∨ ∃ l ∈ qs, p.Within l ∧
    (p.weight = l.weight ∧ (∀ b ∈ before, b.stop < p.start ∨ p.stop < b.start) ∨
      ∃ b ∈ before, p.weight = l.weight - b.weight ∧
        ∀ x, p.start ≤ x → x ≤ p.stop → b.start ≤ x ∧ x ≤ b.stop ∨ l.weight ≤ b.weight + rhoOf gs x)

/-- At an integer of one overlap the later ones weigh nothing. -/
theorem rhoOf_of_mem {g : Range} {gs : List Range} (hd : ∀ g' ∈ gs, g.Disjoint g') {x : ℤ}
    (hx : g.start ≤ x ∧ x ≤ g.stop) : rhoOf (g :: gs) x = g.weight ∧ rhoOf gs x = 0 := by
  have hzero : rhoOf gs x = 0 := List.sum_eq_zero fun v hv => by
    obtain ⟨f, hf, rfl⟩ := List.mem_map.mp hv
    obtain ⟨g', hg', rfl⟩ := List.mem_map.mp hf
    refine box_of_not_mem fun hx' => ?_
    rcases hd g' hg' with h | h <;> omega
  refine ⟨?_, hzero⟩
  rw [rhoOf_cons, hzero, add_zero]
  exact box_of_mem hx

theorem rhoOf_of_not_mem {g : Range} (gs : List Range) {x : ℤ} (hx : x < g.start ∨ g.stop < x) :
    rhoOf (g :: gs) x = rhoOf gs x := by
  rw [rhoOf_cons, Range.rho_def, if_neg (by omega), zero_add]

/-- A piece that is left of another overlap weighs no more than the next one it meets. -/
theorem weight_le_of_meets {l b g p : Range} {gs : List Range} (hd : ∀ g' ∈ gs, g.Disjoint g')
    (hbg : b.Disjoint g) (hpw : p.weight = l.weight - b.weight)
    (hx : ∀ x, p.start ≤ x → x ≤ p.stop → b.start ≤ x ∧ x ≤ b.stop ∨ l.weight ≤ b.weight + rhoOf (g :: gs) x)
    {z : ℤ} (hzp : p.start ≤ z ∧ z ≤ p.stop) (hzg : g.start ≤ z ∧ z ≤ g.stop) : p.weight ≤ g.weight := by
  rcases hx z hzp.1 hzp.2 with hzb | hle
  · rcases hbg with h | h <;> omega
  · rw [(rhoOf_of_mem hd hzg).1] at hle
    linarith

theorem Comes.step {qs before gs : List Range} {g p q : Range} (hg : Overlap g)
    (hd : ∀ g' ∈ gs, g.Disjoint g') (hbg : ∀ b ∈ before, b.Disjoint g)
    (hgood : MadeGood qs before (g :: gs)) (hc : Comes qs before (g :: gs) p) (hpq : PieceOf g p q) :
    Comes qs (before ++ [g]) gs q := by
  have hgm : g ∈ before ++ [g] := List.mem_append_right _ (List.mem_singleton_self g)
  have hqs := hpq.wf.sane
  obtain ⟨hin1, hin2⟩ := hpq.within
  rcases hpq.case with ⟨hqw, hzero | hap⟩ | ⟨hlt, hqw, hmeet, hwhere⟩
  · exact .inl hzero
  · -- apart from the overlap: what could be said of the range still can
    rcases hc with hzero | ⟨l, hl, ⟨hl1, hl2⟩, hcase⟩
    · exact .inl (hqw.trans hzero)
    refine .inr ⟨l, hl, ⟨by omega, by omega⟩, ?_⟩
    rcases hcase with ⟨hpw, hfree⟩ | ⟨b, hb, hpw, hx⟩
    · refine .inl ⟨hqw.trans hpw, fun b hb => ?_⟩
      rcases List.mem_append.mp hb with hb | hb
      · rcases hfree b hb with h | h <;> omega
      · obtain rfl := List.mem_singleton.mp hb
        exact hap.symm
    · refine .inr ⟨b, List.mem_append_left _ hb, hqw.trans hpw, fun x h1 h2 => ?_⟩
      rw [← rhoOf_of_not_mem gs (g := g) (x := x) (by rcases hap with h | h <;> omega)]
      exact hx x (by omega) (by omega)
  · rcases hc with hzero | ⟨l, hl, ⟨hl1, hl2⟩, ⟨hpw, hfree⟩ | ⟨b, hb, hpw, hx⟩⟩
    · linarith [hg.pos]
    · -- the rest of the weight of an untouched part
      refine .inr ⟨l, hl, ⟨by omega, by omega⟩, .inr ⟨g, hgm, by rw [hqw, hpw], fun x h1 h2 => ?_⟩⟩
      by_cases hxg : g.start ≤ x ∧ x ≤ g.stop
      · exact .inl hxg
      · rcases hwhere with ⟨hw1, hw2⟩ | ⟨hs1, hs2⟩
        · omega
        · exact .inr (hgood.1 l hl (hpw ▸ hlt) p.start p.stop hl1 hs1 hs2 hl2 hfree x (by omega) (by omega)
            (by omega))
    · -- the rest of a rest: there is none
      have hle : p.weight ≤ g.weight := by
        unfold Range.Disjoint at hmeet
        have hsane := hg.sane
        exact weight_le_of_meets hd (hbg b hb) hpw hx (z := max p.start g.start) ⟨by omega, by omega⟩ ⟨by omega, by omega⟩
      exact absurd hlt (not_lt.mpr hle)

theorem noBump_of_madeGood {qs before gs ps : List Range} (hgs : ∀ g ∈ gs, Overlap g)
    (hd : (before ++ gs).Pairwise Range.Disjoint) (hps : ∀ p ∈ ps, p.WF)
    (hc : ∀ p ∈ ps, Comes qs before gs p) (hgood : MadeGood qs before gs) : NoBump ps gs := by
  induction gs generalizing before ps with
  | nil => trivial
  | cons g gs ih =>
    have hg := hgs g List.mem_cons_self
    have hrest := fun g' hg' => hgs g' (List.mem_cons_of_mem _ hg')
    obtain ⟨-, hdg, hbg⟩ := List.pairwise_append.mp hd
    have hdg := (List.pairwise_cons.mp hdg).1
    have hbg : ∀ b ∈ before, b.Disjoint g := fun b hb => hbg b hb g List.mem_cons_self
    have hsane := hg.sane
    constructor
    · intro p hp h1 h2 x h3 h4 h5
      have hnn : 0 ≤ rhoOf gs x := rhoOf_nonneg (fun g' hg' => ⟨(hrest g' hg').sane, (hrest g' hg').pos.le⟩) x
      by_cases hlt : g.weight < p.weight
      · rcases hc p hp with hzero | ⟨l, hl, ⟨hl1, hl2⟩, ⟨hpw, hfree⟩ | ⟨b, hb, hpw, hx⟩⟩
        · linarith [hg.pos]
        · rw [hpw]
          exact hgood.1 l hl (hpw ▸ hlt) p.start p.stop hl1 h1 h2 hl2 hfree x h3 h4 h5
        · have hle := weight_le_of_meets hdg (hbg b hb) hpw hx (z := g.start) ⟨by omega, by omega⟩ ⟨le_rfl, hsane⟩
          linarith
      · linarith [not_lt.mp hlt]
    · refine ih hrest (by rw [List.append_assoc]; exact hd) (cutBy_wf hg hps) (fun q hq => ?_) hgood.2
      obtain ⟨p, hp, hq⟩ := List.mem_flatMap.mp hq
      exact (hc p hp).step hg hdg hbg hgood ((cutCase hsane (hps p hp)).piece hsane (hps p hp) hq)

/-- **Nothing counts twice** exactly when every overlap is made good. -/
theorem noBump_iff {qs gs : List Range} (hqs : ∀ q ∈ qs, q.WF) (hgs : ∀ g ∈ gs, Overlap g)
    (hd : gs.Pairwise Range.Disjoint) : NoBump qs gs ↔ MadeGood qs [] gs := by
  constructor
  · intro hn
    exact madeGood_of_noBump hgs hqs (fun l hl u v h1 h2 h3 _ => ⟨l, hl, rfl, h1, h3⟩) hn
  · intro hgood
    have hd' : ([] ++ gs).Pairwise Range.Disjoint := hd
    refine noBump_of_madeGood hgs hd' hqs (fun p hp => ?_) hgood
    exact .inr ⟨p, hp, ⟨le_rfl, le_rfl⟩, .inl ⟨rfl, by simp⟩⟩

/-- Apart ranges have above a level what their density has above it. -/
theorem aboveOf_tidy {qs : List Range} (hq : Tidy qs) {b : ℚ} (hb : 0 ≤ b) (x : ℤ) :
    aboveOf b qs x = max (rhoOf qs x - b) 0 := by
  obtain ⟨hwf, hd⟩ := hq
  induction qs with
  | nil =>
    rw [rhoOf_nil, zero_sub, max_eq_right (neg_nonpos.mpr hb)]
    rfl
  | cons q qs ih =>
    rw [List.pairwise_cons] at hd
    rw [aboveOf_cons, ih (fun p hp => hwf p (List.mem_cons_of_mem _ hp)) hd.2, above]
    by_cases hx : q.start ≤ x ∧ x ≤ q.stop
    · obtain ⟨hrho, hzero⟩ := rhoOf_of_mem hd.1 hx
      rw [box_of_mem hx, hrho, hzero, zero_sub, max_eq_right (neg_nonpos.mpr hb), add_zero]
    · rw [box_of_not_mem hx, rhoOf_of_not_mem qs (by omega), zero_add]

/-- The pieces have the density of what the ranges have more than the overlaps exactly when every
overlap is made good. -/
theorem pieces_exact_iff {qs gs : List Range} (hq : Tidy qs) (hgs : ∀ g ∈ gs, Overlap g)
    (hd : gs.Pairwise Range.Disjoint) :
    (∀ x, rhoOf (pieces qs gs) x = max (rhoOf qs x - rhoOf gs x) 0) ↔ MadeGood qs [] gs := by
  rw [← noBump_iff hq.wf hgs hd, ← bumps_eq_zero_iff]
  refine forall_congr' fun x => ?_
  rw [rhoOf_pieces hgs hq.wf,
    aboveOf_tidy hq (rhoOf_nonneg (fun g hg => ⟨(hgs g hg).sane, (hgs g hg).pos.le⟩) x), add_eq_left]

end RangeSet

end SEDiff.Juxta
