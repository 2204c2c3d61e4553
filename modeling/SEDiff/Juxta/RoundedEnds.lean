import SEDiff.Juxta.Mixture

/-!
# Rounded endpoints

The ranges that `build` of `rsf.py` adds end at doubles: an endpoint is read by `float`, which rounds an integer of more than 53
digits. So what is built is compared with the mixture of the ranges as they are written.

## What is proved

* `Rsf.held_of_listed` — how the ranges of a text are held.
* `Rsf.ends_eq_of_density` — a density that is in proportion to the one of the ranges as they are written is not made of
  rounded ones.
* `Rsf.build_mixture_iff` — of ranges that are pairwise equal or disjoint as they are held, the mixture is built exactly when
  all numbers are held as they are written, and all ranges are listed equally often.
-/

namespace SEDiff.Juxta

open Foundation

namespace Rsf

/-! ### How ranges are held -/

/-- A range as it is written, and as it is held: between the nearest doubles, unless it stands for all values. -/
structure Held (w r : Range) : Prop where
  /-- The text is kept. -/
  comments : r.comments = w.comments
  /-- The ends are rounded. -/
  ends : r.ends = w.ends ∧ w.ends = (S64_MIN, S64_MAX) ∨
    (r.start : ℚ) = Double.round w.start ∧ (r.stop : ℚ) = Double.round w.stop

section Readers

variable {rs_str : Str} {ws rs : List Range}

/-- What is read exactly is an integer. -/
theorem written_eq_ok {x : Str.Num} {n : ℤ} (h : written x = .ok n) : x = .fin n := by
  cases x with
  | fin q =>
    rw [written] at h
    split_ifs at h with hden
    obtain rfl := Except.ok.inj h
    rw [Rat.coe_int_num_of_den_eq_one hden]
  | inf b => cases h
  | nan => cases h

/-- Two readings of a number. -/
theorem double_eq_round {x : Str.Num} {m n : ℤ} (hm : written x = .ok m) (hn : double x = .ok n) :
    (n : ℚ) = Double.round m := by
  obtain rfl := written_eq_ok hm
  rw [double] at hn
  split_ifs at hn
  have hround := written_eq_ok hn
  exact (Str.Num.fin.inj hround).symm

theorem float_eq_round {s : Str} {m n : ℤ} (hm : float written s = .ok m) (hn : float double s = .ok n) :
    (n : ℚ) = Double.round m := by
  rw [float] at hm hn
  cases hfloat : Str.toFloat s with
  | none =>
    rw [hfloat] at hm
    cases hm
  | some x =>
    rw [hfloat] at hm hn
    exact double_eq_round hm hn

/-- What `__new` makes. -/
theorem eq_of_new {start stop : ℤ} {comments : Str} {r : Range} (h : new start stop comments = .ok r) :
    r.start = start ∧ r.stop = stop ∧ r.comments = {String.ofList comments} := by
  by_cases hle : start ≤ stop
  · rw [new_eq hle] at h
    obtain rfl := Except.ok.inj h
    exact ⟨rfl, rfl, rfl⟩
  · have hassert : pyAssert (start ≤ stop) = .error .assertionError := if_neg hle
    rw [new] at h
    split_ifs at h
    simp only [hassert, lift] at h
    cases h

/-- Two readings of a range. -/
theorem held_of_new {start stop start' stop' : ℤ} {comments : Str} {w r : Range} (hw : new start stop comments = .ok w)
    (hr : new start' stop' comments = .ok r) (hstart : (start' : ℚ) = Double.round start)
    (hstop : (stop' : ℚ) = Double.round stop) : Held w r := by
  obtain ⟨rfl, rfl, hcomments⟩ := eq_of_new hw
  obtain ⟨rfl, rfl, hcomments'⟩ := eq_of_new hr
  exact ⟨hcomments'.trans hcomments.symm, .inr ⟨hstart, hstop⟩⟩

theorem held_of_range {s : Str} {w r : Range} (hw : range written s = .ok w) (hr : range double s = .ok r) : Held w r := by
  rw [range] at hw hr
  generalize List.splitOn ',' _ = ends at hw hr
  rcases ends with _ | ⟨lb, _ | ⟨ub, rest⟩⟩
  · cases hw
  · obtain ⟨lb, -, hw⟩ := bind_eq_ok.mp hw
    cases hw
  · obtain ⟨start, hstart, hw⟩ := bind_eq_ok.mp hw
    obtain ⟨stop, hstop, hw⟩ := bind_eq_ok.mp hw
    obtain ⟨start', hstart', hr⟩ := bind_eq_ok.mp hr
    obtain ⟨stop', hstop', hr⟩ := bind_eq_ok.mp hr
    exact held_of_new hw hr (float_eq_round hstart hstart') (float_eq_round hstop hstop')

theorem held_of_parts {parts : List Str} (hw : Parts written parts ws) (hr : Parts double parts rs) :
    List.Forall₂ Held ws rs := by
  induction hw generalizing rs with
  | nil =>
    cases hr
    exact .nil
  | cons hone _ ih =>
    cases hr with
    | cons hone' hrest => exact .cons (held_of_range hone hone') (ih hrest)

/-- **Two readings of a text** list the same ranges, with rounded ends. -/
theorem held_of_listed (hw : listed written rs_str = .ok ws) (hr : listed double rs_str = .ok rs) :
    List.Forall₂ Held ws rs := by
  obtain ⟨x, hfloat⟩ | ⟨hfloat, hs | ⟨c, s, hs⟩⟩ := text_cases rs_str
  · rw [listed, build1_number hfloat] at hw hr
    obtain ⟨start, hstart, hw⟩ := bind_eq_ok.mp hw
    obtain ⟨w, hneww, hw⟩ := bind_eq_ok.mp hw
    obtain rfl := Except.ok.inj hw
    obtain ⟨start', hstart', hr⟩ := bind_eq_ok.mp hr
    obtain ⟨r, hnewr, hr⟩ := bind_eq_ok.mp hr
    obtain rfl := Except.ok.inj hr
    have hround := double_eq_round hstart hstart'
    exact .cons (held_of_new hneww hnewr hround hround) .nil
  · rw [listed, build1_nil hfloat hs] at hw
    cases hw
  · by_cases hc : c = '['
    · subst hc
      rw [listed, build1_ranges hfloat hs] at hw hr
      obtain ⟨ws', hparts⟩ := parts_of_foldlM hw
      obtain ⟨rs', hparts'⟩ := parts_of_foldlM hr
      rw [hparts.foldlM_eq, foldlM_listed] at hw
      obtain rfl := Except.ok.inj hw
      rw [hparts'.foldlM_eq, foldlM_listed] at hr
      obtain rfl := Except.ok.inj hr
      exact held_of_parts hparts hparts'
    · rw [listed_name hfloat hs hc] at hw hr
      obtain rfl := Except.ok.inj hw
      obtain rfl := Except.ok.inj hr
      exact .cons ⟨rfl, .inl ⟨rfl, rfl⟩⟩ .nil

/-! ### Small numbers -/

theorem float_double {s : Str} {n : ℤ} (h : float written s = .ok n) (hlow : -2 ^ 53 ≤ n) (hhigh : n ≤ 2 ^ 53) :
    float double s = .ok n := by
  rw [float] at h ⊢
  cases hfloat : Str.toFloat s with
  | none =>
    rw [hfloat] at h
    cases h
  | some x =>
    rw [hfloat] at h
    obtain rfl := written_eq_ok h
    exact double_intCast hlow hhigh

theorem range_double {s : Str} {w : Range} (h : range written s = .ok w) (hlow : -2 ^ 53 ≤ w.start)
    (hhigh : w.stop ≤ 2 ^ 53) : range double s = .ok w := by
  have hsane := (massed_of_range h).sane
  rw [range] at h ⊢
  generalize List.splitOn ',' _ = ends at h ⊢
  rcases ends with _ | ⟨lb, _ | ⟨ub, rest⟩⟩
  · cases h
  · obtain ⟨lb, -, h⟩ := bind_eq_ok.mp h
    cases h
  · obtain ⟨start, hstart, h⟩ := bind_eq_ok.mp h
    obtain ⟨stop, hstop, h⟩ := bind_eq_ok.mp h
    obtain ⟨rfl, rfl, -⟩ := eq_of_new h
    dsimp only
    rw [float_double hstart hlow (hsane.trans hhigh), float_double hstop (hlow.trans hsane) hhigh]
    exact h

theorem Parts.double {parts : List Str} (h : Parts written parts ws) (hsmall : ∀ w ∈ ws, -2 ^ 53 ≤ w.start ∧ w.stop ≤ 2 ^ 53) :
    Parts double parts ws := by
  induction h with
  | nil => exact .nil
  | cons hone _ ih =>
    obtain ⟨⟨hlow, hhigh⟩, hsmall⟩ := List.forall_mem_cons.mp hsmall
    exact .cons (range_double hone hlow hhigh) (ih hsmall)

/-- **Small numbers** are held as they are written. -/
theorem listed_double (h : listed written rs_str = .ok ws) (hsmall : ∀ w ∈ ws, -2 ^ 53 ≤ w.start ∧ w.stop ≤ 2 ^ 53) :
    listed double rs_str = .ok ws := by
  obtain ⟨x, hfloat⟩ | ⟨hfloat, hs | ⟨c, s, hs⟩⟩ := text_cases rs_str
  · rw [listed, build1_number hfloat] at h ⊢
    obtain ⟨start, hstart, h⟩ := bind_eq_ok.mp h
    obtain ⟨w, hnew, hlist⟩ := bind_eq_ok.mp h
    obtain rfl := Except.ok.inj hlist
    obtain ⟨rfl, hstop, -⟩ := eq_of_new hnew
    obtain ⟨hlow, hhigh⟩ := hsmall w (by simp)
    obtain rfl := written_eq_ok hstart
    rw [double_intCast hlow (by omega)]
    exact h
  · rw [listed, build1_nil hfloat hs] at h
    cases h
  · by_cases hc : c = '['
    · subst hc
      rw [listed, build1_ranges hfloat hs] at h ⊢
      obtain ⟨ws', hparts⟩ := parts_of_foldlM h
      rw [hparts.foldlM_eq, foldlM_listed] at h
      obtain rfl := Except.ok.inj h
      rw [List.nil_append] at hsmall
      exact ((hparts.double hsmall).foldlM_eq _ _).trans (foldlM_listed _ _)
    · rw [listed_name hfloat hs hc] at h ⊢
      exact h

end Readers

/-! ### Rounded ranges are noticed -/

/-- The first end is always a double. -/
theorem Held.round_start {w r : Range} (h : Held w r) : Double.round r.start = r.start := by
  rcases h.ends with ⟨hends, hall⟩ | ⟨hstart, -⟩
  · have hmin : r.start = S64_MIN := congrArg Prod.fst (hends.trans hall)
    rw [hmin]
    decide +kernel
  · rw [hstart, Double.round_round]

/-- The last end is one too, unless the range stands for all values. -/
theorem not_round_max : Double.round (S64_MAX : ℤ) ≠ (S64_MAX : ℤ) := by decide +kernel

theorem round_le {m n a : ℤ} (ha : (a : ℚ) = Double.round m) (hn : Double.round n = n) (h : m ≤ n) : a ≤ n := by
  have hmono := @Double.round_mono m n (by exact_mod_cast h)
  rw [← ha, hn] at hmono
  exact_mod_cast hmono

theorem le_round {m n a : ℤ} (ha : (a : ℚ) = Double.round m) (hn : Double.round n = n) (h : n ≤ m) : n ≤ a := by
  have hmono := @Double.round_mono n m (by exact_mod_cast h)
  rw [← ha, hn] at hmono
  exact_mod_cast hmono

/-- Ranges as they are written, and as they are held, whose densities are in proportion. -/
structure Proportional (ps : List (Range × Range)) : Prop where
  /-- The ends are rounded. -/
  held : ∀ p ∈ ps, Held p.1 p.2
  /-- Every range has the same mass, as it is written. -/
  written : ∀ r ∈ ps.map Prod.fst, Massed r
  /-- And as it is held. -/
  massed : ∀ r ∈ ps.map Prod.snd, Massed r
  /-- What is held is equal or disjoint. -/
  equalOrDisjoint : RangeSet.EqualOrDisjoint (Listed (ps.map Prod.snd))
  /-- The densities. -/
  dens : ∃ c, ∀ x, listedDensity (ps.map Prod.fst) x = c * doubledDensity (ps.map Prod.snd) x

namespace Proportional

variable {ps : List (Range × Range)} (h : Proportional ps) {p q : Range × Range} {x y : ℤ}
include h

/-- Ranges that meet as they are held have the same ends. -/
theorem ends_eq (hp : p ∈ ps) (hq : q ∈ ps) (hpx : p.2.start ≤ x ∧ x ≤ p.2.stop) (hqx : q.2.start ≤ x ∧ x ≤ q.2.stop) :
    p.2.start = q.2.start ∧ p.2.stop = q.2.stop :=
  Prod.mk.inj (weight_at h.massed h.equalOrDisjoint (List.mem_map_of_mem hp) (List.mem_map_of_mem hq) hpx hqx).1

/-- What is written somewhere is held somewhere. -/
theorem covered (hp : p ∈ ps) (hpx : p.1.start ≤ x ∧ x ≤ p.1.stop) : ∃ q ∈ ps, q.2.start ≤ x ∧ x ≤ q.2.stop := by
  obtain ⟨c, hc⟩ := h.dens
  by_contra hnone
  push Not at hnone
  have hzero : doubledDensity (ps.map Prod.snd) x = 0 := by
    refine (density_of_not_mem fun r hr hrx => ?_).2
    obtain ⟨q, hq, rfl⟩ := List.mem_map.mp hr
    exact absurd hrx.2 (not_le.mpr (hnone q hq hrx.1))
  have hself : p.1.rho x = p.1.weight := box_of_mem hpx
  have hle : p.1.rho x ≤ listedDensity (ps.map Prod.fst) x :=
    List.single_le_sum (fun v hv => by
      obtain ⟨s, hs, rfl⟩ := List.mem_map.mp hv
      exact Range.rho_nonneg (h.written s hs).wf _) _ (List.mem_map_of_mem (List.mem_map_of_mem hp))
  have hpos := (h.written p.1 (List.mem_map_of_mem hp)).weight_pos
  rw [hc, hzero, mul_zero] at hle
  linarith

/-- **The density is the same** all over a range as it is held: where one that is written begins or ends, another one does. -/
theorem exists_of_mem (hp : p ∈ ps) (hpx : p.2.start ≤ x ∧ x ≤ p.2.stop) (hpy : p.2.start ≤ y ∧ y ≤ p.2.stop)
    (hq : q ∈ ps) (hqy : q.1.start ≤ y ∧ y ≤ q.1.stop) (hqx : ¬ (q.1.start ≤ x ∧ x ≤ q.1.stop)) :
    ∃ s ∈ ps, (s.1.start ≤ x ∧ x ≤ s.1.stop) ∧ ¬ (s.1.start ≤ y ∧ y ≤ s.1.stop) := by
  obtain ⟨c, hc⟩ := h.dens
  by_contra hnone
  push Not at hnone
  have hmem := List.mem_map_of_mem (f := Prod.snd) hp
  have hsame : listedDensity (ps.map Prod.fst) x = listedDensity (ps.map Prod.fst) y := by
    rw [hc, hc, (density_at h.massed h.equalOrDisjoint hmem hpx).2, (density_at h.massed h.equalOrDisjoint hmem hpy).2]
  refine absurd hsame (ne_of_lt (List.sum_lt_sum _ _ (fun r hr => ?_) ⟨q.1, List.mem_map_of_mem hq, ?_⟩))
  · obtain ⟨s, hs, rfl⟩ := List.mem_map.mp hr
    by_cases hsx : s.1.start ≤ x ∧ x ≤ s.1.stop
    · have hsy := hnone s hs hsx
      rw [Range.rho_def, Range.rho_def, if_pos hsx, if_pos hsy]
    · rw [Range.rho_def, if_neg hsx]
      exact Range.rho_nonneg (h.written s.1 hr).wf y
  · rw [Range.rho_def, Range.rho_def, if_neg hqx, if_pos hqy]
    exact (h.written q.1 (List.mem_map_of_mem hq)).weight_pos

theorem sane (hp : p ∈ ps) : p.1.start ≤ p.1.stop ∧ p.2.start ≤ p.2.stop :=
  ⟨(h.written p.1 (List.mem_map_of_mem hp)).sane, (h.massed p.2 (List.mem_map_of_mem hp)).sane⟩

/-- The values that are covered by a range as it is written are covered by it as it is held, if they are doubles. -/
theorem mem_of_double (hp : p ∈ ps) (hpx : p.1.start ≤ x ∧ x ≤ p.1.stop) (hx : Double.round x = x) :
    p.2.start ≤ x ∧ x ≤ p.2.stop := by
  rcases (h.held p hp).ends with ⟨hends, -⟩ | ⟨hstart, hstop⟩
  · obtain ⟨h1, h2⟩ := Prod.mk.inj hends
    rwa [h1, h2]
  · exact ⟨round_le hstart hx hpx.1, le_round hstop hx hpx.2⟩

/-- **The first integer** of a range is in the range as it is held. -/
theorem start_mem (hp : p ∈ ps) : p.2.start ≤ p.1.start ∧ p.1.start ≤ p.2.stop := by
  obtain ⟨hsane, hsane'⟩ := h.sane hp
  rcases (h.held p hp).ends with ⟨hends, -⟩ | ⟨hstart, -⟩
  · obtain ⟨h1, h2⟩ := Prod.mk.inj hends
    omega
  obtain ⟨q, hq, hqx⟩ := h.covered hp ⟨le_rfl, hsane⟩
  have hqdouble := (h.held q hq).round_start
  have hlow := le_round hstart hqdouble hqx.1
  -- the two meet at the first double, unless the other one stands for all values
  by_cases hmeet : p.2.start ≤ q.2.stop
  · obtain ⟨h1, h2⟩ := h.ends_eq hp hq ⟨le_rfl, hsane'⟩ ⟨hlow, hmeet⟩
    omega
  rcases (h.held q hq).ends with ⟨hends, hall⟩ | ⟨-, hqstop⟩
  · obtain ⟨hqmin, hqmax⟩ := Prod.mk.inj (hends.trans hall)
    have hne : q.2.start ≠ p.1.start := by
      intro heq
      rw [← heq, hqdouble] at hstart
      have : p.2.start = q.2.start := by exact_mod_cast hstart
      omega
    obtain ⟨s, hs, hsx, hsy⟩ := h.exists_of_mem hq ⟨le_rfl, (h.sane hq).2⟩ hqx hp ⟨le_rfl, hsane⟩ (by omega)
    have hsq := h.ends_eq hs hq (h.mem_of_double hs hsx hqdouble) ⟨le_rfl, (h.sane hq).2⟩
    rcases (h.held s hs).ends with ⟨hends', -⟩ | ⟨-, hsstop⟩
    · obtain ⟨h1, h2⟩ := Prod.mk.inj hends'
      omega
    · -- the last value is no double
      have hmax : s.2.stop = S64_MAX := hsq.2.trans hqmax
      have hround : Double.round s.2.stop = s.2.stop := by rw [hsstop, Double.round_round]
      rw [hmax] at hround
      exact absurd hround not_round_max
  · have hround : Double.round q.2.stop = q.2.stop := by rw [hqstop, Double.round_round]
    exact absurd (round_le hstart hround hqx.2) hmeet

/-- **The last integer** too. -/
theorem stop_mem (hp : p ∈ ps) : p.2.start ≤ p.1.stop ∧ p.1.stop ≤ p.2.stop := by
  obtain ⟨hsane, hsane'⟩ := h.sane hp
  have hstart := h.start_mem hp
  rcases (h.held p hp).ends with ⟨hends, -⟩ | ⟨-, hstop⟩
  · obtain ⟨h1, h2⟩ := Prod.mk.inj hends
    omega
  by_contra hnot
  obtain ⟨q, hq, hqx⟩ := h.covered hp ⟨hsane, le_rfl⟩
  have hlow := le_round hstop (h.held q hq).round_start hqx.1
  obtain ⟨h1, h2⟩ := h.ends_eq hp hq ⟨hsane', le_rfl⟩ ⟨hlow, by omega⟩
  omega

/-- **A range begins** where it is written to begin. -/
theorem start_eq (hp : p ∈ ps) : p.1.start = p.2.start := by
  obtain ⟨hsane, hsane'⟩ := h.sane hp
  have hstart := h.start_mem hp
  by_contra hne
  obtain ⟨s, hs, hsx, hsy⟩ := h.exists_of_mem hp ⟨le_rfl, hsane'⟩ hstart hp ⟨le_rfl, hsane⟩ (by omega)
  have hsp := h.ends_eq hs hp (h.mem_of_double hs hsx (h.held p hp).round_start) ⟨le_rfl, hsane'⟩
  rcases (h.held p hp).ends with ⟨hends, -⟩ | ⟨hround, -⟩
  · exact hne (congrArg Prod.fst hends).symm
  rcases (h.held s hs).ends with ⟨hends, -⟩ | ⟨-, hsstop⟩
  · obtain ⟨h1, h2⟩ := Prod.mk.inj hends
    omega
  · -- it would end before the other one begins, and the doubles are in the same order
    have hle := @Double.round_mono s.1.stop p.1.start (by exact_mod_cast (by omega : s.1.stop ≤ p.1.start))
    rw [← hsstop, ← hround] at hle
    have hle' : s.2.stop ≤ p.2.start := by exact_mod_cast hle
    omega

/-- **And ends** where it is written to end. -/
theorem stop_eq (hp : p ∈ ps) : p.1.stop = p.2.stop := by
  obtain ⟨hsane, hsane'⟩ := h.sane hp
  have hstop := h.stop_mem hp
  by_contra hne
  rcases (h.held p hp).ends with ⟨hends, -⟩ | ⟨-, hround⟩
  · exact hne (congrArg Prod.snd hends).symm
  have hdouble : Double.round p.2.stop = p.2.stop := by rw [hround, Double.round_round]
  obtain ⟨s, hs, hsx, hsy⟩ := h.exists_of_mem hp ⟨hsane', le_rfl⟩ hstop hp ⟨hsane, le_rfl⟩ (by omega)
  have hsp := h.ends_eq hs hp (h.mem_of_double hs hsx hdouble) ⟨hsane', le_rfl⟩
  have hsstart := h.start_eq hs
  omega

/-- **Nothing is rounded.** -/
theorem eq (hp : p ∈ ps) : p.1 = p.2 := by
  have hstart := h.start_eq hp
  have hstop := h.stop_eq hp
  have hw := h.written p.1 (List.mem_map_of_mem hp)
  have hr := h.massed p.2 (List.mem_map_of_mem hp)
  have hweight : p.1.weight = p.2.weight := by rw [hw.weight_eq, hr.weight_eq, hstart, hstop]
  calc p.1 = ⟨p.1.start, p.1.stop, p.1.weight, p.1.comments⟩ := rfl
    _ = ⟨p.2.start, p.2.stop, p.2.weight, p.2.comments⟩ := by rw [hstart, hstop, hweight, (h.held p hp).comments]
    _ = p.2 := rfl

end Proportional

/-! ### What is built -/

/-- Every range is held as it is written. -/
def HeldExactly (rs_strs : List Str) : Prop := ∀ t ∈ rs_strs, listed double t = listed written t

/-- The ends are so small that one more and one less are doubles too, or stand for all values. -/
def Small (r : Range) : Prop := r.ends = (S64_MIN, S64_MAX) ∨ -2 ^ 53 < r.start ∧ r.stop < 2 ^ 53

/-- `build` makes the mixture of what is written, of the area, and every order of the texts has the same densities. -/
def BuildsMixture (h : Store Range) (rs_strs : List Str) (range_area : ℚ) : Prop :=
  ∃ h' range_set, build double h rs_strs range_area = .ok (h', range_set) ∧
    RangeSet.total_area h' range_set = range_area ∧
    (∀ x, Range.rhoAt h' range_set x = mixture (allRanges written rs_strs) range_area x) ∧
    ∀ others, rs_strs.Perm others → ∃ h₂ set₂, build double h others range_area = .ok (h₂, set₂) ∧
      ∀ x, Range.rhoAt h₂ set₂ x = Range.rhoAt h' range_set x

/-- The ranges as they are written, and as they are held. -/
def pairs (rs_strs : List Str) : List (Range × Range) :=
  rs_strs.flatMap fun t => (rangesOf written t).zip (rangesOf double t)

section Built

variable {rs_strs : List Str}

theorem held_of_mem (htexts : ∀ t ∈ rs_strs, RangeText written t) (hread : ∀ t ∈ rs_strs, RangeText double t) {t : Str}
    (ht : t ∈ rs_strs) : List.Forall₂ Held (rangesOf written t) (rangesOf double t) :=
  held_of_listed (listed_eq (htexts t ht)) (listed_eq (hread t ht))

theorem map_pairs (htexts : ∀ t ∈ rs_strs, RangeText written t) (hread : ∀ t ∈ rs_strs, RangeText double t) :
    (pairs rs_strs).map Prod.fst = allRanges written rs_strs ∧ (pairs rs_strs).map Prod.snd = allRanges double rs_strs := by
  rw [pairs, List.map_flatMap, List.map_flatMap]
  constructor
  · exact List.flatMap_congr fun t ht => List.map_fst_zip (held_of_mem htexts hread ht).length_eq.le
  · exact List.flatMap_congr fun t ht => List.map_snd_zip (held_of_mem htexts hread ht).length_eq.ge

/-- What is held exactly is read. -/
theorem HeldExactly.read (h : HeldExactly rs_strs) (htexts : ∀ t ∈ rs_strs, RangeText written t) :
    (∀ t ∈ rs_strs, RangeText double t) ∧ allRanges double rs_strs = allRanges written rs_strs := by
  refine ⟨fun t ht => ?_, List.flatMap_congr fun t ht => ?_⟩
  · rw [RangeText, h t ht]
    exact htexts t ht
  · rw [rangesOf, h t ht]
    rfl

/-- **Nothing is rounded** when the density is the one of the mixture as it is written. -/
theorem heldExactly_of_mixture (hne : rs_strs ≠ []) (htexts : ∀ t ∈ rs_strs, RangeText written t) (hread : ∀ t ∈ rs_strs, RangeText double t)
    (hP : RangeSet.EqualOrDisjoint (Listed (allRanges double rs_strs))) {range_area : ℚ} (harea : 0 < range_area)
    (hmix : ∀ x, range_area * doubledDensity (allRanges double rs_strs) x / area (doubledDensity (allRanges double rs_strs)) =
      mixture (allRanges written rs_strs) range_area x) : HeldExactly rs_strs := by
  obtain ⟨hfst, hsnd⟩ := map_pairs htexts hread
  have hmass := massed_of_mem htexts
  have hprop : Proportional (pairs rs_strs) := by
    refine ⟨fun p hp => ?_, hfst ▸ hmass, hsnd ▸ massed_of_mem hread, hsnd ▸ hP, ?_⟩
    · obtain ⟨t, ht, hmem⟩ := List.mem_flatMap.mp hp
      exact (List.forall₂_iff_zip.mp (held_of_mem htexts hread ht)).2 hmem
    · refine ⟨area (listedDensity (allRanges written rs_strs)) / area (doubledDensity (allRanges double rs_strs)), fun x => ?_⟩
      have hx := hmix x
      rw [mixture_eq hmass, mul_div_assoc, mul_div_assoc] at hx
      have hx' := mul_left_cancel₀ harea.ne' hx
      have hlisted : area (listedDensity (allRanges written rs_strs)) ≠ 0 := by
        rw [area_listed hmass]
        have hlen : 0 < (allRanges written rs_strs).length := List.length_pos_iff.mpr (allRanges_ne_nil hne htexts)
        exact mul_ne_zero (by decide +kernel) (by exact_mod_cast hlen.ne')
      rw [eq_div_iff hlisted] at hx'
      rw [hfst, hsnd, ← hx']
      ring
  intro t ht
  have hsame : List.Forall₂ Eq (rangesOf written t) (rangesOf double t) := by
    refine List.forall₂_iff_zip.mpr ⟨(held_of_mem htexts hread ht).length_eq, fun {w r} hmem => ?_⟩
    exact hprop.eq (List.mem_flatMap.mpr ⟨t, ht, hmem⟩)
  rw [List.forall₂_eq_eq_eq] at hsame
  rw [listed_eq (htexts t ht), listed_eq (hread t ht), hsame]

/-- **What `build` makes**: a set of the area that is asked for, when the endpoints are small. Of ranges that are pairwise equal
or disjoint as they are held, too, the densities do not depend on the order, and the set is the mixture exactly when all the
ranges are held as they are written, and listed equally often. -/
theorem build_mixture_iff {h : Store Range} (hwf : Range.AllWF h) {rs_strs : List Str} (hne : rs_strs ≠ [])
    (htexts : ∀ t ∈ rs_strs, RangeText written t) {range_area : ℚ} (harea : 0 < range_area) :
    (HeldExactly rs_strs → (∀ r ∈ allRanges written rs_strs, Small r) → ∃ h' range_set,
      build double h rs_strs range_area = .ok (h', range_set) ∧ RangeSet.total_area h' range_set = range_area) ∧
    (RangeSet.EqualOrDisjoint (Listed (allRanges double rs_strs)) →
      ((∀ t ∈ rs_strs, RangeText double t) → ∃ density : ℤ → ℚ, ∀ others, rs_strs.Perm others → ∃ h' range_set,
        build double h others range_area = .ok (h', range_set) ∧ RangeSet.total_area h' range_set = range_area ∧
          ∀ x, Range.rhoAt h' range_set x = density x) ∧
      (BuildsMixture h rs_strs range_area ↔ HeldExactly rs_strs ∧ EquallyOften (allRanges written rs_strs))) := by
  refine ⟨fun hexact _ => build_spec hwf hne (hexact.read htexts).1 harea, fun hP =>
    ⟨fun hread => ⟨_, fun others hperm => build_perm hwf hperm hne hread hP harea⟩, ?_⟩⟩
  constructor
  · rintro ⟨h', range_set, hrun, -, hmix, -⟩
    have hread := rangeTexts_of_build hrun
    obtain ⟨hpos, h₂, set₂, hrun₂, -, hdens⟩ := build_doubled hwf hne hread hP harea
    obtain ⟨rfl, rfl⟩ := Prod.mk.inj (Except.ok.inj (hrun.symm.trans hrun₂))
    have hmix' := fun x => (hdens x).symm.trans (hmix x)
    have hexact := heldExactly_of_mixture hne htexts hread hP harea hmix'
    rw [(hexact.read htexts).2] at hP hpos hmix'
    exact ⟨hexact, (doubled_eq_mixture_iff (massed_of_mem htexts) hP hpos harea).mp hmix'⟩
  · rintro ⟨hexact, heq⟩
    obtain ⟨hread, hsame⟩ := hexact.read htexts
    obtain ⟨hpos, h', range_set, hrun, htotal, hdens⟩ := build_doubled hwf hne hread hP harea
    refine ⟨h', range_set, hrun, htotal, fun x => ?_, fun others hperm => ?_⟩
    · rw [hdens]
      rw [hsame] at hP hpos ⊢
      exact (doubled_eq_mixture_iff (massed_of_mem htexts) hP hpos harea).mpr heq x
    · obtain ⟨h₂, set₂, hrun₂, -, hdens₂⟩ := build_perm hwf hperm hne hread hP harea
      exact ⟨h₂, set₂, hrun₂, fun x => (hdens₂ x).trans (hdens x).symm⟩

/-- A number of 54 digits is rounded. -/
example : (allRanges double ["9007199254740993".toList]).map Range.ends = [(9007199254740992, 9007199254740992)] := by
  decide +kernel

/-- Two texts, both of them listed twice. -/
def twoTwice : List Str := ["1".toList, "[-4, -2], [5, 9]".toList, " 1".toList, "[5,9], [-4,-2]".toList]

theorem rangeText_twoTwice : ∀ t ∈ twoTwice, RangeText written t := by
  have hall : (twoTwice.all fun t => (listed written t).toBool) = true := by decide +kernel
  intro t ht
  have hlisted := List.all_eq_true.mp hall t ht
  cases h : listed written t with
  | ok rs => exact ⟨rs, h⟩
  | error e =>
    rw [h] at hlisted
    cases hlisted

theorem heldExactly_twoTwice : HeldExactly twoTwice := by
  have hsmall : ((allRanges written twoTwice).all fun w => decide (-2 ^ 53 ≤ w.start ∧ w.stop ≤ 2 ^ 53)) = true := by
    decide +kernel
  intro t ht
  have hlisted := listed_eq (rangeText_twoTwice t ht)
  rw [hlisted, listed_double hlisted fun w hw => ?_]
  exact of_decide_eq_true (List.all_eq_true.mp hsmall w (List.mem_flatMap.mpr ⟨t, ht, hw⟩))

/-- Each of the three ranges gets a third of the area. -/
theorem build_mixture_iff_twice :
    (∃ h' range_set, build double (Store.ofList ⟨0, 0, 0, ∅⟩ []) twoTwice 100 = .ok (h', range_set) ∧
      RangeSet.total_area h' range_set = 100) ∧
    (∃ density : ℤ → ℚ, ∀ others, twoTwice.Perm others → ∃ h' range_set,
      build double (Store.ofList ⟨0, 0, 0, ∅⟩ []) others 100 = .ok (h', range_set) ∧
        RangeSet.total_area h' range_set = 100 ∧ ∀ x, Range.rhoAt h' range_set x = density x) ∧
    BuildsMixture (Store.ofList ⟨0, 0, 0, ∅⟩ []) twoTwice 100 := by
  have hsmall : ∀ r ∈ allRanges written twoTwice, Small r := by
    unfold Small
    decide +kernel
  have hover : RangeSet.EqualOrDisjoint (Listed (allRanges double twoTwice)) := by
    have hall : (((allRanges double twoTwice).map Range.ends).all fun p => ((allRanges double twoTwice).map Range.ends).all
        fun q => decide (p = q ∨ p.2 < q.1 ∨ q.2 < p.1)) = true := by decide +kernel
    intro p q hp hq
    exact of_decide_eq_true (List.all_eq_true.mp (List.all_eq_true.mp hall p hp) q hq)
  have hequal : EquallyOften (allRanges written twoTwice) := by
    unfold EquallyOften
    decide +kernel
  obtain ⟨harea, hboth⟩ := @build_mixture_iff (Store.ofList ⟨0, 0, 0, ∅⟩ []) (fun o ho => absurd ho (Nat.not_lt_zero o))
    twoTwice (by decide) rangeText_twoTwice 100 (by norm_num)
  obtain ⟨horder, hiff⟩ := hboth hover
  exact ⟨harea heldExactly_twoTwice hsmall, horder (heldExactly_twoTwice.read rangeText_twoTwice).1,
    hiff.mpr ⟨heldExactly_twoTwice, hequal⟩⟩

/-- A number that is listed twice, and one that is listed once: three quarters of the area instead of two thirds. -/
theorem not_builds_mixture :
    ¬ ∀ (h : Store Range) (rs_strs : List Str) (range_area : ℚ), Range.AllWF h → rs_strs ≠ [] →
      (∀ t ∈ rs_strs, RangeText written t) → 0 < range_area → BuildsMixture h rs_strs range_area := by
  intro hall
  have htexts : ∀ t ∈ ["1".toList, "1".toList, "2".toList], RangeText written t := by
    simp only [List.forall_mem_cons]
    exact ⟨⟨_, listed_number (written_intCast 1) rfl⟩, ⟨_, listed_number (written_intCast 1) rfl⟩,
      ⟨_, listed_number (written_intCast 2) rfl⟩, by simp⟩
  obtain ⟨h', range_set, hrun, -, hmix, -⟩ := hall (Store.ofList ⟨0, 0, 0, ∅⟩ []) ["1".toList, "1".toList, "2".toList] 100
    (fun o ho => absurd ho (Nat.not_lt_zero o)) (by decide) htexts (by norm_num)
  have hbad : (match build double (Store.ofList ⟨0, 0, 0, ∅⟩ []) ["1".toList, "1".toList, "2".toList] 100 with
      | .ok (h', range_set) => decide (Range.rhoAt h' range_set 1 = 75)
      | .error _ => false) = true := by decide +kernel
  have hshould : mixture (allRanges written ["1".toList, "1".toList, "2".toList]) 100 1 = 200 / 3 := by decide +kernel
  rw [hrun] at hbad
  have h75 := of_decide_eq_true hbad
  rw [hmix, hshould] at h75
  norm_num at h75

end Built

end Rsf

end SEDiff.Juxta
