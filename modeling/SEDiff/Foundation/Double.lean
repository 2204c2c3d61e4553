import Mathlib.Data.Int.Log
import Mathlib.Data.Rat.Floor
import Mathlib.Tactic.Linarith
import Mathlib.Tactic.NormNum

/-!
# Doubles

A `float` of Python is a double of IEEE 754: 53 binary digits, none of them after the 1074th of the fraction. The result of
an operation is the double that is nearest to the exact one, and the even one of two, or an infinity if that has more than
1024 digits.

## What is proved

* `Double.round_mono` — rounding keeps the order.
* `Double.round_round` — what is rounded is a double.
* `Double.round_intCast` — an integer of 53 digits is one.
-/

namespace SEDiff.Foundation.Double

/-- The nearest integer, and the even one of two. -/
def nearest (q : ℚ) : ℤ :=
  if q - ⌊q⌋ < 1 / 2 ∨ q - ⌊q⌋ = 1 / 2 ∧ ⌊q⌋ % 2 = 0 then ⌊q⌋ else ⌊q⌋ + 1

/-- The doubles around a positive number are this power of two apart. -/
def exponent (q : ℚ) : ℤ := max (Int.log 2 q - 52) (-1074)

/-- The double nearest to a number that is not negative. -/
def roundAbs (q : ℚ) : ℚ := nearest (q / 2 ^ exponent q) * 2 ^ exponent q

/-- The nearest double. -/
def round (q : ℚ) : ℚ := if q < 0 then -roundAbs (-q) else roundAbs q

/-- What is not an infinity. -/
def Finite (x : ℚ) : Prop := -2 ^ 1024 < x ∧ x < 2 ^ 1024

instance (x : ℚ) : Decidable (Finite x) := inferInstanceAs (Decidable (_ ∧ _))

/-- The sum of two doubles. -/
def add (x y : ℚ) : ℚ := round (x + y)

example : round 9007199254740993 = 9007199254740992 := by decide +kernel

example : round (1 / 10) = 3602879701896397 / 2 ^ 55 := by decide +kernel

/-! ### The nearest integer -/

theorem nearest_intCast (n : ℤ) : nearest n = n := by
  rw [nearest, Int.floor_intCast, sub_self, if_pos (.inl (by norm_num))]

theorem nearest_mono {p q : ℚ} (h : p ≤ q) : nearest p ≤ nearest q := by
  have hfloor : ⌊p⌋ ≤ ⌊q⌋ := Int.floor_le_floor h
  rcases hfloor.eq_or_lt with heq | hlt
  · rw [nearest, nearest, heq]
    have hfract : p - ⌊q⌋ ≤ q - ⌊q⌋ := by linarith
    split_ifs with hp hq hq
    · exact le_rfl
    · omega
    · -- the fraction of the larger one is not smaller
      refine absurd ?_ hp
      rcases hq with hq | ⟨hq, heven⟩
      · exact .inl (by linarith)
      · rcases (hfract.trans_eq hq).lt_or_eq with hlt | heq'
        · exact .inl hlt
        · exact .inr ⟨heq', heven⟩
    · exact le_rfl
  · have hp : nearest p ≤ ⌊p⌋ + 1 := by
      rw [nearest]
      split_ifs <;> omega
    have hq : ⌊q⌋ ≤ nearest q := by
      rw [nearest]
      split_ifs <;> omega
    omega

/-! ### Numbers that are not negative -/

variable {p q : ℚ}

theorem unit_pos (e : ℤ) : (0 : ℚ) < 2 ^ e := zpow_pos two_pos e

/-- A power of two in units of a smaller one. -/
theorem pow_div_pow {e j : ℤ} (h : j ≤ e) : (2 : ℚ) ^ e / 2 ^ j = ((2 ^ (e - j).toNat : ℤ) : ℚ) := by
  rw [← zpow_sub₀ two_ne_zero]
  push_cast
  rw [← zpow_natCast, Int.toNat_of_nonneg (by omega)]

theorem roundAbs_nonneg (h : 0 ≤ q) : 0 ≤ roundAbs q := by
  have hnearest : nearest 0 ≤ nearest (q / 2 ^ exponent q) := nearest_mono (div_nonneg h (unit_pos _).le)
  have hzero : nearest 0 = 0 := nearest_intCast 0
  rw [hzero] at hnearest
  exact mul_nonneg (by exact_mod_cast hnearest) (unit_pos _).le

/-- What has a double's digits is a double. -/
theorem roundAbs_mul_of_lt {k e : ℤ} (he : -1074 ≤ e) (hk : 0 < k) (hlt : k < 2 ^ 53) :
    roundAbs (k * 2 ^ e) = k * 2 ^ e := by
  have hpos : (0 : ℚ) < k * 2 ^ e := mul_pos (by exact_mod_cast hk) (unit_pos e)
  have hlog : Int.log 2 ((k : ℚ) * 2 ^ e) < 53 + e := by
    rw [← Int.lt_zpow_iff_log_lt one_lt_two hpos, Nat.cast_two, zpow_add₀ two_ne_zero]
    exact mul_lt_mul_of_pos_right (by exact_mod_cast hlt) (unit_pos e)
  have hexp : exponent (k * 2 ^ e) ≤ e := by
    rw [exponent]
    omega
  have hunits : (k : ℚ) * 2 ^ e / 2 ^ exponent (k * 2 ^ e) =
      ((k * 2 ^ (e - exponent (k * 2 ^ e)).toNat : ℤ) : ℚ) := by
    rw [mul_div_assoc, pow_div_pow hexp]
    push_cast
    rfl
  rw [roundAbs, hunits, nearest_intCast, ← hunits, div_mul_cancel₀ _ (unit_pos _).ne']

theorem roundAbs_mul {k e : ℤ} (he : -1074 ≤ e) (hk : 0 ≤ k) (hle : k ≤ 2 ^ 53) : roundAbs (k * 2 ^ e) = k * 2 ^ e := by
  rcases hk.eq_or_lt with rfl | hk
  · have hzero : nearest 0 = 0 := nearest_intCast 0
    rw [Int.cast_zero, zero_mul, roundAbs, zero_div, hzero, Int.cast_zero, zero_mul]
  rcases hle.eq_or_lt with rfl | hlt
  · -- one digit more, and one unit less
    have hnext := @roundAbs_mul_of_lt (2 ^ 52) (e + 1) (by omega) (by norm_num) (by norm_num)
    have hsame : ((2 ^ 53 : ℤ) : ℚ) * 2 ^ e = ((2 ^ 52 : ℤ) : ℚ) * 2 ^ (e + 1) := by
      rw [zpow_add_one₀ two_ne_zero]
      push_cast
      ring
    rw [hsame, hnext]
  · exact roundAbs_mul_of_lt he hk hlt

/-- What is rounded has a double's digits. -/
theorem roundAbs_roundAbs (h : 0 ≤ q) : roundAbs (roundAbs q) = roundAbs q := by
  have hzero : nearest 0 = 0 := nearest_intCast 0
  have hpos := unit_pos (exponent q)
  refine roundAbs_mul (le_max_right _ _) ?_ ?_
  · rw [← hzero]
    exact nearest_mono (div_nonneg h hpos.le)
  · have hlt : q < 2 ^ (Int.log 2 q + 1) := by
      have := Int.lt_zpow_succ_log_self one_lt_two q
      rwa [Nat.cast_two] at this
    have hle : q ≤ ((2 ^ 53 : ℤ) : ℚ) * 2 ^ exponent q := by
      have hexp : Int.log 2 q + 1 ≤ 53 + exponent q := by
        rw [exponent]
        omega
      calc q ≤ 2 ^ (Int.log 2 q + 1) := hlt.le
        _ ≤ 2 ^ (53 + exponent q) := zpow_le_zpow_right₀ one_le_two hexp
        _ = ((2 ^ 53 : ℤ) : ℚ) * 2 ^ exponent q := by
            rw [zpow_add₀ two_ne_zero]
            norm_num
    rw [← nearest_intCast (2 ^ 53)]
    exact nearest_mono ((div_le_iff₀ hpos).mpr hle)

theorem roundAbs_mono (hp : 0 ≤ p) (h : p ≤ q) : roundAbs p ≤ roundAbs q := by
  rcases hp.eq_or_lt with rfl | hp
  · have hzero : roundAbs 0 = 0 := by simpa using @roundAbs_mul 0 0 (by norm_num) le_rfl (by norm_num)
    rw [hzero]
    exact roundAbs_nonneg h
  have hq := hp.trans_le h
  have hlog : Int.log 2 p ≤ Int.log 2 q := Int.log_mono_right hp h
  by_cases heq : exponent p = exponent q
  · rw [roundAbs, roundAbs, heq]
    have hpos := unit_pos (exponent q)
    refine mul_le_mul_of_nonneg_right ?_ hpos.le
    exact_mod_cast nearest_mono (div_le_div_of_nonneg_right h hpos.le)
  · -- the units differ: there is a power of two in between
    have hexp : exponent q = Int.log 2 q - 52 ∧ exponent p < exponent q ∧ Int.log 2 p < Int.log 2 q := by
      rw [exponent, exponent] at *
      omega
    obtain ⟨hexpq, hlt, hlogs⟩ := hexp
    have hbelow : p ≤ 2 ^ Int.log 2 q := by
      have := (Int.lt_zpow_iff_log_lt one_lt_two hp).mpr hlogs
      rw [Nat.cast_two] at this
      exact this.le
    have habove : (2 : ℚ) ^ Int.log 2 q ≤ q := by
      have := Int.zpow_log_le_self one_lt_two hq
      rwa [Nat.cast_two] at this
    have hround : ∀ {e}, e ≤ Int.log 2 q →
        (nearest ((2 : ℚ) ^ Int.log 2 q / 2 ^ e) : ℚ) * 2 ^ e = 2 ^ Int.log 2 q := fun {e} he => by
      rw [pow_div_pow he, nearest_intCast, ← pow_div_pow he, div_mul_cancel₀ _ (unit_pos e).ne']
    calc roundAbs p ≤ nearest ((2 : ℚ) ^ Int.log 2 q / 2 ^ exponent p) * 2 ^ exponent p := by
          refine mul_le_mul_of_nonneg_right ?_ (unit_pos _).le
          exact_mod_cast nearest_mono (div_le_div_of_nonneg_right hbelow (unit_pos _).le)
      _ = 2 ^ Int.log 2 q := hround (by omega)
      _ = nearest ((2 : ℚ) ^ Int.log 2 q / 2 ^ exponent q) * 2 ^ exponent q := (hround (by omega)).symm
      _ ≤ roundAbs q := by
          refine mul_le_mul_of_nonneg_right ?_ (unit_pos _).le
          exact_mod_cast nearest_mono (div_le_div_of_nonneg_right habove (unit_pos _).le)

/-! ### Rounding -/

theorem round_of_nonneg (h : 0 ≤ q) : round q = roundAbs q := if_neg (not_lt.mpr h)

theorem round_of_nonpos (h : q ≤ 0) : round q = -roundAbs (-q) := by
  rcases h.eq_or_lt with rfl | h
  · have hzero : roundAbs 0 = 0 := by simpa using @roundAbs_mul 0 0 (by norm_num) le_rfl (by norm_num)
    rw [round_of_nonneg le_rfl, neg_zero, hzero, neg_zero]
  · exact if_pos h

/-- **Rounding keeps the order.** -/
theorem round_mono (h : p ≤ q) : round p ≤ round q := by
  rcases le_total 0 p with hp | hp
  · rw [round_of_nonneg hp, round_of_nonneg (hp.trans h)]
    exact roundAbs_mono hp h
  · rw [round_of_nonpos hp]
    rcases le_total 0 q with hq | hq
    · rw [round_of_nonneg hq]
      have hp' := roundAbs_nonneg (neg_nonneg.mpr hp)
      have hq' := roundAbs_nonneg hq
      linarith
    · rw [round_of_nonpos hq]
      exact neg_le_neg (roundAbs_mono (neg_nonneg.mpr hq) (neg_le_neg h))

/-- **What is rounded** is a double. -/
theorem round_round (q : ℚ) : round (round q) = round q := by
  rcases le_total 0 q with hq | hq
  · rw [round_of_nonneg hq, round_of_nonneg (roundAbs_nonneg hq), roundAbs_roundAbs hq]
  · have hneg := neg_nonneg.mpr hq
    rw [round_of_nonpos hq, round_of_nonpos (neg_nonpos.mpr (roundAbs_nonneg hneg)), neg_neg, roundAbs_roundAbs hneg]

/-- **An integer** of 53 digits is a double. -/
theorem round_intCast {n : ℤ} (hlow : -2 ^ 53 ≤ n) (hhigh : n ≤ 2 ^ 53) : round n = n := by
  have habs : ∀ {k : ℤ}, 0 ≤ k → k ≤ 2 ^ 53 → roundAbs k = k := fun {k} h0 hle => by
    simpa using @roundAbs_mul k 0 (by norm_num) h0 hle
  rcases le_total 0 n with hn | hn
  · rw [round_of_nonneg (by exact_mod_cast hn), habs hn hhigh]
  · rw [round_of_nonpos (by exact_mod_cast hn), ← Int.cast_neg, habs (by omega) (by omega), Int.cast_neg, neg_neg]

/-- What has at most 53 digits is no infinity. -/
theorem finite_intCast {n : ℤ} (hlow : -2 ^ 53 ≤ n) (hhigh : n ≤ 2 ^ 53) : Finite n := by
  have hpow : (2 : ℚ) ^ 53 < 2 ^ 1024 := pow_lt_pow_right₀ one_lt_two (by norm_num)
  have hlow' : -2 ^ 53 ≤ (n : ℚ) := by exact_mod_cast hlow
  have hhigh' : (n : ℚ) ≤ 2 ^ 53 := by exact_mod_cast hhigh
  exact ⟨(neg_lt_neg hpow).trans_le hlow', hhigh'.trans_lt hpow⟩

end SEDiff.Foundation.Double
