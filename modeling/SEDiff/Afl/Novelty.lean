import Mathlib.Tactic.ByContra
import Mathlib.Tactic.Set
import Mathlib.Tactic.SplitIfs
import SEDiff.Afl.Queue

/-!
# What is new in an execution

`has_new_bits`, `has_new_metric` and `has_max_metric` of `src/afl/hybrid_metric/afl-fuzz.c`. A map of bytes is
read in words of eight, as on x86_64; the maps of the hybrid metric have 32-bit words.

## What is proved

* `has_new_bits_eq_zero_iff` — no new bits are reported when the trace and the virgin map have none in common.
* `has_max_metric_iff` — a new maximum is reported when some count exceeds the recorded one.
-/

namespace SEDiff.Afl

/-- `ret` after a word that has a bit of the virgin map: 2 when a whole byte of it was pristine. -/
def raise (pristine : Bool) (ret : UInt8) : UInt8 := if ret < 2 then (if pristine then 2 else 1) else ret

/-- The bytes of word `k`. -/
def bytes (k : ℕ) : List ℕ := (List.range 8).map fun j => 8 * k + j

/-- One word of `has_new_bits`. -/
def new_bits_word (trace_bits : ℕ → UInt8) (r : UInt8 × (ℕ → UInt8)) (k : ℕ) : UInt8 × (ℕ → UInt8) :=
  if ((bytes k).any fun b => trace_bits b ≠ 0) && ((bytes k).any fun b => trace_bits b &&& r.2 b ≠ 0) then
    (raise ((bytes k).any fun b => trace_bits b ≠ 0 ∧ r.2 b = 0xff) r.1,
      fun b => if b / 8 = k then r.2 b &&& ~~~ trace_bits b else r.2 b)
  else r

/-- `has_new_bits`: what it returns, and the virgin map. -/
def has_new_bits (trace_bits virgin_map : ℕ → UInt8) : UInt8 × (ℕ → UInt8) :=
  (List.range (MAP_SIZE / 8)).foldl (new_bits_word trace_bits) (0, virgin_map)

/-- Byte `j` of a 32-bit word. -/
def byteOf (x : UInt32) (j : ℕ) : UInt8 := (x >>> (8 * j).toUInt32).toUInt8

/-- One word of `has_new_metric`. -/
def new_metric_word (metric_bits : ℕ → UInt32) (r : UInt8 × (ℕ → UInt32)) (i : ℕ) : UInt8 × (ℕ → UInt32) :=
  if metric_bits i ≠ 0 ∧ metric_bits i &&& r.2 i ≠ 0 then
    (raise ((List.range 4).any fun j => byteOf (metric_bits i) j ≠ 0 ∧ byteOf (r.2 i) j = 0xff) r.1,
      Function.update r.2 i (r.2 i &&& ~~~ metric_bits i))
  else r

/-- `has_new_metric`: what it returns, and the virgin map. -/
def has_new_metric (virgin_metric_map metric_bits : ℕ → UInt32) : UInt8 × (ℕ → UInt32) :=
  (List.range MAP_SIZE).foldl (new_metric_word metric_bits) (0, virgin_metric_map)

/-- `has_max_metric`. -/
def has_max_metric (metric_bits max_metric : ℕ → UInt32) : Bool :=
  (List.range MAP_SIZE).any fun i => metric_bits i ≠ 0 ∧ metric_bits i > max_metric i

theorem raise_ne_zero {pristine : Bool} {ret : UInt8} : raise pristine ret ≠ 0 := by
  rw [raise]
  split_ifs with hlt
  · decide
  · decide
  · intro h0
    rw [h0] at hlt
    exact hlt (by decide)

theorem any_bytes {k : ℕ} {p : ℕ → Bool} :
    (bytes k).any p = true ↔ ∃ b, 8 * k ≤ b ∧ b < 8 * (k + 1) ∧ p b = true := by
  rw [List.any_eq_true]
  constructor
  · rintro ⟨b, hb, hp⟩
    obtain ⟨j, hj, rfl⟩ := List.mem_map.mp hb
    have := List.mem_range.mp hj
    exact ⟨8 * k + j, by omega, by omega, hp⟩
  · rintro ⟨b, h1, h2, hp⟩
    exact ⟨b, List.mem_map.mpr ⟨b - 8 * k, List.mem_range.mpr (by omega), by omega⟩, hp⟩

/-- What `has_new_bits` has done before word `k`. -/
theorem foldl_new_bits_word (trace_bits virgin_map : ℕ → UInt8) (k : ℕ) :
    (((List.range k).foldl (new_bits_word trace_bits) (0, virgin_map)).1 = 0 ↔
        ∀ b < 8 * k, trace_bits b &&& virgin_map b = 0) ∧
      ∀ b, 8 * k ≤ b → ((List.range k).foldl (new_bits_word trace_bits) (0, virgin_map)).2 b = virgin_map b := by
  induction k with
  | zero => exact ⟨iff_of_true rfl nofun, fun _ _ => rfl⟩
  | succ k ih =>
    obtain ⟨hzero, hrest⟩ := ih
    rw [List.range_succ, List.foldl_append, List.foldl_cons, List.foldl_nil]
    set r := (List.range k).foldl (new_bits_word trace_bits) (0, virgin_map) with hr
    by_cases hnew : ∃ b, 8 * k ≤ b ∧ b < 8 * (k + 1) ∧ trace_bits b &&& virgin_map b ≠ 0
    · -- the word has a bit of the virgin map
      obtain ⟨b, h1, h2, hne⟩ := hnew
      have htrace : trace_bits b ≠ 0 := fun h0 => hne (by rw [h0, UInt8.zero_and])
      have hcond : (((bytes k).any fun b => trace_bits b ≠ 0) &&
          ((bytes k).any fun b => trace_bits b &&& r.2 b ≠ 0)) = true := by
        rw [Bool.and_eq_true_iff, any_bytes, any_bytes]
        exact ⟨⟨b, h1, h2, by simpa using htrace⟩, b, h1, h2, by simpa [hrest b h1] using hne⟩
      rw [new_bits_word, if_pos hcond]
      refine ⟨iff_of_false raise_ne_zero fun h => hne (h b h2), fun c hc => ?_⟩
      have hother : c / 8 ≠ k := by omega
      simp only [hother, if_false]
      exact hrest c (by omega)
    · have hcond : ¬ (((bytes k).any fun b => trace_bits b ≠ 0) &&
          ((bytes k).any fun b => trace_bits b &&& r.2 b ≠ 0)) = true := by
        rw [Bool.and_eq_true_iff, any_bytes, any_bytes]
        rintro ⟨-, b, h1, h2, hb⟩
        exact hnew ⟨b, h1, h2, by simpa [hrest b h1] using hb⟩
      rw [new_bits_word, if_neg hcond]
      refine ⟨hzero.trans ⟨fun h b hb => ?_, fun h b hb => h b (by omega)⟩, fun c hc => hrest c (by omega)⟩
      by_cases hbk : b < 8 * k
      · exact h b hbk
      · by_contra hne
        exact hnew ⟨b, by omega, hb, hne⟩

/-- **`has_new_bits` reports nothing** when the trace has no bit of the virgin map. -/
theorem has_new_bits_eq_zero_iff (trace_bits virgin_map : ℕ → UInt8) :
    (has_new_bits trace_bits virgin_map).1 = 0 ↔ ∀ b < MAP_SIZE, trace_bits b &&& virgin_map b = 0 := by
  have hsize : 8 * (MAP_SIZE / 8) = MAP_SIZE := by
    rw [MAP_SIZE_eq]
  rw [has_new_bits, (foldl_new_bits_word trace_bits virgin_map (MAP_SIZE / 8)).1, hsize]

/-- **`has_max_metric` reports** a count above the recorded maximum. -/
theorem has_max_metric_iff (metric_bits max_metric : ℕ → UInt32) :
    has_max_metric metric_bits max_metric = true ↔ ∃ i < MAP_SIZE, max_metric i < metric_bits i := by
  rw [has_max_metric, List.any_eq_true]
  constructor
  · rintro ⟨i, hi, h⟩
    exact ⟨i, List.mem_range.mp hi, (of_decide_eq_true h).2⟩
  · rintro ⟨i, hi, hlt⟩
    refine ⟨i, List.mem_range.mpr hi, decide_eq_true ⟨fun h0 => ?_, hlt⟩⟩
    rw [h0] at hlt
    exact absurd hlt (by rw [UInt32.lt_iff_toNat_lt]; exact Nat.not_lt_zero _)

end SEDiff.Afl
