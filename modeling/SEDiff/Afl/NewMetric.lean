import SEDiff.Afl.Novelty

/-!
# The novelty of a hybrid map

What `has_new_metric` says about the counters of an execution, call after call.

## What is proved

* `has_new_metric_eq_two_iff`, `has_new_metric_eq_zero_iff`, `has_new_metric_virgin` — one call: what it returns and what
  is left of the virgin map.
* `run_virgin` — after any calls from an all-ones map, a word is all ones when its counter was zero in all of them.
* `has_new_metric_classifies_iff` — the novelty of edges is told, except when a pristine byte of a word that
  was hit before is taken for a pristine word.
-/

namespace SEDiff.Afl

/-! ### Words of bytes -/

theorem byteOf_and (x y : UInt32) (j : ℕ) : byteOf (x &&& y) j = byteOf x j &&& byteOf y j := by
  rw [byteOf, byteOf, byteOf, UInt32.shiftRight_and, UInt32.toUInt8_and]

theorem byteOf_zero (j : ℕ) : byteOf 0 j = 0 := by
  rw [byteOf, UInt32.zero_shiftRight]
  rfl

theorem byteOf_toNat (x : UInt32) {j : ℕ} (hj : j < 4) : (byteOf x j).toNat = x.toNat / 2 ^ (8 * j) % 256 := by
  have hshift : (8 * j).toUInt32.toNat % 32 = 8 * j := by
    rw [Nat.toUInt32_eq, UInt32.toNat_ofNat']
    omega
  rw [byteOf, UInt32.toNat_toUInt8, UInt32.toNat_shiftRight, hshift, Nat.shiftRight_eq_div_pow]

/-- A word with four zero bytes. -/
theorem eq_zero_of_bytes {x : UInt32} (h : ∀ j < 4, byteOf x j = 0) : x = 0 := by
  have hbyte (j : ℕ) (hj : j < 4) : x.toNat / 2 ^ (8 * j) % 256 = 0 := by
    have hzero := congrArg UInt8.toNat (h j hj)
    rwa [byteOf_toNat x hj] at hzero
  have h0 := hbyte 0 (by omega)
  have h1 := hbyte 1 (by omega)
  have h2 := hbyte 2 (by omega)
  have h3 := hbyte 3 (by omega)
  have hlt := x.toNat_lt
  apply UInt32.toNat_inj.mp
  rw [UInt32.toNat_zero]
  omega

/-- Nothing in common: nothing is taken away. -/
theorem and_not_of_and_eq_zero {x y : UInt32} (h : x &&& y = 0) : y &&& ~~~ x = y := by
  have hbits : x.toBitVec &&& y.toBitVec = 0#32 := congrArg UInt32.toBitVec h
  apply UInt32.toBitVec_inj.mp
  ext i hi
  have hbit : (x.toBitVec[i] && y.toBitVec[i]) = false := by
    rw [← BitVec.getElem_and, hbits, BitVec.getElem_zero]
  rw [UInt32.toBitVec_and, UInt32.toBitVec_not, BitVec.getElem_and, BitVec.getElem_not]
  cases hy : y.toBitVec[i] with
  | false => rfl
  | true =>
    rw [hy, Bool.and_true] at hbit
    rw [hbit]
    rfl

/-- What was taken away is not there. -/
theorem and_and_not (x y : UInt32) : x &&& (y &&& ~~~ x) = 0 := by
  rw [UInt32.and_comm y, ← UInt32.and_assoc, UInt32.and_not_self, UInt32.zero_and]

/-- The counter hits a byte that is pristine. -/
def FreshByte (metric virgin : UInt32) : Prop := ∃ j < 4, byteOf metric j ≠ 0 ∧ byteOf virgin j = 0xff

/-- The counter hits a word that is pristine. -/
def FreshWord (metric virgin : UInt32) : Prop := metric ≠ 0 ∧ virgin = 0xffffffff

theorem FreshByte.and_ne_zero {metric virgin : UInt32} (h : FreshByte metric virgin) : metric &&& virgin ≠ 0 := by
  obtain ⟨j, -, hm, hv⟩ := h
  intro h0
  have hj : byteOf metric j &&& byteOf virgin j = 0 := by rw [← byteOf_and, h0, byteOf_zero]
  rw [hv] at hj
  exact hm (UInt8.and_neg_one.symm.trans hj)

theorem FreshWord.freshByte {metric virgin : UInt32} (h : FreshWord metric virgin) : FreshByte metric virgin := by
  obtain ⟨hm, rfl⟩ := h
  by_contra hnot
  refine hm (eq_zero_of_bytes fun j hj => ?_)
  by_contra hne
  have hones : ∀ j < 4, byteOf 0xffffffff j = 0xff := by decide
  exact hnot ⟨j, hj, hne, hones j hj⟩

/-! ### One call -/

theorem any_byte_iff {metric virgin : UInt32} :
    ((List.range 4).any fun j => byteOf metric j ≠ 0 ∧ byteOf virgin j = 0xff) = true ↔ FreshByte metric virgin := by
  simp [FreshByte]

theorem ret_zero_ne_two : (0 : UInt8) ≠ 2 := by decide

theorem ret_one_ne_two : (1 : UInt8) ≠ 2 := by decide

/-- What `has_new_metric` has done before word `k`. -/
structure Scanned (metric_bits virgin : ℕ → UInt32) (k : ℕ) (r : UInt8 × (ℕ → UInt32)) : Prop where
  /-- It returns at most 2. -/
  le : r.1 = 0 ∨ r.1 = 1 ∨ r.1 = 2
  /-- 2 for a pristine byte. -/
  two : r.1 = 2 ↔ ∃ i < k, FreshByte (metric_bits i) (virgin i)
  /-- 0 for nothing new. -/
  zero : r.1 = 0 ↔ ∀ i < k, metric_bits i &&& virgin i = 0
  /-- The virgin map. -/
  virgin : ∀ i, r.2 i = if i < k then virgin i &&& ~~~ metric_bits i else virgin i

theorem Scanned.step {metric_bits virgin : ℕ → UInt32} {k : ℕ} {r : UInt8 × (ℕ → UInt32)}
    (h : Scanned metric_bits virgin k r) : Scanned metric_bits virgin (k + 1) (new_metric_word metric_bits r k) := by
  have hk : r.2 k = virgin k := (h.virgin k).trans (if_neg (Nat.lt_irrefl k))
  rw [new_metric_word, hk]
  by_cases hnew : metric_bits k &&& virgin k = 0
  · -- the word has nothing in common with the virgin map
    have hcond : ¬ (metric_bits k ≠ 0 ∧ metric_bits k &&& virgin k ≠ 0) := fun hc => hc.2 hnew
    rw [if_neg hcond]
    refine ⟨h.le, ?_, ?_, fun i => ?_⟩
    · rw [h.two, Nat.exists_lt_succ_right]
      exact (or_iff_left fun hf => hf.and_ne_zero hnew).symm
    · rw [h.zero, Nat.forall_lt_succ_right]
      exact (and_iff_left hnew).symm
    · rw [h.virgin]
      by_cases hik : i = k
      · subst hik
        rw [if_neg (Nat.lt_irrefl i), if_pos (Nat.lt_succ_self i), and_not_of_and_eq_zero hnew]
      · have hiff : i < k + 1 ↔ i < k := by omega
        simp only [hiff]
  · have hne : metric_bits k ≠ 0 := fun h0 => hnew (by rw [h0, UInt32.zero_and])
    rw [if_pos ⟨hne, hnew⟩]
    refine ⟨?_, ?_, ?_, fun i => ?_⟩
    · rw [raise]
      split_ifs
      · exact .inr (.inr rfl)
      · exact .inr (.inl rfl)
      · exact h.le
    · rw [Nat.exists_lt_succ_right, ← h.two]
      obtain h0 | h1 | h2 := h.le
      · rw [raise, h0, if_pos (by decide)]
        split_ifs with hany
        · exact iff_of_true rfl (.inr (any_byte_iff.mp hany))
        · exact iff_of_false ret_one_ne_two (not_or.mpr ⟨by decide, mt any_byte_iff.mpr hany⟩)
      · rw [raise, h1, if_pos (by decide)]
        split_ifs with hany
        · exact iff_of_true rfl (.inr (any_byte_iff.mp hany))
        · exact iff_of_false ret_one_ne_two (not_or.mpr ⟨by decide, mt any_byte_iff.mpr hany⟩)
      · rw [raise, h2, if_neg (by decide)]
        exact iff_of_true rfl (.inl rfl)
    · exact iff_of_false raise_ne_zero fun hall => hnew (hall k (Nat.lt_succ_self k))
    · by_cases hik : i = k
      · subst hik
        rw [if_pos (Nat.lt_succ_self i)]
        exact Function.update_self i _ r.2
      · have hiff : i < k + 1 ↔ i < k := by omega
        have hother := Function.update_of_ne hik (virgin k &&& ~~~ metric_bits k) r.2
        simp only [hiff]
        exact hother.trans (h.virgin i)

theorem has_new_metric_scanned (virgin metric_bits : ℕ → UInt32) :
    Scanned metric_bits virgin MAP_SIZE (has_new_metric virgin metric_bits) := by
  have hscan (k : ℕ) : Scanned metric_bits virgin k
      ((List.range k).foldl (new_metric_word metric_bits) (0, virgin)) := by
    induction k with
    | zero => exact ⟨.inl rfl, iff_of_false ret_zero_ne_two nofun, iff_of_true rfl nofun, fun i => rfl⟩
    | succ k ih =>
      rw [List.range_succ, List.foldl_append]
      exact ih.step
  exact hscan MAP_SIZE

/-- 2 is returned for a pristine byte. -/
theorem has_new_metric_eq_two_iff (virgin metric_bits : ℕ → UInt32) :
    (has_new_metric virgin metric_bits).1 = 2 ↔ ∃ i < MAP_SIZE, FreshByte (metric_bits i) (virgin i) :=
  (has_new_metric_scanned virgin metric_bits).two

/-- 0 is returned for nothing new. -/
theorem has_new_metric_eq_zero_iff (virgin metric_bits : ℕ → UInt32) :
    (has_new_metric virgin metric_bits).1 = 0 ↔ ∀ i < MAP_SIZE, metric_bits i &&& virgin i = 0 :=
  (has_new_metric_scanned virgin metric_bits).zero

/-- What is left of the virgin map. -/
theorem has_new_metric_virgin (virgin metric_bits : ℕ → UInt32) {i : ℕ} (hi : i < MAP_SIZE) :
    (has_new_metric virgin metric_bits).2 i = virgin i &&& ~~~ metric_bits i :=
  ((has_new_metric_scanned virgin metric_bits).virgin i).trans (if_pos hi)

/-- The same counters again are nothing new. -/
theorem has_new_metric_again (virgin metric_bits : ℕ → UInt32) :
    (has_new_metric (has_new_metric virgin metric_bits).2 metric_bits).1 = 0 := by
  apply (has_new_metric_eq_zero_iff _ _).mpr
  intro i hi
  rw [has_new_metric_virgin _ _ hi, and_and_not]

/-! ### Calls one after the other -/

/-- The virgin map after these calls. -/
def virgin_after (virgin : ℕ → UInt32) (maps : List (ℕ → UInt32)) : ℕ → UInt32 :=
  maps.foldl (fun v metric_bits => (has_new_metric v metric_bits).2) virgin

/-- **Over a run**, a word stays all ones as long as its counter is zero. -/
theorem virgin_after_eq_ones_iff (virgin : ℕ → UInt32) (maps : List (ℕ → UInt32)) {i : ℕ} (hi : i < MAP_SIZE) :
    virgin_after virgin maps i = 0xffffffff ↔ virgin i = 0xffffffff ∧ ∀ metric_bits ∈ maps, metric_bits i = 0 := by
  have hnot (x : UInt32) : ~~~ x = -1 ↔ x = 0 := by
    rw [← UInt32.not_zero, UInt32.not_inj]
  induction maps generalizing virgin with
  | nil => exact (and_iff_left nofun).symm
  | cons metric_bits maps ih =>
    have hone : (has_new_metric virgin metric_bits).2 i = 0xffffffff ↔ virgin i = 0xffffffff ∧ metric_bits i = 0 := by
      rw [has_new_metric_virgin _ _ hi]
      exact UInt32.and_eq_neg_one_iff.trans (and_congr_right fun _ => hnot _)
    rw [List.forall_mem_cons, ← and_assoc, ← hone]
    exact ih (has_new_metric virgin metric_bits).2

/-! ### The classification -/

/-- What is asked of one call: 2 for an edge never hit before, 1 for a new count only, 0 for neither; the counts are
taken from the virgin map, and the same map again is nothing new. -/
structure Classifies (virgin metric_bits : ℕ → UInt32) : Prop where
  /-- A new edge. -/
  two : (has_new_metric virgin metric_bits).1 = 2 ↔ ∃ i < MAP_SIZE, metric_bits i ≠ 0 ∧ virgin i = 0xffffffff
  /-- A new count. -/
  one : (has_new_metric virgin metric_bits).1 = 1 ↔
    (¬ ∃ i < MAP_SIZE, metric_bits i ≠ 0 ∧ virgin i = 0xffffffff) ∧ ∃ i < MAP_SIZE, metric_bits i &&& virgin i ≠ 0
  /-- Nothing new. -/
  zero : (has_new_metric virgin metric_bits).1 = 0 ↔
    (¬ ∃ i < MAP_SIZE, metric_bits i ≠ 0 ∧ virgin i = 0xffffffff) ∧ ¬ ∃ i < MAP_SIZE, metric_bits i &&& virgin i ≠ 0
  /-- The virgin map. -/
  left : ∀ i < MAP_SIZE, (has_new_metric virgin metric_bits).2 i = virgin i &&& ~~~ metric_bits i
  /-- The second call. -/
  again : (has_new_metric (has_new_metric virgin metric_bits).2 metric_bits).1 = 0

/-- No pristine word is hit, but a pristine byte of another word. -/
def Misread (virgin metric_bits : ℕ → UInt32) : Prop :=
  (¬ ∃ i < MAP_SIZE, FreshWord (metric_bits i) (virgin i)) ∧ ∃ i < MAP_SIZE, FreshByte (metric_bits i) (virgin i)

/-- A pristine byte taken for a pristine word is reported as a new edge. -/
theorem Misread.not_classifies {virgin metric_bits : ℕ → UInt32} (hmis : Misread virgin metric_bits) :
    ¬ Classifies virgin metric_bits :=
  fun h => hmis.1 (h.two.mp ((has_new_metric_eq_two_iff _ _).mpr hmis.2))

/-- **`has_new_metric` tells the novelty of edges** when no pristine byte is taken for a pristine word. Whatever it
returns, over a run from an all-ones map the words that are still all ones are those of the edges never hit. -/
theorem has_new_metric_classifies_iff (virgin metric_bits : ℕ → UInt32) :
    (Classifies virgin metric_bits ↔ ¬ Misread virgin metric_bits) ∧
      ∀ maps i, i < MAP_SIZE →
        (virgin_after (fun _ => 0xffffffff) maps i = 0xffffffff ↔ ∀ m ∈ maps, m i = 0) := by
  refine ⟨⟨fun h hmis => hmis.not_classifies h, fun hmis => ?_⟩, fun maps i hi => ?_⟩
  · have hword : (∃ i < MAP_SIZE, FreshByte (metric_bits i) (virgin i)) ↔
        ∃ i < MAP_SIZE, metric_bits i ≠ 0 ∧ virgin i = 0xffffffff := by
      constructor
      · intro hbyte
        by_contra hno
        exact hmis ⟨hno, hbyte⟩
      · rintro ⟨i, hi, hf⟩
        exact ⟨i, hi, FreshWord.freshByte hf⟩
    have htwo := (has_new_metric_eq_two_iff virgin metric_bits).trans hword
    have hzero : (has_new_metric virgin metric_bits).1 = 0 ↔ ¬ ∃ i < MAP_SIZE, metric_bits i &&& virgin i ≠ 0 := by
      rw [has_new_metric_eq_zero_iff]
      push Not
      rfl
    have hsome : (∃ i < MAP_SIZE, metric_bits i ≠ 0 ∧ virgin i = 0xffffffff) →
        ∃ i < MAP_SIZE, metric_bits i &&& virgin i ≠ 0 := by
      rintro ⟨i, hi, hf⟩
      exact ⟨i, hi, (FreshWord.freshByte hf).and_ne_zero⟩
    refine ⟨htwo, ?_, ?_, fun i hi => has_new_metric_virgin _ _ hi, has_new_metric_again _ _⟩
    · obtain h0 | h1 | h2 := (has_new_metric_scanned virgin metric_bits).le
      · rw [h0]
        exact iff_of_false (by decide) fun h => hzero.mp h0 h.2
      · rw [h1]
        refine iff_of_true rfl ⟨fun h => ?_, not_not.mp fun h => ?_⟩
        · exact absurd (h1.symm.trans (htwo.mpr h)) (by decide)
        · exact absurd (h1.symm.trans (hzero.mpr h)) (by decide)
      · rw [h2]
        exact iff_of_false (by decide) fun h => h.1 (htwo.mp h2)
    · exact hzero.trans ⟨fun h => ⟨fun hf => h (hsome hf), h⟩, And.right⟩
  · rw [virgin_after_eq_ones_iff _ _ hi]
    exact and_iff_right rfl

/-- A counter of 256 on an edge whose low byte was hit before: the edge is taken for a new one. -/
theorem not_has_new_metric_classifies : ¬ ∀ virgin metric_bits : ℕ → UInt32, Classifies virgin metric_bits := by
  intro hall
  have hmis : Misread (fun _ => 0xffffff00) (fun _ => 0x100) := by
    refine ⟨?_, 0, ?_, 1, by decide, by decide, by decide⟩
    · rintro ⟨i, -, -, h⟩
      have hne : (0xffffff00 : UInt32) ≠ 0xffffffff := by decide
      exact hne h
    · rw [MAP_SIZE_eq]
      decide
  exact hmis.not_classifies (hall _ _)

end SEDiff.Afl
