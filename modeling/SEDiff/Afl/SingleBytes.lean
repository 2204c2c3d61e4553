import Mathlib.Data.List.Nodup
import SEDiff.Afl.Deterministic

/-!
# Changes of single bytes

The deterministic stages skip values that, by the comments, other stages produce as well. For changes of one byte this
works out.

## What is proved

* `each_byte_once` — every change of one byte that some stage is meant to try is tried exactly once, and no other one is
  tried.
-/

namespace SEDiff.Afl.SingleBytes

open Foundation Havoc Deterministic

/-! ### Walking bits -/

/-- The masks only depend on the distance. -/
theorem mask_add (k q r e : ℕ) : mask k (8 * q + r) (q + e) = mask k r e := by
  induction k with
  | zero => rfl
  | succ k ih =>
    have hdiv : (8 * q + r + k) / 8 = q + e ↔ (r + k) / 8 = e := by omega
    have hmod : (8 * q + r + k) % 8 = (r + k) % 8 := by omega
    rw [mask, mask, ih, hmod]
    simp only [hdiv]

/-- The widths of the stages. -/
def Width (k : ℕ) : Prop := k = 1 ∨ k = 2 ∨ k = 4

/-- The first byte is changed. -/
theorem mask_first {k r : ℕ} (hk : Width k) (hr : r < 8) : mask k r 0 ≠ 0 := by
  have hall : ∀ r < 8, mask 1 r 0 ≠ 0 ∧ mask 2 r 0 ≠ 0 ∧ mask 4 r 0 ≠ 0 := by decide
  rcases hk with rfl | rfl | rfl
  · exact (hall r hr).1
  · exact (hall r hr).2.1
  · exact (hall r hr).2.2

/-- The next byte is changed if the bits do not fit. -/
theorem mask_next {k r : ℕ} (hk : Width k) (hr : r < 8) (h : 8 < r + k) : mask k r 1 ≠ 0 := by
  have hall : ∀ r < 8, (8 < r + 1 → mask 1 r 1 ≠ 0) ∧ (8 < r + 2 → mask 2 r 1 ≠ 0) ∧ (8 < r + 4 → mask 4 r 1 ≠ 0) := by
    decide
  rcases hk with rfl | rfl | rfl
  · exact (hall r hr).1 h
  · exact (hall r hr).2.1 h
  · exact (hall r hr).2.2 h

theorem eq_xor {u m v : UInt8} (h : u ^^^ m = v) : m = u ^^^ v := by
  rw [← h, ← UInt8.xor_assoc, UInt8.xor_self, UInt8.zero_xor]

variable {in_buf : List UInt8} {i : ℕ} {v : UInt8}

/-- **Walking bits** change one byte only if they are all in it. -/
theorem FLIP_BITS_eq_set {k b : ℕ} (hk : Width k) (hb : b + k ≤ 8 * in_buf.length) {u : UInt8} (hu : in_buf[i]? = some u) :
    FLIP_BITS k b in_buf = in_buf.set i v ↔ b / 8 = i ∧ b % 8 + k ≤ 8 ∧ mask k (b % 8) 0 = u ^^^ v := by
  have hblock : ∀ e, mask k b (b / 8 + e) = mask k (b % 8) e := by
    intro e
    have hsplit : 8 * (b / 8) + b % 8 = b := Nat.div_add_mod b 8
    rw [← mask_add k (b / 8) (b % 8) e, hsplit]
  have hrem : b % 8 < 8 := Nat.mod_lt b (by decide)
  have hfit := List.getElem?_eq_some_iff.mp hu
  constructor
  · intro heq
    -- What the flips do to a byte other than the `i`th.
    have hother : ∀ q, q < in_buf.length → q ≠ i → mask k b q = 0 := by
      intro q hq hqi
      have hget := congrArg (fun l => l[q]?) heq
      rw [getElem?_FLIP_BITS, List.getElem?_set_ne (Ne.symm hqi), List.getElem?_eq_getElem hq, Option.map_some,
        Option.some.injEq] at hget
      rw [eq_xor hget, UInt8.xor_self]
    have hfirst : b / 8 = i := by
      by_contra hne
      refine mask_first hk hrem ?_
      rw [← hblock 0]
      exact hother (b / 8) (by rcases hk with rfl | rfl | rfl <;> omega) hne
    refine ⟨hfirst, ?_, ?_⟩
    · by_contra hmany
      refine mask_next hk hrem (Nat.not_le.mp hmany) ?_
      rw [← hblock 1]
      exact hother (b / 8 + 1) (by omega) (by omega)
    · have hget := congrArg (fun l => l[i]?) heq
      rw [getElem?_FLIP_BITS, List.getElem?_set_self hfit.1, hu, Option.map_some, Option.some.injEq, ← hfirst] at hget
      rw [← eq_xor hget, ← hblock 0, Nat.add_zero]
  · rintro ⟨rfl, hall, hmask⟩
    refine List.ext_getElem? fun q => ?_
    rw [getElem?_FLIP_BITS]
    by_cases hq : b / 8 = q
    · subst hq
      rw [List.getElem?_set_self hfit.1, hu, Option.map_some, ← Nat.add_zero (b / 8), hblock 0, hmask, ← UInt8.xor_assoc,
        UInt8.xor_self, UInt8.zero_xor]
    · have hzero : mask k b q = 0 := by
        rcases Nat.lt_or_gt_of_ne hq with hlt | hgt
        · exact mask_after (by omega)
        · exact mask_before hgt
      rw [List.getElem?_set_ne hq, hzero]
      cases in_buf[q]? with
      | none => rfl
      | some c => exact congrArg some UInt8.xor_zero

/-- Counting the bits of one byte. -/
theorem countP_block {n m i : ℕ} {p : ℕ → Bool} (hm : m ≤ 8) (hn : 8 * i + m ≤ n) {q : ℕ → Bool}
    (hin : ∀ r < m, p (8 * i + r) = q r) (hout : ∀ b < n, p b = true → b / 8 = i ∧ b % 8 < m) :
    (List.range n).countP p = (List.range m).countP q := by
  obtain ⟨rest, rfl⟩ := Nat.exists_eq_add_of_le hn
  rw [List.range_add, List.range_add, List.countP_append, List.countP_append, List.countP_map, List.countP_map]
  have hbefore : (List.range (8 * i)).countP p = 0 := by
    refine List.countP_eq_zero.mpr fun b hb hp => ?_
    have hlt := List.mem_range.mp hb
    have hblock := hout b (by omega) hp
    omega
  have hafter : (List.range rest).countP (p ∘ fun r => 8 * i + m + r) = 0 := by
    refine List.countP_eq_zero.mpr fun r hr hp => ?_
    have hlt := List.mem_range.mp hr
    have hblock := hout (8 * i + m + r) (by omega) hp
    omega
  rw [hbefore, hafter, Nat.zero_add, Nat.add_zero]
  exact List.countP_congr fun r hr => by rw [Function.comp, hin r (List.mem_range.mp hr)]

/-- **How often** the walking bits try a change of one byte. -/
theorem count_bits {k : ℕ} (hk : Width k) {u : UInt8} (hu : in_buf[i]? = some u) :
    (bits_tried k in_buf).count (in_buf.set i v) = (List.range (9 - k)).countP fun r => mask k r 0 == u ^^^ v := by
  have hfit := (List.getElem?_eq_some_iff.mp hu).1
  have hbounds : 1 ≤ k ∧ k ≤ 4 := by
    rcases hk with rfl | rfl | rfl <;> decide
  rw [bits_tried, List.count, List.countP_map]
  have hiff : ∀ b, b < 8 * in_buf.length - (k - 1) →
      (((fun l => l == in_buf.set i v) ∘ fun b => FLIP_BITS k b in_buf) b = true ↔
        b / 8 = i ∧ b % 8 + k ≤ 8 ∧ mask k (b % 8) 0 = u ^^^ v) := fun b hb => by
    rw [Function.comp, beq_iff_eq, FLIP_BITS_eq_set hk (by omega) hu]
  refine countP_block (i := i) (by omega) (by omega) (fun r hr => ?_) fun b hb hp => ?_
  · have hmod : (8 * i + r) % 8 = r := by omega
    rw [Bool.eq_iff_iff, hiff (8 * i + r) (by omega), beq_iff_eq, hmod]
    exact ⟨fun h => h.2.2, fun h => ⟨by omega, by omega, h⟩⟩
  · have hblock := (hiff b hb).mp hp
    omega

/-- An inverted byte. -/
theorem invert_eq_set {j : ℕ} (hj : j < in_buf.length) {u : UInt8} (hu : in_buf[i]? = some u) :
    invert j in_buf = in_buf.set i v ↔ j = i ∧ 255 = u ^^^ v := by
  have hfit := (List.getElem?_eq_some_iff.mp hu).1
  constructor
  · intro heq
    have hget := congrArg (fun l => l[j]?) heq
    rw [getElem?_invert, List.getElem?_eq_getElem hj, Option.map_some, if_pos rfl] at hget
    by_cases hji : j = i
    · subst hji
      rw [List.getElem?_set_self hj] at hget
      rw [List.getElem?_eq_getElem hj] at hu
      rw [← Option.some.inj hu]
      exact ⟨rfl, eq_xor (Option.some.inj hget)⟩
    · rw [List.getElem?_set_ne (Ne.symm hji), List.getElem?_eq_getElem hj] at hget
      have hzero := eq_xor (Option.some.inj hget)
      rw [UInt8.xor_self] at hzero
      exact absurd hzero (by decide)
  · rintro ⟨rfl, hmask⟩
    refine List.ext_getElem? fun q => ?_
    rw [getElem?_invert]
    by_cases hq : j = q
    · subst hq
      rw [List.getElem?_set_self hj, hu, Option.map_some, if_pos rfl, hmask, ← UInt8.xor_assoc, UInt8.xor_self, UInt8.zero_xor]
    · rw [List.getElem?_set_ne hq]
      cases in_buf[q]? with
      | none => rfl
      | some c => rw [Option.map_some, if_neg hq]

/-- **How often** the walking bytes try a change of one byte. -/
theorem count_inverted {u : UInt8} (hu : in_buf[i]? = some u) :
    ((List.range in_buf.length).map fun j => invert j in_buf).count (in_buf.set i v) = if 255 = u ^^^ v then 1 else 0 := by
  have hfit := (List.getElem?_eq_some_iff.mp hu).1
  rw [List.count, List.countP_map]
  split
  · next hmask =>
    have hone : (List.range in_buf.length).count i = 1 := by
      rw [List.nodup_range.count, if_pos (List.mem_range.mpr hfit)]
    rw [← hone, List.count]
    refine List.countP_congr fun j hj => ?_
    rw [Function.comp, beq_iff_eq, beq_iff_eq, invert_eq_set (List.mem_range.mp hj) hu]
    exact and_iff_left hmask
  · next hmask =>
    refine List.countP_eq_zero.mpr fun j hj heq => ?_
    rw [Function.comp, beq_iff_eq, invert_eq_set (List.mem_range.mp hj) hu] at heq
    exact hmask heq.2

/-! ### Words of one byte -/

theorem take_one {u : UInt8} (hu : in_buf[i]? = some u) : (in_buf.drop i).take 1 = [u] := by
  obtain ⟨hfit, rfl⟩ := List.getElem?_eq_some_iff.mp hu
  rw [← List.cons_getElem_drop_succ (h := hfit), List.take_succ_cons, List.take_zero]

theorem peek_one {u : UInt8} (hu : in_buf[i]? = some u) : peek 1 i in_buf = u.toNat := by
  rw [peek, take_one hu]
  rfl

theorem poke_one (hi : i < in_buf.length) (n : ℕ) : poke 1 i n in_buf = in_buf.set i (UInt8.ofNat n) := by
  refine List.ext_getElem? fun q => ?_
  rw [poke, getElem?_patch (by rw [length_bytes_of]; exact hi), length_bytes_of, List.getElem?_set]
  by_cases hq : i = q
  · subst hq
    rw [if_pos ⟨Nat.le_refl i, Nat.lt_succ_self i⟩, if_pos rfl, if_pos hi, Nat.sub_self]
    rfl
  · rw [if_neg (by omega), if_neg hq]

/-- Counting what comes from one index. -/
theorem count_flatMap_range {α : Type} [BEq α] {n i : ℕ} {f : ℕ → List α} {a : α}
    (h : ∀ j < n, j ≠ i → (f j).count a = 0) :
    ((List.range n).flatMap f).count a = if i < n then (f i).count a else 0 := by
  induction n with
  | zero => rfl
  | succ n ih =>
    rw [List.range_succ, List.flatMap_append, List.flatMap_singleton, List.count_append,
      ih fun j hj => h j (Nat.lt_succ_of_lt hj)]
    by_cases hn : n = i
    · subst hn
      rw [if_neg (Nat.lt_irrefl n), if_pos (Nat.lt_succ_self n), Nat.zero_add]
    · rw [h n (Nat.lt_succ_self n) hn, Nat.add_zero]
      by_cases hi : i < n
      · rw [if_pos hi, if_pos (Nat.lt_succ_of_lt hi)]
      · rw [if_neg hi, if_neg (by omega)]

/-- **How often** a stage for bytes tries a change, if it never tries the byte itself. -/
theorem count_words {s : Det} {vs : ℕ → List ℕ} (hnew : ∀ u : UInt8, ∀ n ∈ vs u.toNat, UInt8.ofNat n ≠ u) {u : UInt8}
    (hu : s.out_buf[i]? = some u) :
    (words_tried 1 s vs).count (s.out_buf.set i v) =
      if s.eff_map (EFF_APOS i) then ((vs u.toNat).map UInt8.ofNat).count v else 0 := by
  have hfit := (List.getElem?_eq_some_iff.mp hu).1
  have heffective : ∀ j, effective 1 j s = s.eff_map (EFF_APOS j) := fun j => by
    rw [effective]
    exact Bool.or_false _
  rw [words_tried, count_flatMap_range (i := i) fun j hj hji => ?_, if_pos (show i < _ - 0 from hfit), heffective]
  · split
    · rw [peek_one hu, List.count, List.count, List.countP_map, List.countP_map]
      refine List.countP_congr fun n _ => ?_
      rw [Function.comp, Function.comp, beq_iff_eq, beq_iff_eq, poke_one hfit]
      refine ⟨fun heq => ?_, fun heq => by rw [heq]⟩
      have hget := congrArg (fun l => l[i]?) heq
      rw [List.getElem?_set_self hfit, List.getElem?_set_self hfit] at hget
      exact Option.some.inj hget
    · rfl
  · split
    · refine List.count_eq_zero.mpr fun hmem => ?_
      obtain ⟨n, hn, heq⟩ := List.mem_map.mp hmem
      have hj' : s.out_buf[j]? = some s.out_buf[j] := List.getElem?_eq_getElem hj
      have hget := congrArg (fun l => l[j]?) heq
      rw [poke_one hj, List.getElem?_set_self hj, List.getElem?_set_ne (Ne.symm hji), hj', Option.some.injEq] at hget
      rw [peek_one hj'] at hn
      exact hnew _ n hn hget
    · rfl

/-! ### Words that change in two bytes -/

/-- The buffers differ in two bytes. -/
def TwoDiffer (a b : List UInt8) : Prop := ∃ p q : ℕ, p ≠ q ∧ a[p]? ≠ b[p]? ∧ a[q]? ≠ b[q]?

theorem TwoDiffer.ne_set {b : List UInt8} (h : TwoDiffer b in_buf) : b ≠ in_buf.set i v := by
  rintro rfl
  obtain ⟨p, q, hpq, hp, hq⟩ := h
  by_cases hpi : i = p
  · exact hq (List.getElem?_set_ne (hpi ▸ hpq))
  · exact hp (List.getElem?_set_ne hpi)

/-- The bytes of a word in the buffer. -/
theorem TwoDiffer.poke {w n : ℕ} (hi : i + w ≤ in_buf.length)
    (h : TwoDiffer (bytes_of w n) (bytes_of w (peek w i in_buf))) : TwoDiffer (poke w i n in_buf) in_buf := by
  obtain ⟨p, q, hpq, hp, hq⟩ := h
  have hbytes : bytes_of w (peek w i in_buf) = (in_buf.drop i).take w := by
    have hself := bytes_of_word ((in_buf.drop i).take w)
    rwa [length_word hi] at hself
  have hbyte : ∀ p, (bytes_of w n)[p]? ≠ (bytes_of w (peek w i in_buf))[p]? →
      (Foundation.poke w i n in_buf)[i + p]? ≠ in_buf[i + p]? := by
    intro p hp
    have hpw : p < w := by
      by_contra hge
      have hlen : ∀ m, (bytes_of w m)[p]? = none := fun m =>
        List.getElem?_eq_none (by rw [length_bytes_of]; exact Nat.not_lt.mp hge)
      exact hp (by rw [hlen, hlen])
    rw [hbytes, List.getElem?_take_of_lt hpw, List.getElem?_drop] at hp
    rw [Foundation.poke, getElem?_patch (by rwa [length_bytes_of]), length_bytes_of, if_pos ⟨by omega, by omega⟩,
      Nat.add_sub_cancel_left]
    exact hp
  exact ⟨i + p, i + q, by omega, hbyte p hp, hbyte q hq⟩

/-- A stage whose words all change in two bytes does not try a change of one byte. -/
theorem count_two {w : ℕ} (hw : 0 < w) {s : Det} {vs : ℕ → List ℕ}
    (h : ∀ orig < 256 ^ w, ∀ n ∈ vs orig, TwoDiffer (bytes_of w n) (bytes_of w orig)) :
    (words_tried w s vs).count (s.out_buf.set i v) = 0 := by
  refine List.count_eq_zero.mpr fun hmem => ?_
  obtain ⟨j, hj, hin⟩ := List.mem_flatMap.mp hmem
  have hfit : j + w ≤ s.out_buf.length := by
    have hlt := List.mem_range.mp hj
    omega
  split at hin
  · obtain ⟨n, hn, heq⟩ := List.mem_map.mp hin
    exact (h _ (peek_lt hfit) n hn).poke hfit |>.ne_set heq
  · exact absurd hin List.not_mem_nil

theorem getElem?_bytes_of {w k : ℕ} (hk : k < w) (n : ℕ) : (bytes_of w n)[k]? = some (UInt8.ofNat (n / 256 ^ k)) := by
  induction w generalizing k n with
  | zero => exact absurd hk (Nat.not_lt_zero k)
  | succ w ih =>
    cases k with
    | zero => rw [bytes_of, List.getElem?_cons_zero, Nat.pow_zero, Nat.div_one]
    | succ k => rw [bytes_of, List.getElem?_cons_succ, ih (by omega), Nat.div_div_eq_div_mul, Nat.pow_succ']

/-- Two bytes of a word. -/
theorem two_differ_of {w p q n u : ℕ} (hpq : p ≠ q) (hp : p < w) (hq : q < w) (hnp : n / 256 ^ p % 256 ≠ u / 256 ^ p % 256)
    (hnq : n / 256 ^ q % 256 ≠ u / 256 ^ q % 256) : TwoDiffer (bytes_of w n) (bytes_of w u) := by
  have hbyte : ∀ m m' : ℕ, m % 256 ≠ m' % 256 → some (UInt8.ofNat m) ≠ some (UInt8.ofNat m') := by
    intro m m' hne heq
    have hnat := congrArg UInt8.toNat (Option.some.inj heq)
    rw [UInt8.toNat_ofNat', UInt8.toNat_ofNat'] at hnat
    exact hne hnat
  refine ⟨p, q, hpq, ?_, ?_⟩
  · rw [getElem?_bytes_of hp, getElem?_bytes_of hp]
    exact hbyte _ _ hnp
  · rw [getElem?_bytes_of hq, getElem?_bytes_of hq]
    exact hbyte _ _ hnq

theorem TwoDiffer.reverse {a b : List UInt8} (h : TwoDiffer a b) (hlen : a.length = b.length) :
    TwoDiffer a.reverse b.reverse := by
  obtain ⟨p, q, hpq, hp, hq⟩ := h
  have hin : ∀ p, a[p]? ≠ b[p]? → p < a.length := by
    intro p hp
    by_contra hge
    rw [List.getElem?_eq_none (Nat.not_lt.mp hge), List.getElem?_eq_none (hlen ▸ Nat.not_lt.mp hge)] at hp
    exact hp rfl
  have hback : ∀ p, a[p]? ≠ b[p]? → a.reverse[a.length - 1 - p]? ≠ b.reverse[a.length - 1 - p]? := by
    intro p hp
    have hpin := hin p hp
    rw [List.getElem?_reverse (by omega), List.getElem?_reverse (by omega), ← hlen,
      show a.length - 1 - (a.length - 1 - p) = p by omega]
    exact hp
  have hpin := hin p hp
  have hqin := hin q hq
  exact ⟨_, _, by omega, hback p hp, hback q hq⟩

/-- The bytes of a swapped word. -/
theorem bytes_of_SWAP (w n : ℕ) : bytes_of w (SWAP w n) = (bytes_of w n).reverse := by
  have hself := bytes_of_word (bytes_of w n).reverse
  rwa [List.length_reverse, length_bytes_of] at hself

theorem SWAP_SWAP {w n : ℕ} (h : n < 256 ^ w) : SWAP w (SWAP w n) = n := by
  rw [SWAP, bytes_of_SWAP, List.reverse_reverse, word_of_bytes, Nat.mod_eq_of_lt h]

theorem SWAP_lt (w n : ℕ) : SWAP w n < 256 ^ w := by
  have hlt := word_of_lt (bytes_of w n).reverse
  rwa [List.length_reverse, length_bytes_of] at hlt

theorem xor_byte (a b k : ℕ) : (a ^^^ b) / 256 ^ k % 256 = a / 256 ^ k % 256 ^^^ b / 256 ^ k % 256 := by
  have hpow : 256 ^ k = 2 ^ (8 * k) := (Nat.pow_mul 2 8 k).symm
  rw [hpow, Nat.xor_div_two_pow]
  exact Nat.xor_mod_two_pow (n := 8)

/-- **Inverted words** change in two bytes. -/
theorem flip_two {w : ℕ} (hw : w = 2 ∨ w = 4) {orig n : ℕ} (hn : n ∈ flip_tried w orig) :
    TwoDiffer (bytes_of w n) (bytes_of w orig) := by
  obtain rfl := List.mem_singleton.mp hn
  have hbyte : ∀ k < 2, (orig ^^^ (256 ^ w - 1)) / 256 ^ k % 256 ≠ orig / 256 ^ k % 256 := by
    intro k hk heq
    have hones : ∀ k < 2, (256 ^ 2 - 1) / 256 ^ k % 256 = 255 ∧ (256 ^ 4 - 1) / 256 ^ k % 256 = 255 := by decide
    have hone : (256 ^ w - 1) / 256 ^ k % 256 = 255 := by
      rcases hw with rfl | rfl
      · exact (hones k hk).1
      · exact (hones k hk).2
    rw [xor_byte, hone] at heq
    have hcancel := congrArg (fun m => orig / 256 ^ k % 256 ^^^ m) heq
    rw [← Nat.xor_assoc, Nat.xor_self, Nat.zero_xor] at hcancel
    exact absurd hcancel (by decide)
  exact two_differ_of (p := 0) (q := 1) (by decide) (by omega) (by omega) (hbyte 0 (by decide)) (hbyte 1 (by decide))

/-- The sizes of words, and of their halves. -/
def Halves (w h : ℕ) : Prop := w = 2 ∧ h = 1 ∨ w = 4 ∧ h = 2

/-- A sum that changes more than the lower half. -/
theorem plus_two {w h : ℕ} (hwh : Halves w h) {u j : ℕ} (hj : j < ARITH_MAX)
    (hcarry : u % 256 ^ h + (j + 1) > 256 ^ h - 1) :
    TwoDiffer (bytes_of w ((u + (j + 1)) % 256 ^ w)) (bytes_of w u) := by
  have hmax : j < 35 := hj
  rcases hwh with ⟨rfl, rfl⟩ | ⟨rfl, rfl⟩
  · exact two_differ_of (p := 0) (q := 1) (by decide) (by decide) (by decide) (by omega) (by omega)
  · exact two_differ_of (p := 0) (q := 2) (by decide) (by decide) (by decide) (by omega) (by omega)

/-- A difference that does. -/
theorem minus_two {w h : ℕ} (hwh : Halves w h) {u j : ℕ} (hu : u < 256 ^ w) (hj : j < ARITH_MAX)
    (hborrow : u % 256 ^ h < j + 1) :
    TwoDiffer (bytes_of w ((u + 256 ^ w - (j + 1)) % 256 ^ w)) (bytes_of w u) := by
  have hmax : j < 35 := hj
  rcases hwh with ⟨rfl, rfl⟩ | ⟨rfl, rfl⟩
  · exact two_differ_of (p := 0) (q := 1) (by decide) (by decide) (by decide) (by omega) (by omega)
  · exact two_differ_of (p := 0) (q := 2) (by decide) (by decide) (by decide) (by omega) (by omega)

/-- **Sums and differences** that are tried for words change in two bytes. -/
theorem arith_two {w h : ℕ} (hwh : Halves w h) {orig : ℕ} (ho : orig < 256 ^ w) {n : ℕ}
    (hn : n ∈ arith_tried (arith_values w h) orig) : TwoDiffer (bytes_of w n) (bytes_of w orig) := by
  obtain ⟨j, hj, hin⟩ := List.mem_flatMap.mp hn
  have hmax := List.mem_range.mp hj
  obtain ⟨⟨n, c⟩, hmem, rfl⟩ := List.mem_map.mp hin
  obtain ⟨hvalue, hc⟩ := List.mem_filter.mp hmem
  -- Big-endian sums are sums of the swapped words.
  have hswap : ∀ m, TwoDiffer (bytes_of w m) (bytes_of w (SWAP w orig)) →
      TwoDiffer (bytes_of w (SWAP w m)) (bytes_of w orig) := by
    intro m hm
    have hback := hm.reverse (by rw [length_bytes_of, length_bytes_of])
    rwa [← bytes_of_SWAP, ← bytes_of_SWAP, SWAP_SWAP ho] at hback
  simp only [arith_values, List.mem_cons, List.not_mem_nil, or_false, Prod.mk.injEq] at hvalue
  rcases hvalue with ⟨rfl, rfl⟩ | ⟨rfl, rfl⟩ | ⟨rfl, rfl⟩ | ⟨rfl, rfl⟩
  · exact plus_two hwh hmax (of_decide_eq_true (Bool.and_eq_true_iff.mp hc).1)
  · exact minus_two hwh ho hmax (of_decide_eq_true (Bool.and_eq_true_iff.mp hc).1)
  · exact hswap _ (plus_two hwh hmax (of_decide_eq_true (Bool.and_eq_true_iff.mp hc).1))
  · exact hswap _ (minus_two hwh (SWAP_lt w orig) hmax (of_decide_eq_true (Bool.and_eq_true_iff.mp hc).1))

/-! ### Bytes -/

/-- The value is a small step away. -/
def Near (u v : UInt8) : Prop := ∃ j < ARITH_MAX, v = u + UInt8.ofNat (j + 1) ∨ v = u - UInt8.ofNat (j + 1)

instance (u v : UInt8) : Decidable (Near u v) := by
  unfold Near
  infer_instance

/-- The change is one that bits and bytes make when they are flipped. -/
def Flips (u v : UInt8) : Bool := could_be_bitflip (UInt32.ofNat (u.toNat ^^^ v.toNat))

/-- **How often** flips make a change. -/
theorem count_flips {u : UInt8} (hne : v ≠ u) :
    ((List.range 8).countP fun r => mask 1 r 0 == u ^^^ v) + ((List.range 7).countP fun r => mask 2 r 0 == u ^^^ v) +
        ((List.range 5).countP fun r => mask 4 r 0 == u ^^^ v) + (if 255 = u ^^^ v then 1 else 0) =
      if Flips u v then 1 else 0 := by
  have hall : ∀ n < 256, n ≠ 0 →
      ((List.range 8).countP fun r => mask 1 r 0 == UInt8.ofNat n) +
          ((List.range 7).countP fun r => mask 2 r 0 == UInt8.ofNat n) +
          ((List.range 5).countP fun r => mask 4 r 0 == UInt8.ofNat n) + (if 255 = UInt8.ofNat n then 1 else 0) =
        if could_be_bitflip (UInt32.ofNat n) then 1 else 0 := by
    decide +kernel
  have hxor := hall (u ^^^ v).toNat (u ^^^ v).toNat_lt fun hzero => hne ?_
  · rwa [UInt8.ofNat_toNat, UInt8.toNat_xor] at hxor
  · exact (UInt8.xor_eq_zero_iff.mp (UInt8.toNat_inj.mp hzero)).symm

/-- What is added for sums and differences. -/
def steps : List ℕ := (List.range ARITH_MAX).flatMap fun j => [j + 1, 256 - (j + 1)]

theorem mem_steps {u : UInt8} : v.toNat ∈ steps.map (fun o => (u.toNat + o) % 256) ↔ Near u v := by
  have hu := u.toNat_lt
  have hv := v.toNat_lt
  simp only [steps, List.mem_map, List.mem_flatMap, List.mem_range, List.mem_cons, List.not_mem_nil, or_false, Near]
  constructor
  · rintro ⟨o, ⟨j, hj, rfl | rfl⟩, heq⟩
    · refine ⟨j, hj, .inl (UInt8.toNat_inj.mp ?_)⟩
      rw [UInt8.toNat_add, UInt8.toNat_ofNat']
      simp only [ARITH_MAX] at hj
      omega
    · refine ⟨j, hj, .inr (UInt8.toNat_inj.mp ?_)⟩
      rw [UInt8.toNat_sub, UInt8.toNat_ofNat']
      simp only [ARITH_MAX] at hj
      omega
  · rintro ⟨j, hj, rfl | rfl⟩
    · refine ⟨j + 1, ⟨j, hj, .inl rfl⟩, ?_⟩
      rw [UInt8.toNat_add, UInt8.toNat_ofNat']
      simp only [ARITH_MAX] at hj
      omega
    · refine ⟨256 - (j + 1), ⟨j, hj, .inr rfl⟩, ?_⟩
      rw [UInt8.toNat_sub, UInt8.toNat_ofNat']
      simp only [ARITH_MAX] at hj
      omega

/-- A condition on the values. -/
theorem chosen_map {f : ℕ → Bool} (l : List ℕ) : chosen (l.map fun n => (n, f n)) = l.filter f := by
  induction l with
  | nil => rfl
  | cons n l ih =>
    rw [List.map_cons, chosen, List.filter_cons, List.filter_cons, ← ih]
    split <;> rfl

/-- The values of "arith 8/8". -/
theorem arith8_eq_filter (orig : ℕ) : arith_tried arith8_values orig =
    (steps.map fun o => (orig + o) % 256).filter fun n => !could_be_bitflip (UInt32.ofNat (orig ^^^ n)) := by
  rw [arith_tried, steps, List.map_flatMap, List.filter_flatMap]
  refine List.flatMap_congr fun j hj => ?_
  have hmax : j < 35 := List.mem_range.mp hj
  have hminus : orig + 256 - (j + 1) = orig + (256 - (j + 1)) := by omega
  rw [arith8_values, hminus]
  exact chosen_map (f := fun n => !could_be_bitflip (UInt32.ofNat (orig ^^^ n)))
    [(orig + (j + 1)) % 256, (orig + (256 - (j + 1))) % 256]

theorem steps_nodup (orig : ℕ) : (steps.map fun o => (orig + o) % 256).Nodup := by
  have hsmall : ∀ o ∈ steps, o < 256 := by decide
  refine List.Nodup.map_on (fun o ho o' ho' heq => ?_) (by decide)
  have hlt := hsmall o ho
  have hlt' := hsmall o' ho'
  omega

/-- **How often** sums and differences make it. -/
theorem count_arith8 {u : UInt8} :
    ((arith_tried arith8_values u.toNat).map UInt8.ofNat).count v = if ¬ Flips u v ∧ Near u v then 1 else 0 := by
  have hsmall : ∀ n ∈ arith_tried arith8_values u.toNat, n < 256 := by
    intro n hn
    rw [arith8_eq_filter] at hn
    obtain ⟨o, -, rfl⟩ := List.mem_map.mp (List.mem_filter.mp hn).1
    exact Nat.mod_lt _ (by decide)
  have hnat : ((arith_tried arith8_values u.toNat).map UInt8.ofNat).count v =
      (arith_tried arith8_values u.toNat).count v.toNat := by
    rw [List.count, List.count, List.countP_map]
    refine List.countP_congr fun n hn => ?_
    rw [Function.comp, beq_iff_eq, beq_iff_eq, ← UInt8.toNat_inj, UInt8.toNat_ofNat', Nat.mod_eq_of_lt (hsmall n hn)]
  rw [hnat, ((arith8_eq_filter u.toNat ▸ (steps_nodup u.toNat).filter _ :
    (arith_tried arith8_values u.toNat).Nodup)).count, arith8_eq_filter]
  refine if_congr ?_ rfl rfl
  rw [List.mem_filter, mem_steps, Flips]
  simp [and_comm]

/-- `could_be_arith` for bytes. -/
theorem could_be_arith_iff {u : UInt8} (hne : v ≠ u) :
    could_be_arith (UInt32.ofNat u.toNat) (UInt32.ofNat v.toNat) 1 = true ↔ Near u v := by
  have hu := u.toNat_lt
  have hv := v.toNat_lt
  have hcast : ∀ n < 256, (UInt32.ofNat n).toNat = n := fun n hn => by
    rw [UInt32.toNat_ofNat']
    omega
  have hold : UInt32.ofNat u.toNat ≠ UInt32.ofNat v.toNat := by
    intro heq
    have hnat := congrArg UInt32.toNat heq
    rw [hcast _ hu, hcast _ hv] at hnat
    exact hne (UInt8.toNat_inj.mp hnat.symm)
  have hmask : ∀ n < 256, (UInt32.ofNat n >>> UInt32.ofNat (8 * 1 * 0)) &&& 0xff = UInt32.ofNat n := by decide +kernel
  have hdiffs : diffs 1 1 (UInt32.ofNat u.toNat) (UInt32.ofNat v.toNat) =
      [(UInt32.ofNat u.toNat, UInt32.ofNat v.toNat)] := by
    rw [diffs, Nat.div_self Nat.one_pos, List.range_one, List.filterMap_cons]
    simp only [if_pos, hmask _ hu, hmask _ hv]
    rw [if_pos hold]
    rfl
  rw [could_be_arith, if_neg hold, hdiffs]
  dsimp only
  have hnear : near 8 (UInt32.ofNat u.toNat) (UInt32.ofNat v.toNat) = true ↔ Near u v := by
    rw [near, Bool.or_eq_true, decide_eq_true_iff, decide_eq_true_iff, UInt32.toNat_sub, UInt32.toNat_sub, hcast _ hu,
      hcast _ hv]
    have hnat : v.toNat ≠ u.toNat := fun heq => hne (UInt8.toNat_inj.mp heq)
    simp only [Near, ARITH_MAX, ← UInt8.toNat_inj, UInt8.toNat_add, UInt8.toNat_sub, UInt8.toNat_ofNat']
    constructor
    · rintro (hclose | hclose)
      · exact ⟨(256 - v.toNat + u.toNat) % 256 - 1, by omega, .inr (by omega)⟩
      · exact ⟨(256 - u.toNat + v.toNat) % 256 - 1, by omega, .inl (by omega)⟩
    · rintro ⟨j, hj, hsum | hdiff⟩
      · exact .inr (by omega)
      · exact .inl (by omega)
  split
  · next h => exact ⟨fun _ => hnear.mp h, fun _ => rfl⟩
  · next h =>
    rw [if_pos rfl]
    exact ⟨fun hc => absurd hc Bool.false_ne_true, fun hc => absurd (hnear.mpr hc) h⟩

/-- **How often** interesting values do. -/
theorem count_int8 {u : UInt8} (hne : v ≠ u) :
    ((int8_tried u.toNat).map UInt8.ofNat).count v =
      if ¬ Flips u v ∧ ¬ Near u v ∧ v ∈ interesting_8 then 1 else 0 := by
  have hid : (int8_tried u.toNat).map UInt8.ofNat = interesting_8.filter (int8_fresh u.toNat) := by
    rw [int8_tried, List.map_map]
    exact (List.map_congr_left fun v _ => UInt8.ofNat_toNat).trans (List.map_id _)
  have hnodup : interesting_8.Nodup := by decide
  rw [hid, (hnodup.filter _).count]
  refine if_congr ?_ rfl rfl
  rw [List.mem_filter, int8_fresh, Bool.not_eq_true', Bool.or_eq_false_iff, ← Bool.not_eq_true, ← Bool.not_eq_true,
    could_be_arith_iff hne, Flips]
  exact ⟨fun h => ⟨h.2.1, h.2.2, h.1⟩, fun h => ⟨h.2.2, h.1, h.2.1⟩⟩

/-! ### All stages -/

theorem flips_self (u : UInt8) : could_be_bitflip (UInt32.ofNat (u.toNat ^^^ u.toNat)) = true := by
  rw [Nat.xor_self]
  decide

/-- The stages for bytes do not try the byte itself. -/
theorem arith8_new (u : UInt8) (n : ℕ) (hn : n ∈ arith_tried arith8_values u.toNat) : UInt8.ofNat n ≠ u := by
  rintro rfl
  rw [arith8_eq_filter] at hn
  obtain ⟨hin, hfresh⟩ := List.mem_filter.mp hn
  obtain ⟨o, -, heq⟩ := List.mem_map.mp hin
  have hsmall : (UInt8.ofNat n).toNat = n := by
    rw [UInt8.toNat_ofNat', ← heq]
    omega
  have hself := flips_self (UInt8.ofNat n)
  rw [hsmall] at hself hfresh
  rw [hself] at hfresh
  exact Bool.false_ne_true hfresh

theorem int8_new (u : UInt8) (n : ℕ) (hn : n ∈ int8_tried u.toNat) : UInt8.ofNat n ≠ u := by
  obtain ⟨v, hv, rfl⟩ := List.mem_map.mp hn
  rw [UInt8.ofNat_toNat]
  rintro rfl
  have hfresh := (List.mem_filter.mp hv).2
  rw [int8_fresh, flips_self, Bool.true_or] at hfresh
  exact Bool.false_ne_true hfresh

theorem length_all_bits (hpos : 0 < in_buf.length) : (all_bits in_buf).length = 24 * in_buf.length - 4 := by
  simp only [all_bits, bits_tried, List.length_append, List.length_map, List.length_range]
  omega

/-- Is a change of one byte tried? Where arithmetics are skipped, so are the interesting values that they would make. -/
def Tries (x : Setting) (eff : Bool) (u v : UInt8) : Prop :=
  Flips u v = true ∨ eff = true ∧
    if x.no_arith then ¬ Near u v ∧ v ∈ interesting_8 else Near u v ∨ v ∈ interesting_8

instance (x : Setting) (eff : Bool) (u v : UInt8) : Decidable (Tries x eff u v) := by
  unfold Tries
  infer_instance

variable {x : Setting} {s : Det}

/-- Inverted words do not change one byte. -/
theorem count_all_flips : (all_flips x s).count (s.out_buf.set i v) = 0 := by
  have htwo := count_two (i := i) (v := v) (s := s) Nat.two_pos fun _ _ _ => flip_two (.inl rfl)
  have hfour := count_two (i := i) (v := v) (s := s) (Nat.succ_pos 3) fun _ _ _ => flip_two (.inr rfl)
  rw [all_flips]
  split
  · exact List.count_nil
  · rw [List.count_append, htwo, Nat.zero_add]
    split
    · exact List.count_nil
    · exact hfour

/-- Sums and differences change one byte in the stage for bytes. -/
theorem count_all_sums {u : UInt8} (hu : s.out_buf[i]? = some u) : (all_sums x s).count (s.out_buf.set i v) =
    if x.no_arith = false ∧ s.eff_map (EFF_APOS i) = true ∧ ¬ Flips u v ∧ Near u v then 1 else 0 := by
  have htwo := count_two (i := i) (v := v) (s := s) Nat.two_pos fun _ ho _ => arith_two (.inl ⟨rfl, rfl⟩) ho
  have hfour := count_two (i := i) (v := v) (s := s) (Nat.succ_pos 3) fun _ ho _ => arith_two (.inr ⟨rfl, rfl⟩) ho
  have hbytes := count_words (v := v) arith8_new hu
  rw [count_arith8] at hbytes
  rw [all_sums]
  cases x.no_arith with
  | true => simp
  | false =>
    have hwords : (if x.len < 2 then []
        else words_tried 2 s (arith_tried (arith_values 2 1)) ++
          if x.len < 4 then [] else words_tried 4 s (arith_tried (arith_values 4 2))).count (s.out_buf.set i v) = 0 := by
      split
      · exact List.count_nil
      · rw [List.count_append, htwo, Nat.zero_add]
        split
        · exact List.count_nil
        · exact hfour
    rw [if_neg Bool.false_ne_true, List.count_append, hbytes, hwords]
    by_cases heff : s.eff_map (EFF_APOS i) = true <;> simp [heff]

/-- Flips, sums and interesting values exclude each other. -/
theorem tries_sum (x : Setting) (eff : Bool) (u v : UInt8) : (if Tries x eff u v then 1 else 0) =
    (if Flips u v then 1 else 0) + ((if x.no_arith = false ∧ eff = true ∧ ¬ Flips u v ∧ Near u v then 1 else 0) +
      (if eff then (if ¬ Flips u v ∧ ¬ Near u v ∧ v ∈ interesting_8 then 1 else 0) else 0)) := by
  simp only [Tries]
  by_cases hflips : Flips u v = true
  · simp [hflips]
  · cases eff with
    | false => simp [hflips]
    | true => by_cases hnear : Near u v <;> by_cases hno : x.no_arith = true <;> simp [hflips, hnear, hno]

/-- **Every change of one byte is tried once**, or not at all: bits and bytes that are flipped everywhere; small sums and
differences and interesting values in the blocks that are flagged in the effector map, which are the first and the last
one, those where a flipped byte had an effect, and all if these are most. The buffer is then as before, and if the entry
is abandoned, then after a part of this. -/
theorem each_byte_once (x : Setting) (in_buf : List UInt8) (hlen : in_buf.length = x.len) (hpos : 0 < x.len) :
    ∃ s tried, Does (bytes_stages x) ⟨⟨in_buf, fun _ => false, 1⟩, []⟩ ⟨s, tried⟩ ∧ s.out_buf = in_buf ∧
      (∀ k, s.eff_map k = true ↔ Marked x (24 * x.len - 4) x.len k ∨ k < EFF_ALEN x.len ∧ EFF_MAX_PERC <
        (List.range (EFF_ALEN x.len)).countP (fun k => Marked x (24 * x.len - 4) x.len k) * 100 / EFF_ALEN x.len) ∧
      ∀ i u v, in_buf[i]? = some u → v ≠ u →
        tried.count (in_buf.set i v) = if Tries x (s.eff_map (EFF_APOS i)) u v then 1 else 0 := by
  have hdoes := bytes_does (x := x) (s := ⟨in_buf, fun _ => false, 1⟩) [] hlen
  have hbits := length_all_bits (hlen ▸ hpos)
  rw [List.length_nil, Nat.zero_add, List.nil_append] at hdoes
  refine ⟨_, _, hdoes, eff_done_out_buf _, fun k => ?_, fun i u v hu hne => ?_⟩
  · rw [← hlen, ← hbits, hlen]
    exact eff_map_iff _ rfl hpos k
  · rw [bytes_tried, Nat.zero_add]
    have hout := eff_done_out_buf (x := x) (s := ⟨in_buf, fun _ => false, 1⟩) (all_bits in_buf).length
    generalize eff_done x (all_bits in_buf).length ⟨in_buf, fun _ => false, 1⟩ = s at hout ⊢
    dsimp only at hout ⊢
    subst hout
    have hflips := count_flips hne
    rw [all_bits, ← hlen]
    simp only [List.count_append]
    rw [count_bits (.inl rfl) hu, count_bits (.inr (.inl rfl)) hu, count_bits (.inr (.inr rfl)) hu, count_inverted hu,
      count_all_flips, count_all_sums hu, count_words int8_new hu, count_int8 hne,
      tries_sum x (s.eff_map (EFF_APOS i)) u v, ← hflips]
    simp only [Nat.zero_add, Nat.add_assoc, Nat.reduceSub]

/-- A short file of which every block is flagged. -/
def short : Setting where
  bail := fun _ => false
  cksum := fun _ => 7
  exec_cksum := 7
  dumb_mode := false
  no_arith := false
  len := 2

theorem each_byte_once_short : ∃ s tried, Does (bytes_stages short) ⟨⟨[32, 65], fun _ => false, 1⟩, []⟩ ⟨s, tried⟩ ∧
    s.out_buf = [32, 65] ∧ tried.count [32, 66] = 1 := by
  obtain ⟨s, tried, hdoes, hout, -, hcount⟩ := each_byte_once short [32, 65] rfl Nat.two_pos
  refine ⟨s, tried, hdoes, hout, ?_⟩
  have hflip : Tries short (s.eff_map (EFF_APOS 1)) 65 66 := .inl (by decide)
  exact (hcount 1 65 66 rfl (by decide)).trans (if_pos hflip)

end SEDiff.Afl.SingleBytes
