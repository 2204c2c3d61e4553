import Mathlib.Algebra.Group.Nat.Defs
import Mathlib.Data.List.Basic

/-!
# Patching a buffer

A part of a buffer is overwritten, by bytes or by a little-endian word.

## What is proved

* `patch_patch`, `patch_self` — a longer patch hides a shorter one at the same offset, and the original bytes restore the
  buffer.
* `getElem?_patch` — what each byte is afterwards.
* `word_of_bytes`, `bytes_of_word` — words and their bytes.
-/

namespace SEDiff.Foundation

/-! ### Words -/

/-- The value of some bytes; the machine is little-endian. -/
def word_of : List UInt8 → ℕ
  | [] => 0
  | b :: bs => b.toNat + 256 * word_of bs

/-- The `w` bytes of a value. -/
def bytes_of : ℕ → ℕ → List UInt8
  | 0, _ => []
  | w + 1, v => UInt8.ofNat v :: bytes_of w (v / 256)

@[simp] theorem length_bytes_of (w v : ℕ) : (bytes_of w v).length = w := by
  induction w generalizing v with
  | zero => rfl
  | succ w ih => rw [bytes_of, List.length_cons, ih]

theorem word_of_lt (bs : List UInt8) : word_of bs < 256 ^ bs.length := by
  induction bs with
  | nil => exact Nat.one_pos
  | cons b bs ih =>
    have hb := b.toNat_lt
    rw [word_of, List.length_cons, Nat.pow_succ]
    omega

theorem word_of_bytes (w v : ℕ) : word_of (bytes_of w v) = v % 256 ^ w := by
  induction w generalizing v with
  | zero => exact (Nat.mod_one v).symm
  | succ w ih =>
    have hpow : 256 ^ (w + 1) = 256 * 256 ^ w := Nat.pow_succ'
    rw [bytes_of, word_of, ih, UInt8.toNat_ofNat', hpow, Nat.mod_mul]

theorem bytes_of_word (bs : List UInt8) : bytes_of bs.length (word_of bs) = bs := by
  induction bs with
  | nil => rfl
  | cons b bs ih =>
    have hb := b.toNat_lt
    have hdiv : (b.toNat + 256 * word_of bs) / 256 = word_of bs := by omega
    have hlow : UInt8.ofNat (b.toNat + 256 * word_of bs) = b := by
      apply UInt8.toNat_inj.mp
      rw [UInt8.toNat_ofNat']
      omega
    rw [List.length_cons, word_of, bytes_of, hdiv, ih, hlow]

/-! ### Patches -/

/-- Some bytes are copied to an offset. -/
def patch (i : ℕ) (data buf : List UInt8) : List UInt8 := buf.take i ++ (data ++ buf.drop (i + data.length))

variable {i : ℕ} {data data' buf : List UInt8}

@[simp] theorem length_patch (h : i + data.length ≤ buf.length) : (patch i data buf).length = buf.length := by
  rw [patch, List.length_append, List.length_append, List.length_take, List.length_drop]
  omega

theorem getElem?_patch (h : i + data.length ≤ buf.length) (p : ℕ) :
    (patch i data buf)[p]? = if i ≤ p ∧ p < i + data.length then data[p - i]? else buf[p]? := by
  have hfront : (buf.take i).length = i := by
    rw [List.length_take]
    omega
  rw [patch]
  by_cases hlt : p < i
  · rw [List.getElem?_append_left (by omega), if_neg (by omega), List.getElem?_take_of_lt hlt]
  · rw [List.getElem?_append_right (by omega), hfront]
    by_cases hin : p < i + data.length
    · rw [List.getElem?_append_left (by omega), if_pos ⟨by omega, hin⟩]
    · rw [List.getElem?_append_right (by omega), if_neg (by omega), List.getElem?_drop]
      congr 1
      omega

/-- **A longer patch** hides a shorter one. -/
theorem patch_patch (h : i + data.length ≤ buf.length) (hle : data'.length ≤ data.length) :
    patch i data (patch i data' buf) = patch i data buf := by
  refine List.ext_getElem? fun p => ?_
  have hshort : i + data'.length ≤ buf.length := by omega
  rw [getElem?_patch (by rwa [length_patch hshort]), getElem?_patch h, getElem?_patch hshort]
  split
  · rfl
  · rw [if_neg (by omega)]

/-- **The original bytes** restore the buffer. -/
theorem patch_self (w : ℕ) : patch i ((buf.drop i).take w) buf = buf := by
  have hrest : buf.drop (i + ((buf.drop i).take w).length) = (buf.drop i).drop w := by
    rw [← List.drop_drop, List.length_take]
    by_cases hw : w ≤ (buf.drop i).length
    · rw [Nat.min_eq_left hw]
    · rw [Nat.min_eq_right (Nat.le_of_not_le hw), List.drop_length, List.drop_of_length_le (Nat.le_of_not_le hw)]
  rw [patch, hrest, List.take_append_drop, List.take_append_drop]

theorem take_drop_patch (h : i + data.length ≤ buf.length) : ((patch i data buf).drop i).take data.length = data := by
  have hfront : (buf.take i).length = i := by
    rw [List.length_take]
    omega
  rw [patch, List.drop_append_of_le_length (Nat.le_of_eq hfront.symm), List.drop_of_length_le (Nat.le_of_eq hfront), List.nil_append,
    List.take_append_of_le_length (Nat.le_refl _), List.take_length]

/-! ### Words in a buffer -/

/-- The word of `w` bytes at an offset. -/
def peek (w i : ℕ) (buf : List UInt8) : ℕ := word_of ((buf.drop i).take w)

/-- A word at an offset. -/
def poke (w i v : ℕ) (buf : List UInt8) : List UInt8 := patch i (bytes_of w v) buf

variable {w v u : ℕ}

theorem length_word (h : i + w ≤ buf.length) : ((buf.drop i).take w).length = w := by
  rw [List.length_take, List.length_drop]
  omega

theorem peek_lt (h : i + w ≤ buf.length) : peek w i buf < 256 ^ w := by
  have hlt := word_of_lt ((buf.drop i).take w)
  rwa [length_word h] at hlt

/-- A word of the same size. -/
theorem xor_lt (h : u < 256 ^ w) (h' : v < 256 ^ w) : u ^^^ v < 256 ^ w := by
  have hpow : 256 ^ w = 2 ^ (8 * w) := (Nat.pow_mul 2 8 w).symm
  rw [hpow] at h h' ⊢
  exact Nat.xor_lt_two_pow h h'

theorem length_poke (h : i + w ≤ buf.length) : (poke w i v buf).length = buf.length :=
  length_patch (by rwa [length_bytes_of])

theorem poke_poke (h : i + w ≤ buf.length) : poke w i v (poke w i u buf) = poke w i v buf :=
  patch_patch (by rwa [length_bytes_of]) (Nat.le_of_eq (by rw [length_bytes_of, length_bytes_of]))

theorem poke_peek (h : i + w ≤ buf.length) : poke w i (peek w i buf) buf = buf := by
  have hself := bytes_of_word ((buf.drop i).take w)
  rw [length_word h] at hself
  rw [poke, peek, hself, patch_self]

theorem peek_poke (h : i + w ≤ buf.length) : peek w i (poke w i v buf) = v % 256 ^ w := by
  have hlen : i + (bytes_of w v).length ≤ buf.length := by rwa [length_bytes_of]
  have hbytes := take_drop_patch hlen
  rw [length_bytes_of] at hbytes
  rw [peek, poke, hbytes, word_of_bytes]

end SEDiff.Foundation
