import SEDiff.Foundation.Chance

/-!
# Blocks of memory

A block of memory in C: bytes that may not have been written yet, and the functions that copy and set them. Accesses
outside of the block are failures, and so is the use of a byte that was not written.

## What is proved

* `memcpy_spec`, `memset_spec` — what each byte is afterwards.
* `Stays` — updates in place compose, and what was written stays so.
* `contents_spec` — the bytes that are passed on.
-/

namespace SEDiff.Foundation

/-- A block of memory; `none` is a byte that was not written. -/
abbrev Memory := List (Option UInt8)

/-- The first `n` bytes are there, and were written. -/
def Written (m : Memory) (n : ℕ) : Prop := ∀ i < n, ∃ b, m[i]? = some (some b)

variable {m m' : Memory} {n : ℕ}

theorem Written.le_length (h : Written m n) : n ≤ m.length := by
  cases n with
  | zero => exact Nat.zero_le _
  | succ n =>
    obtain ⟨b, hb⟩ := h n (Nat.lt_succ_self n)
    exact (List.getElem?_eq_some_iff.mp hb).1

theorem Written.mono (h : Written m n) {k : ℕ} (hk : k ≤ n) : Written m k := fun i hi => h i (Nat.lt_of_lt_of_le hi hk)

theorem written_map (bs : List UInt8) : Written (bs.map some) bs.length := by
  intro i hi
  exact ⟨bs[i], by rw [List.getElem?_map, List.getElem?_eq_getElem hi, Option.map_some]⟩

/-! ### Single bytes -/

/-- `m[i]`. -/
def load (m : Memory) (i : ℕ) : Except CErr UInt8 :=
  match m[i]? with
  | none => .error .bounds
  | some none => .error .uninitialized
  | some (some b) => .ok b

/-- `m[i] = b`. -/
def store (m : Memory) (i : ℕ) (b : UInt8) : Except CErr Memory :=
  if i < m.length then .ok (m.set i (some b)) else .error .bounds

theorem load_spec (h : Written m n) {i : ℕ} (hi : i < n) : ∃ b, load m i = .ok b := by
  obtain ⟨b, hb⟩ := h i hi
  exact ⟨b, by rw [load, hb]⟩

/-- An update in place: the size is the same, and what was written is. -/
structure Stays (m m' : Memory) : Prop where
  /-- The size. -/
  length : m'.length = m.length
  /-- What was written. -/
  written : ∀ n, Written m n → Written m' n

theorem Stays.refl (m : Memory) : Stays m m := ⟨rfl, fun _ h => h⟩

theorem Stays.trans {m'' : Memory} (h₁ : Stays m m') (h₂ : Stays m' m'') : Stays m m'' :=
  ⟨h₂.length.trans h₁.length, fun n h => h₂.written n (h₁.written n h)⟩

theorem store_spec {i : ℕ} (hi : i < m.length) (b : UInt8) : ∃ m', store m i b = .ok m' ∧ Stays m m' := by
  refine ⟨_, if_pos hi, List.length_set, fun n h j hj => ?_⟩
  by_cases hij : i = j
  · subst hij
    exact ⟨b, List.getElem?_set_self hi⟩
  · rw [List.getElem?_set_ne hij]
    exact h j hj

/-! ### Words -/

/-- `*(u16*)(m + i)`; the machine is little-endian. -/
def load_u16 (m : Memory) (i : ℕ) : Except CErr UInt16 := do
  let b₀ ← load m i
  let b₁ ← load m (i + 1)
  return b₀.toUInt16 ||| b₁.toUInt16 <<< 8

/-- `*(u16*)(m + i) = v`. -/
def store_u16 (m : Memory) (i : ℕ) (v : UInt16) : Except CErr Memory := do
  let m ← store m i v.toUInt8
  store m (i + 1) (v >>> 8).toUInt8

/-- `*(u32*)(m + i)`. -/
def load_u32 (m : Memory) (i : ℕ) : Except CErr UInt32 := do
  let v₀ ← load_u16 m i
  let v₁ ← load_u16 m (i + 2)
  return v₀.toUInt32 ||| v₁.toUInt32 <<< 16

/-- `*(u32*)(m + i) = v`. -/
def store_u32 (m : Memory) (i : ℕ) (v : UInt32) : Except CErr Memory := do
  let m ← store_u16 m i v.toUInt16
  store_u16 m (i + 2) (v >>> 16).toUInt16

theorem load_u16_spec (h : Written m n) {i : ℕ} (hi : i + 1 < n) : ∃ v, load_u16 m i = .ok v := by
  obtain ⟨b₀, h₀⟩ := load_spec h (Nat.lt_of_succ_lt hi)
  obtain ⟨b₁, h₁⟩ := load_spec h hi
  exact ⟨_, by rw [load_u16, h₀]; simp only [bind, Except.bind]; rw [h₁]; rfl⟩

theorem store_u16_spec {i : ℕ} (hi : i + 1 < m.length) (v : UInt16) : ∃ m', store_u16 m i v = .ok m' ∧ Stays m m' := by
  obtain ⟨m₁, h₁, hstays₁⟩ := store_spec (Nat.lt_of_succ_lt hi) v.toUInt8
  obtain ⟨m₂, h₂, hstays₂⟩ := store_spec (by rwa [hstays₁.length]) (v >>> 8).toUInt8
  refine ⟨m₂, ?_, hstays₁.trans hstays₂⟩
  rw [store_u16, h₁]
  exact h₂

theorem load_u32_spec (h : Written m n) {i : ℕ} (hi : i + 3 < n) : ∃ v, load_u32 m i = .ok v := by
  obtain ⟨v₀, h₀⟩ := load_u16_spec h (i := i) (by omega)
  obtain ⟨v₁, h₁⟩ := load_u16_spec h (i := i + 2) (by omega)
  exact ⟨_, by rw [load_u32, h₀]; simp only [bind, Except.bind]; rw [h₁]; rfl⟩

theorem store_u32_spec {i : ℕ} (hi : i + 3 < m.length) (v : UInt32) : ∃ m', store_u32 m i v = .ok m' ∧ Stays m m' := by
  obtain ⟨m₁, h₁, hstays₁⟩ := @store_u16_spec m i (by omega) v.toUInt16
  obtain ⟨m₂, h₂, hstays₂⟩ := @store_u16_spec m₁ (i + 2) (by rw [hstays₁.length]; omega) (v >>> 16).toUInt16
  refine ⟨m₂, ?_, hstays₁.trans hstays₂⟩
  rw [store_u32, h₁]
  exact h₂

/-! ### Ranges -/

/-- A new block, not written yet. -/
def malloc (size : ℕ) : Memory := List.replicate size none

/-- `realloc` to this size, with zeros in what is new. -/
def realloc_zero (m : Memory) (size : ℕ) : Memory := m.take size ++ List.replicate (size - m.length) (some 0)

/-- `memcpy(dst + d, src + s, n)`. -/
def memcpy (dst : Memory) (d : ℕ) (src : Memory) (s n : ℕ) : Except CErr Memory :=
  if d + n ≤ dst.length ∧ s + n ≤ src.length then .ok (dst.take d ++ ((src.drop s).take n ++ dst.drop (d + n)))
  else .error .bounds

/-- `memset(m + d, v, n)`. -/
def memset (m : Memory) (d : ℕ) (v : UInt8) (n : ℕ) : Except CErr Memory :=
  if d + n ≤ m.length then .ok (m.take d ++ (List.replicate n (some v) ++ m.drop (d + n))) else .error .bounds

@[simp] theorem length_malloc (size : ℕ) : (malloc size).length = size := List.length_replicate

theorem length_realloc_zero (m : Memory) (size : ℕ) : (realloc_zero m size).length = size := by
  rw [realloc_zero, List.length_append, List.length_take, List.length_replicate]
  omega

/-- Three parts of a block. -/
theorem getElem?_splice {a b z : Memory} {d n i : ℕ} (ha : a.length = d) (hb : b.length = n) :
    (a ++ (b ++ z))[i]? = if i < d then a[i]? else if i < d + n then b[i - d]? else z[i - (d + n)]? := by
  split
  · exact List.getElem?_append_left (by omega)
  · rw [List.getElem?_append_right (by omega), ha]
    split
    · exact List.getElem?_append_left (by omega)
    · rw [List.getElem?_append_right (by omega), hb, Nat.sub_sub]

/-- **`memcpy`** writes the range, and nothing else. -/
theorem memcpy_spec {dst src : Memory} {d s n : ℕ} (hd : d + n ≤ dst.length) (hs : s + n ≤ src.length) :
    ∃ m', memcpy dst d src s n = .ok m' ∧ m'.length = dst.length ∧
      ∀ i, m'[i]? = if d ≤ i ∧ i < d + n then src[s + (i - d)]? else dst[i]? := by
  refine ⟨_, if_pos ⟨hd, hs⟩, ?_, fun i => ?_⟩
  · rw [List.length_append, List.length_append, List.length_take, List.length_take, List.length_drop, List.length_drop]
    omega
  · have hfront : (dst.take d).length = d := by
      rw [List.length_take]
      omega
    have hmid : ((src.drop s).take n).length = n := by
      rw [List.length_take, List.length_drop]
      omega
    rw [getElem?_splice hfront hmid]
    by_cases hlt : i < d
    · rw [if_pos hlt, if_neg (by omega), List.getElem?_take_of_lt hlt]
    · rw [if_neg hlt]
      by_cases hin : i < d + n
      · rw [if_pos hin, if_pos ⟨by omega, hin⟩, List.getElem?_take_of_lt (by omega), List.getElem?_drop]
      · rw [if_neg hin, if_neg (by omega), List.getElem?_drop]
        congr 1
        omega

/-- **`memset`** writes the range, and nothing else. -/
theorem memset_spec {d n : ℕ} (hd : d + n ≤ m.length) (v : UInt8) :
    ∃ m', memset m d v n = .ok m' ∧ m'.length = m.length ∧
      ∀ i, m'[i]? = if d ≤ i ∧ i < d + n then some (some v) else m[i]? := by
  refine ⟨_, if_pos hd, ?_, fun i => ?_⟩
  · rw [List.length_append, List.length_append, List.length_take, List.length_replicate, List.length_drop]
    omega
  · have hfront : (m.take d).length = d := by
      rw [List.length_take]
      omega
    rw [getElem?_splice hfront List.length_replicate]
    by_cases hlt : i < d
    · rw [if_pos hlt, if_neg (by omega), List.getElem?_take_of_lt hlt]
    · rw [if_neg hlt]
      by_cases hin : i < d + n
      · rw [if_pos hin, if_pos ⟨by omega, hin⟩, List.getElem?_replicate, if_pos (by omega)]
      · rw [if_neg hin, if_neg (by omega), List.getElem?_drop]
        congr 1
        omega

/-! ### Passing bytes on -/

/-- The first `n` bytes, as a function that reads them all gets them. -/
def contents : Memory → ℕ → Except CErr (List UInt8)
  | _, 0 => .ok []
  | [], _ + 1 => .error .bounds
  | none :: _, _ + 1 => .error .uninitialized
  | some b :: m, n + 1 => (contents m n).map (b :: ·)

/-- **They are there** when they were written. -/
theorem contents_spec (h : Written m n) : ∃ bs, contents m n = .ok bs ∧ bs.length = n ∧ m.take n = bs.map some := by
  induction m generalizing n with
  | nil =>
    have hn : n = 0 := Nat.le_zero.mp h.le_length
    subst hn
    exact ⟨[], rfl, rfl, rfl⟩
  | cons o m ih =>
    cases n with
    | zero => exact ⟨[], rfl, rfl, rfl⟩
    | succ n =>
      obtain ⟨b, hb⟩ := h 0 (Nat.succ_pos n)
      rw [List.getElem?_cons_zero, Option.some.injEq] at hb
      subst hb
      obtain ⟨bs, hbs, hlen, htake⟩ := ih fun i hi => h (i + 1) (Nat.succ_lt_succ hi)
      refine ⟨b :: bs, ?_, ?_, ?_⟩
      · rw [contents, hbs]
        rfl
      · rw [List.length_cons, hlen]
      · rw [List.take_succ_cons, htake, List.map_cons]

/-- A block that was written from a list. -/
theorem contents_map (bs : List UInt8) : contents (bs.map some) bs.length = .ok bs := by
  induction bs with
  | nil => rfl
  | cons b bs ih =>
    rw [List.map_cons, List.length_cons, contents, ih]
    rfl

end SEDiff.Foundation
