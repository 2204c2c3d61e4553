import SEDiff.Afl.AutoExtras
import SEDiff.Foundation.Sorting

/-!
# The automatic dictionary

`maybe_add_auto` keeps the best of the tokens that were found, `save_auto` writes them to files, and `load_auto` reads
these when the fuzzer is started again.

## What is proved

* `Dictionary.step` — what one token does to a dictionary that is in order.
* `session_ok` — from the start of the fuzzer on, the dictionary stays within its size, sorted for its users, and free of
  duplicates.
* `evicted_rarely_used` — an entry that is evicted was in the less used half of a full dictionary.
* `reload_top` — what is loaded again are the tokens that were at the top when they were last saved.
-/

namespace SEDiff.Afl.Dictionary

open Foundation Havoc AutoExtras

/-! ### The source -/

/-- `USE_AUTO_EXTRAS`. -/
def USE_AUTO_EXTRAS : ℕ := 50

/-- `MAX_AUTO_EXTRAS`. -/
def MAX_AUTO_EXTRAS : ℕ := USE_AUTO_EXTRAS * 10

/-- `MAX_DICT_FILE`. -/
def MAX_DICT_FILE : ℕ := 128

/-- `struct extra_data`. -/
structure ExtraData where
  /-- Dictionary token data. -/
  data : List UInt8
  /-- Use count in the corpus. -/
  hit_cnt : ℕ

/-- `compare_extras_len`: a difference of `u32` as an `int`. -/
def compare_extras_len (e1 e2 : ExtraData) : ℤ := ((e1.data.length : ℤ) - e2.data.length).bmod (2 ^ 32)

/-- `compare_extras_use_d`. -/
def compare_extras_use_d (e1 e2 : ExtraData) : ℤ := ((e2.hit_cnt : ℤ) - e1.hit_cnt).bmod (2 ^ 32)

/-- `tolower`, in the "C" locale. -/
def tolower (b : UInt8) : UInt8 := if 65 ≤ b ∧ b ≤ 90 then b + 32 else b

/-- `memcmp_nocase`, of strings of the same length: is there a difference? -/
def memcmp_nocase : List UInt8 → List UInt8 → Bool
  | a :: m1, b :: m2 => if tolower a ^^^ tolower b ≠ 0 then true else memcmp_nocase m1 m2
  | _, _ => false

/-- Only one byte, repeated. -/
def identical : List UInt8 → Bool
  | [] => false
  | b :: mem => mem.all fun c => b ^^^ c == 0

/-- Builtin interesting values. The table of words is signed, and no negative element is equal to an unsigned word. -/
def builtin (mem : List UInt8) : Bool :=
  (mem.length == 2 &&
    match load_u16 (mem.map some) 0 with
    | .ok v =>
      (INTERESTING_8 ++ INTERESTING_16).any fun x => (v.toNat : ℤ) == x || v == SWAP16 (UInt16.ofInt x)
    | .error _ => false) ||
  (mem.length == 4 &&
    match load_u32 (mem.map some) 0 with
    | .ok v => interesting_32.any fun x => v == x || v == SWAP32 x
    | .error _ => false)

/-- The user's tokens, sorted by size: only those of the same size are compared. -/
def in_extras (extras : List (List UInt8)) (mem : List UInt8) : Bool :=
  ((extras.dropWhile fun e => e.length < mem.length).takeWhile fun e => e.length == mem.length).any fun e =>
    !memcmp_nocase e mem

/-- The same token, up to case. -/
def matching (mem : List UInt8) (e : ExtraData) : Bool :=
  e.data.length == mem.length && !memcmp_nocase e.data mem

/-- The automatic dictionary. -/
structure Autos where
  /-- Automatically selected extras. -/
  a_extras : List ExtraData
  /-- Auto-generated tokens changed? -/
  auto_changed : Bool

variable (q : Qsort ExtraData)

/-- `sort_a_extras`. -/
def sort_a_extras (a_extras : List ExtraData) : Autos :=
  ⟨q.sort_top compare_extras_use_d compare_extras_len USE_AUTO_EXTRAS a_extras, true⟩

/-- `maybe_add_auto`. -/
def maybe_add_auto (extras : List (List UInt8)) (x : Autos) (mem : List UInt8) : Chance Autos :=
  if identical mem || builtin mem || in_extras extras mem then pure x
  else
    match x.a_extras.findIdx? (matching mem) with
    | some i => pure (sort_a_extras q (x.a_extras.modify i fun e => { e with hit_cnt := (e.hit_cnt + 1) % 2 ^ 32 }))
    | none =>
      if x.a_extras.length < MAX_AUTO_EXTRAS then pure (sort_a_extras q (x.a_extras ++ [⟨mem, 0⟩]))
      else do
        let r ← UR ((MAX_AUTO_EXTRAS + 1) / 2)
        certain (if MAX_AUTO_EXTRAS / 2 + r < x.a_extras.length then
          .ok (sort_a_extras q (x.a_extras.set (MAX_AUTO_EXTRAS / 2 + r) ⟨mem, 0⟩)) else .error .bounds)

/-- The files `auto_extras/auto_%06u`. -/
abbrev Files := ℕ → Option (List UInt8)

/-- `save_auto`. -/
def save_auto (x : Autos) (files : Files) : Autos × Files :=
  if !x.auto_changed then (x, files)
  else
    ({ x with auto_changed := false },
      fun i => if i < min USE_AUTO_EXTRAS x.a_extras.length then (x.a_extras[i]?).map ExtraData.data else files i)

/-- `load_auto` from the `i`th file on, at most `n` of them. -/
def load_auto_from (files : Files) : ℕ → ℕ → Autos → Chance Autos
  | 0, _, x => pure x
  | n + 1, i, x =>
    match files i with
    | none => pure x
    | some content => do
      let tmp := content.take (MAX_AUTO_EXTRA + 1)
      let x ← (if tmp.length ≥ MIN_AUTO_EXTRA ∧ tmp.length ≤ MAX_AUTO_EXTRA then maybe_add_auto q [] x tmp else pure x :
        Chance Autos)
      load_auto_from files n (i + 1) x

/-- `load_auto`, before the user's tokens are loaded. -/
def load_auto (files : Files) : Chance Autos := load_auto_from q files USE_AUTO_EXTRAS 0 ⟨[], false⟩

/-- What happens to the dictionary while the fuzzer runs. -/
inductive Event
  /-- A token is found. -/
  | token (mem : List UInt8)
  /-- The dictionary is saved. -/
  | save

/-- One event; the files are those of the output directory. -/
def step (extras : List (List UInt8)) (x : Autos) (files : Files) : Event → Chance (Autos × Files)
  | .token mem => do
    let x ← maybe_add_auto q extras x mem
    return (x, files)
  | .save => pure (save_auto x files)

/-- One event after the other. -/
def steps (extras : List (List UInt8)) (x : Autos) (files : Files) : List Event → Chance (Autos × Files)
  | [] => pure (x, files)
  | event :: rest => do
    let (x, files) ← step q extras x files event
    steps extras x files rest

/-- The user's tokens, as `load_extras` leaves them. -/
def load_extras (user : List (List UInt8)) : List (List UInt8) :=
  (q.sort compare_extras_len (user.map fun u => ⟨u, 0⟩)).map ExtraData.data

/-- The fuzzer is started on the files of an earlier run, and then works in an empty directory. -/
def session (old : Files) (user : List (List UInt8)) (events : List Event) : Chance (Autos × Files) := do
  let x ← load_auto q old
  steps q (load_extras q user) x (fun _ => none) events

/-! ### Comparisons -/

/-- Up to case. -/
def lower (mem : List UInt8) : List UInt8 := mem.map tolower

theorem memcmp_nocase_eq_false {m1 m2 : List UInt8} (h : m1.length = m2.length) :
    memcmp_nocase m1 m2 = false ↔ lower m1 = lower m2 := by
  induction m1 generalizing m2 with
  | nil =>
    obtain rfl := List.length_eq_zero_iff.mp h.symm
    exact ⟨fun _ => rfl, fun _ => rfl⟩
  | cons a m1 ih =>
    cases m2 with
    | nil => exact absurd h (Nat.succ_ne_zero _)
    | cons b m2 =>
      have hrest := ih (Nat.succ.inj h)
      simp only [memcmp_nocase, lower, List.map_cons, List.cons.injEq] at hrest ⊢
      by_cases hab : tolower a = tolower b
      · rw [if_neg (by simp [hab]), hrest]
        exact ⟨fun h => ⟨hab, h⟩, fun h => h.2⟩
      · rw [if_pos fun hc => hab (UInt8.xor_eq_zero_iff.mp hc)]
        exact ⟨fun hc => absurd hc.symm Bool.false_ne_true, fun h => absurd h.1 hab⟩

theorem same_iff {e mem : List UInt8} :
    (e.length == mem.length && !memcmp_nocase e mem) = true ↔ lower e = lower mem := by
  rw [Bool.and_eq_true, beq_iff_eq, Bool.not_eq_true']
  refine ⟨fun h => (memcmp_nocase_eq_false h.1).mp h.2, fun h => ?_⟩
  have hlen : e.length = mem.length := by
    simpa [lower] using congrArg List.length h
  exact ⟨hlen, (memcmp_nocase_eq_false hlen).mpr h⟩

theorem matching_iff {mem : List UInt8} {e : ExtraData} : matching mem e = true ↔ lower e.data = lower mem := same_iff

/-- **The sorted scan** finds whatever is there. -/
theorem in_extras_iff {extras : List (List UInt8)} (h : extras.Pairwise fun a b => a.length ≤ b.length)
    {mem : List UInt8} : in_extras extras mem = true ↔ ∃ e ∈ extras, lower e = lower mem := by
  rw [in_extras, scan_sorted h, List.any_eq_true]
  constructor
  · rintro ⟨e, he, hsame⟩
    obtain ⟨hmem, hlen⟩ := List.mem_filter.mp he
    exact ⟨e, hmem, same_iff.mp (by rw [hlen, hsame, Bool.and_self])⟩
  · rintro ⟨e, he, hsame⟩
    have hboth := Bool.and_eq_true_iff.mp (same_iff.mpr hsame)
    exact ⟨e, List.mem_filter.mpr ⟨he, hboth.1⟩, hboth.2⟩

/-! ### One token -/

/-- A token that may be in the dictionary. -/
structure Token (mem : List UInt8) : Prop where
  /-- Not too short. -/
  min : MIN_AUTO_EXTRA ≤ mem.length
  /-- Not too long. -/
  max : mem.length ≤ MAX_AUTO_EXTRA
  /-- Not one byte repeated. -/
  varied : identical mem = false
  /-- Nothing that is tried anyway. -/
  own : builtin mem = false

/-- What does not depend on the order. -/
structure Content (n : ℕ) (l : List ExtraData) : Prop where
  /-- There is room. -/
  length : l.length ≤ MAX_AUTO_EXTRAS
  /-- There are no duplicates. -/
  distinct : l.Pairwise fun a b => lower a.data ≠ lower b.data
  /-- There are only tokens. -/
  tokens : ∀ e ∈ l, Token e.data
  /-- No counter is above the number of tokens that were offered. -/
  bounded : ∀ e ∈ l, e.hit_cnt ≤ n

/-- The order for the users of the dictionary. -/
structure Order (l : List ExtraData) : Prop where
  /-- The tokens that are used are sorted by size. -/
  sizes : (l.take USE_AUTO_EXTRAS).Pairwise fun a b => a.data.length ≤ b.data.length
  /-- The others are sorted by use count. -/
  uses : (l.drop USE_AUTO_EXTRAS).Pairwise fun a b => b.hit_cnt ≤ a.hit_cnt
  /-- They were not used more than those. -/
  top : ∀ a ∈ l.take USE_AUTO_EXTRAS, ∀ b ∈ l.drop USE_AUTO_EXTRAS, b.hit_cnt ≤ a.hit_cnt

theorem Content.perm {n : ℕ} {l l' : List ExtraData} (h : Content n l) (hperm : l'.Perm l) : Content n l' where
  length := hperm.length_eq.trans_le h.length
  distinct := (hperm.pairwise_iff fun hab => hab.symm).mpr h.distinct
  tokens e he := h.tokens e (hperm.mem_iff.mp he)
  bounded e he := h.bounded e (hperm.mem_iff.mp he)

/-- A difference of small numbers. -/
theorem bmod_sub {m n : ℕ} (hm : m < 2 ^ 31) (hn : n < 2 ^ 31) : ((m : ℤ) - n).bmod (2 ^ 32) = (m : ℤ) - n := by
  rw [Int.bmod_eq_of_le] <;> omega

variable {q}

/-- **Sorting** brings the order about. -/
theorem order_sort {n : ℕ} {l : List ExtraData} (h : Content n l) (hn : n < 2 ^ 31) :
    Order (sort_a_extras q l).a_extras := by
  have hsize : ∀ a ∈ l, ∀ b ∈ l, compare_extras_len a b = (a.data.length : ℤ) - b.data.length := by
    intro a ha b hb
    have hmaxa := (h.tokens a ha).max
    have hmaxb := (h.tokens b hb).max
    exact bmod_sub (by simp [MAX_AUTO_EXTRA] at *; omega) (by simp [MAX_AUTO_EXTRA] at *; omega)
  have huse : ∀ a ∈ l, ∀ b ∈ l, compare_extras_use_d a b = -(a.hit_cnt : ℤ) - -(b.hit_cnt : ℤ) := by
    intro a ha b hb
    rw [compare_extras_use_d, bmod_sub ((h.bounded b hb).trans_lt hn) ((h.bounded a ha).trans_lt hn)]
    omega
  obtain ⟨hrest, htop⟩ := q.rest compare_extras_len USE_AUTO_EXTRAS huse
  refine ⟨(q.top hsize).imp fun hab => by omega, hrest.imp fun hab => by omega, fun a ha b hb => ?_⟩
  have hab := htop a ha b hb
  omega

/-- What `maybe_add_auto` can do. -/
inductive Changed (q : Qsort ExtraData) (extras : List (List UInt8)) (x : Autos) (mem : List UInt8) : Autos → Prop
  /-- The token is not wanted. -/
  | skip (h : (identical mem || builtin mem || in_extras extras mem) = true) : Changed q extras x mem x
  /-- It is there already. -/
  | hit {i : ℕ} {e : ExtraData} (hi : x.a_extras[i]? = some e) (h : lower e.data = lower mem) :
    Changed q extras x mem
      (sort_a_extras q (x.a_extras.set i { e with hit_cnt := (e.hit_cnt + 1) % 2 ^ 32 }))
  /-- There is room for it. -/
  | append (h : (identical mem || builtin mem || in_extras extras mem) = false)
    (hnew : ∀ e ∈ x.a_extras, lower e.data ≠ lower mem) (hroom : x.a_extras.length < MAX_AUTO_EXTRAS) :
    Changed q extras x mem (sort_a_extras q (x.a_extras ++ [⟨mem, 0⟩]))
  /-- It takes the place of an entry of the lower half. -/
  | evict {i : ℕ} (h : (identical mem || builtin mem || in_extras extras mem) = false)
    (hnew : ∀ e ∈ x.a_extras, lower e.data ≠ lower mem) (hfull : MAX_AUTO_EXTRAS ≤ x.a_extras.length)
    (hhalf : MAX_AUTO_EXTRAS / 2 ≤ i) (hi : i < x.a_extras.length) :
    Changed q extras x mem (sort_a_extras q (x.a_extras.set i ⟨mem, 0⟩))

/-- **There is always a result**, and it is one of these. -/
theorem maybe_add_auto_changed (extras : List (List UInt8)) (x : Autos) (mem : List UInt8) :
    Always (maybe_add_auto q extras x mem) (Changed q extras x mem) := by
  rw [maybe_add_auto]
  cases hskip : identical mem || builtin mem || in_extras extras mem with
  | true =>
    rw [if_pos rfl]
    exact .pure (.skip hskip)
  | false =>
    rw [if_neg Bool.false_ne_true]
    cases hfind : x.a_extras.findIdx? (matching mem) with
    | some i =>
      obtain ⟨hi, hmatch, -⟩ := List.findIdx?_eq_some_iff_getElem.mp hfind
      have hget : x.a_extras[i]? = some x.a_extras[i] := List.getElem?_eq_getElem hi
      refine .pure ?_
      rw [List.modify_eq_set_getElem?, hget]
      exact .hit hget (matching_iff.mp hmatch)
    | none =>
      have hnew : ∀ e ∈ x.a_extras, lower e.data ≠ lower mem := by
        intro e he hsame
        have hno := List.findIdx?_eq_none_iff.mp hfind e he
        rw [matching_iff.mpr hsame] at hno
        exact Bool.false_ne_true hno.symm
      dsimp only
      refine .ite (fun hroom => .pure (.append hskip hnew hroom)) fun hfull => ?_
      refine .bind (UR_always (Nat.zero_lt_succ 249)) fun r hr => ?_
      have hin : MAX_AUTO_EXTRAS / 2 + r < x.a_extras.length := by
        have hhalf : MAX_AUTO_EXTRAS / 2 + (MAX_AUTO_EXTRAS + 1) / 2 ≤ MAX_AUTO_EXTRAS := by decide
        omega
      exact .certain (if_pos hin) (.evict hskip hnew (Nat.not_lt.mp hfull) (Nat.le_add_right _ r) hin)

/-! ### The invariant -/

variable {n : ℕ} {l : List ExtraData} {mem : List UInt8} {x y : Autos} {extras : List (List UInt8)}

theorem Content.mono (h : Content n l) {n' : ℕ} (hn : n ≤ n') : Content n' l :=
  ⟨h.length, h.distinct, h.tokens, fun e he => (h.bounded e he).trans hn⟩

/-- Only the counter of an entry changes. -/
theorem Content.hit (h : Content n l) {i : ℕ} {e : ExtraData} (hi : l[i]? = some e) {m : ℕ} (hm : m ≤ n) :
    Content n (l.set i { e with hit_cnt := m }) where
  length := by
    rw [List.length_set]
    exact h.length
  distinct := by
    have hsame : (l.set i { e with hit_cnt := m }).map (fun a => lower a.data) = l.map fun a => lower a.data := by
      refine List.ext_getElem? fun j => ?_
      rw [List.getElem?_map, List.getElem?_map, List.getElem?_set]
      split
      · next hij =>
        rw [← hij, hi, if_pos (List.getElem?_eq_some_iff.mp hi).1]
        rfl
      · rfl
    rw [← List.pairwise_map (R := fun a b : List UInt8 => a ≠ b), hsame, List.pairwise_map]
    exact h.distinct
  tokens a ha := by
    rcases List.mem_or_eq_of_mem_set ha with ha | rfl
    · exact h.tokens a ha
    · exact h.tokens e (List.mem_of_getElem? hi)
  bounded a ha := by
    rcases List.mem_or_eq_of_mem_set ha with ha | rfl
    · exact h.bounded a ha
    · exact hm

/-- A new token at the end. -/
theorem Content.append (h : Content n l) (hmem : Token mem) (hnew : ∀ e ∈ l, lower e.data ≠ lower mem)
    (hroom : l.length < MAX_AUTO_EXTRAS) : Content n (l ++ [⟨mem, 0⟩]) where
  length := by
    rw [List.length_append]
    exact hroom
  distinct := List.pairwise_append.mpr ⟨h.distinct, List.pairwise_singleton _ _, fun a ha b hb => by
    rw [List.mem_singleton.mp hb]
    exact hnew a ha⟩
  tokens a ha := by
    rcases List.mem_append.mp ha with ha | ha
    · exact h.tokens a ha
    · rw [List.mem_singleton.mp ha]
      exact hmem
  bounded a ha := by
    rcases List.mem_append.mp ha with ha | ha
    · exact h.bounded a ha
    · rw [List.mem_singleton.mp ha]
      exact Nat.zero_le n

/-- A new token in the place of another. -/
theorem Content.replace (h : Content n l) (hmem : Token mem) (hnew : ∀ e ∈ l, lower e.data ≠ lower mem) {i : ℕ}
    (hi : i < l.length) : Content n (l.set i ⟨mem, 0⟩) := by
  have hcut : l = l.take i ++ (l[i] :: l.drop (i + 1)) := by
    rw [List.cons_getElem_drop_succ, List.take_append_drop]
  have hset : l.set i ⟨mem, 0⟩ = l.take i ++ (⟨mem, 0⟩ :: l.drop (i + 1)) := List.set_eq_take_append_cons_drop ▸ if_pos hi
  have hsub : (l.take i ++ l.drop (i + 1)).Sublist l := by
    conv_rhs => rw [hcut]
    exact (List.Sublist.refl _).append (List.sublist_cons_self _ _)
  have hperm : (l.set i ⟨mem, 0⟩).Perm (l.take i ++ l.drop (i + 1) ++ [⟨mem, 0⟩]) := by
    rw [hset, List.append_assoc]
    exact ((List.perm_append_singleton _ _).symm).append_left _
  have hrest : Content n (l.take i ++ l.drop (i + 1)) :=
    ⟨hsub.length_le.trans h.length, h.distinct.sublist hsub, fun e he => h.tokens e (hsub.subset he),
      fun e he => h.bounded e (hsub.subset he)⟩
  refine (hrest.append hmem (fun e he => hnew e (hsub.subset he)) ?_).perm hperm
  have hlen := congrArg List.length hcut
  have hmax := h.length
  rw [List.length_append, List.length_cons] at hlen
  rw [List.length_append]
  omega

theorem token_of (hmin : MIN_AUTO_EXTRA ≤ mem.length) (hmax : mem.length ≤ MAX_AUTO_EXTRA)
    (h : (identical mem || builtin mem || in_extras extras mem) = false) : Token mem := by
  obtain ⟨hboth, -⟩ := Bool.or_eq_false_iff.mp h
  obtain ⟨hvaried, hown⟩ := Bool.or_eq_false_iff.mp hboth
  exact ⟨hmin, hmax, hvaried, hown⟩

theorem perm_sort : (sort_a_extras q l).a_extras.Perm l := q.perm_sort_top

/-- **One token** keeps the dictionary in order. -/
theorem Changed.ok (h : Changed q extras x mem y) (hmin : MIN_AUTO_EXTRA ≤ mem.length)
    (hmax : mem.length ≤ MAX_AUTO_EXTRA) (hn : n + 1 < 2 ^ 31) (hx : Content n x.a_extras) (ho : Order x.a_extras) :
    Content (n + 1) y.a_extras ∧ Order y.a_extras := by
  have hmore := hx.mono (Nat.le_succ n)
  have hsorted : ∀ {l : List ExtraData}, Content (n + 1) l →
      Content (n + 1) (sort_a_extras q l).a_extras ∧ Order (sort_a_extras q l).a_extras :=
    fun hl => ⟨hl.perm perm_sort, order_sort hl hn⟩
  cases h with
  | skip h => exact ⟨hmore, ho⟩
  | hit hi h =>
    refine hsorted (hmore.hit hi ?_)
    have hold := hx.bounded _ (List.mem_of_getElem? hi)
    omega
  | append h hnew hroom => exact hsorted (hmore.append (token_of hmin hmax h) hnew hroom)
  | evict h hnew hfull hhalf hi => exact hsorted (hmore.replace (token_of hmin hmax h) hnew hi)

/-- Where the entries come from. -/
theorem Changed.origin (h : Changed q extras x mem y) {e : ExtraData} (he : e ∈ y.a_extras) :
    (∃ e' ∈ x.a_extras, e'.data = e.data) ∨ e.data = mem ∧ in_extras extras mem = false := by
  cases h with
  | skip h => exact .inl ⟨e, he, rfl⟩
  | hit hi h =>
    rcases List.mem_or_eq_of_mem_set (perm_sort.mem_iff.mp he) with he | rfl
    · exact .inl ⟨e, he, rfl⟩
    · exact .inl ⟨_, List.mem_of_getElem? hi, rfl⟩
  | append h hnew hroom =>
    rcases List.mem_append.mp (perm_sort.mem_iff.mp he) with he | he
    · exact .inl ⟨e, he, rfl⟩
    · rw [List.mem_singleton.mp he]
      exact .inr ⟨rfl, (Bool.or_eq_false_iff.mp h).2⟩
  | evict h hnew hfull hhalf hi =>
    rcases List.mem_or_eq_of_mem_set (perm_sort.mem_iff.mp he) with he | rfl
    · exact .inl ⟨e, he, rfl⟩
    · exact .inr ⟨rfl, (Bool.or_eq_false_iff.mp h).2⟩

/-- The dictionary does not shrink, and a change is noted. -/
theorem Changed.grows (h : Changed q extras x mem y) :
    x.a_extras.length ≤ y.a_extras.length ∧ (y = x ∨ y.auto_changed = true) := by
  cases h with
  | skip h => exact ⟨Nat.le_refl _, .inl rfl⟩
  | hit hi h => exact ⟨(perm_sort.length_eq.trans List.length_set).ge, .inr rfl⟩
  | append h hnew hroom =>
    refine ⟨?_, .inr rfl⟩
    rw [perm_sort.length_eq, List.length_append]
    exact Nat.le_add_right _ _
  | evict h hnew hfull hhalf hi => exact ⟨(perm_sort.length_eq.trans List.length_set).ge, .inr rfl⟩

/-- The tokens that are used, in order. -/
def top (x : Autos) : List (List UInt8) := (x.a_extras.take USE_AUTO_EXTRAS).map ExtraData.data

/-- No token of the user, or one that was loaded before those were. -/
def Allowed (old : Files) (extras : List (List UInt8)) (data : List UInt8) : Prop :=
  (∀ u ∈ extras, lower u ≠ lower data) ∨ ∃ i < USE_AUTO_EXTRAS, old i = some data

/-- What holds in every session, after `n` tokens. -/
structure Valid (n : ℕ) (old : Files) (extras : List (List UInt8)) (x : Autos) (files : Files) : Prop where
  /-- The content of the dictionary. -/
  content : Content n x.a_extras
  /-- Its order. -/
  order : Order x.a_extras
  /-- The user's tokens are not in it as well. -/
  allowed : ∀ e ∈ x.a_extras, Allowed old extras e.data
  /-- The files are those of the dictionary, unless it changed. -/
  saved : x.auto_changed = false → ∀ i, files i = (top x)[i]?
  /-- There are no others. -/
  absent : ∀ i, min USE_AUTO_EXTRAS x.a_extras.length ≤ i → files i = none

variable {old files : Files}

/-- **A token.** -/
theorem Valid.token (h : Valid n old extras x files) (hextras : extras.Pairwise fun a b => a.length ≤ b.length)
    (hmin : MIN_AUTO_EXTRA ≤ mem.length) (hmax : mem.length ≤ MAX_AUTO_EXTRA) (hn : n + 1 < 2 ^ 31)
    (hchanged : Changed q extras x mem y) : Valid (n + 1) old extras y files := by
  obtain ⟨hcontent, horder⟩ := hchanged.ok hmin hmax hn h.content h.order
  obtain ⟨hlen, hnoted⟩ := hchanged.grows
  refine ⟨hcontent, horder, fun e he => ?_, fun hsame => ?_, fun i hi => h.absent i ?_⟩
  · rcases hchanged.origin he with ⟨e', he', hdata⟩ | ⟨hdata, hno⟩
    · exact hdata ▸ h.allowed e' he'
    · refine .inl fun u hu hsame => ?_
      rw [(in_extras_iff hextras).mpr ⟨u, hu, hdata ▸ hsame⟩] at hno
      exact Bool.false_ne_true hno.symm
  · rcases hnoted with rfl | hnoted
    · exact h.saved hsame
    · rw [hnoted] at hsame
      exact absurd hsame.symm Bool.false_ne_true
  · omega

theorem getElem?_top (x : Autos) (i : ℕ) :
    (top x)[i]? = if i < min USE_AUTO_EXTRAS x.a_extras.length then (x.a_extras[i]?).map ExtraData.data else none := by
  rw [top, List.getElem?_map, List.getElem?_take]
  split
  · next hi =>
    split
    · rfl
    · rw [List.getElem?_eq_none (by omega)]
      rfl
  · rw [if_neg (by omega)]
    rfl

/-- **Saving.** -/
theorem Valid.save (h : Valid n old extras x files) :
    Valid n old extras (save_auto x files).1 (save_auto x files).2 ∧ (save_auto x files).1.auto_changed = false := by
  rw [save_auto]
  cases hchanged : x.auto_changed with
  | false => exact ⟨h, hchanged⟩
  | true =>
    have hfiles : ∀ i, (if i < min USE_AUTO_EXTRAS x.a_extras.length then (x.a_extras[i]?).map ExtraData.data
        else files i) = (top x)[i]? := by
      intro i
      rw [getElem?_top]
      split
      · rfl
      · exact h.absent i (Nat.not_lt.mp ‹_›)
    refine ⟨⟨h.content, h.order, h.allowed, fun _ => hfiles, fun i hi => ?_⟩, rfl⟩
    exact (if_neg (Nat.not_lt.mpr hi)).trans (h.absent i hi)

/-! ### Sessions -/

/-- The token of an event has the right length. -/
def Fits : Event → Prop
  | .token mem => MIN_AUTO_EXTRA ≤ mem.length ∧ mem.length ≤ MAX_AUTO_EXTRA
  | .save => True

instance : DecidablePred Fits
  | .token mem => inferInstanceAs (Decidable (MIN_AUTO_EXTRA ≤ mem.length ∧ mem.length ≤ MAX_AUTO_EXTRA))
  | .save => .isTrue trivial

/-- **One event.** -/
theorem Valid.step (h : Valid n old extras x files) (hextras : extras.Pairwise fun a b => a.length ≤ b.length)
    {event : Event} (hfits : Fits event) (hn : n + 1 < 2 ^ 31) :
    Always (step q extras x files event) fun s => Valid (n + 1) old extras s.1 s.2 := by
  cases event with
  | token mem =>
    exact .bind (maybe_add_auto_changed extras x mem) fun y hy => .pure (h.token hextras hfits.1 hfits.2 hn hy)
  | save =>
    obtain ⟨hsaved, -⟩ := h.save
    exact .pure ⟨hsaved.content.mono (Nat.le_succ n), hsaved.order, hsaved.allowed, hsaved.saved, hsaved.absent⟩

/-- **All events.** -/
theorem Valid.steps (h : Valid n old extras x files) (hextras : extras.Pairwise fun a b => a.length ≤ b.length)
    {events : List Event} (hfits : ∀ event ∈ events, Fits event) (hn : n + events.length < 2 ^ 31) :
    Always (steps q extras x files events) fun s => Valid (n + events.length) old extras s.1 s.2 := by
  induction events generalizing n x files with
  | nil => exact .pure h
  | cons event events ih =>
    rw [List.length_cons] at hn ⊢
    refine .bind (h.step hextras (hfits event List.mem_cons_self) (by omega)) fun s hs => ?_
    have hrest := ih hs (fun e he => hfits e (List.mem_cons_of_mem event he)) (by omega)
    rwa [show n + (events.length + 1) = n + 1 + events.length by omega]

/-- While the files are read. -/
structure Loaded (n : ℕ) (old : Files) (x : Autos) : Prop where
  /-- The content of the dictionary. -/
  content : Content n x.a_extras
  /-- Its order. -/
  order : Order x.a_extras
  /-- It is that of the files. -/
  stored : ∀ e ∈ x.a_extras, ∃ i < USE_AUTO_EXTRAS, old i = some e.data
  /-- A change is noted. -/
  noted : x.auto_changed = false → x.a_extras = []

theorem loaded_start : Loaded 0 old ⟨[], false⟩ :=
  ⟨⟨Nat.zero_le _, .nil, fun _ he => absurd he List.not_mem_nil, fun _ he => absurd he List.not_mem_nil⟩,
    ⟨.nil, .nil, fun _ he => absurd he List.not_mem_nil⟩, fun _ he => absurd he List.not_mem_nil, fun _ => rfl⟩

theorem Loaded.mono (h : Loaded n old x) {n' : ℕ} (hn : n ≤ n') : Loaded n' old x :=
  ⟨h.content.mono hn, h.order, h.stored, h.noted⟩

/-- **One file.** -/
theorem Loaded.file (h : Loaded n old x) {i : ℕ} (hi : i < USE_AUTO_EXTRAS) (hfile : old i = some mem)
    (hmin : MIN_AUTO_EXTRA ≤ mem.length) (hmax : mem.length ≤ MAX_AUTO_EXTRA) (hn : n + 1 < 2 ^ 31)
    (hchanged : Changed q [] x mem y) : Loaded (n + 1) old y := by
  obtain ⟨hcontent, horder⟩ := hchanged.ok hmin hmax hn h.content h.order
  refine ⟨hcontent, horder, fun e he => ?_, fun hsame => ?_⟩
  · rcases hchanged.origin he with ⟨e', he', hdata⟩ | ⟨hdata, -⟩
    · exact hdata ▸ h.stored e' he'
    · exact ⟨i, hi, hdata ▸ hfile⟩
  · rcases hchanged.grows.2 with rfl | hnoted
    · exact h.noted hsame
    · rw [hnoted] at hsame
      exact absurd hsame.symm Bool.false_ne_true

/-- **All files.** -/
theorem Loaded.load (h : Loaded n old x) {m i : ℕ} (hi : i + m ≤ USE_AUTO_EXTRAS) (hn : n + m < 2 ^ 31) :
    Always (load_auto_from q old m i x) (Loaded (n + m) old) := by
  induction m generalizing n i x with
  | zero => exact .pure h
  | succ m ih =>
    rw [load_auto_from]
    cases hfile : old i with
    | none => exact .pure (h.mono (Nat.le_add_right _ _))
    | some content =>
      dsimp only
      rw [show n + (m + 1) = n + 1 + m by omega]
      refine .bind (P := Loaded (n + 1) old) (.ite (fun hright => ?_) fun _ => .pure (h.mono (Nat.le_succ n)))
        fun y hy => ih hy (by omega) (by omega)
      -- A longer file would have been cut after one byte too much.
      have hall : content.take (MAX_AUTO_EXTRA + 1) = content := by
        have hshort := hright.2
        rw [List.length_take] at hshort
        exact List.take_of_length_le (by omega)
      rw [hall] at hright ⊢
      exact (maybe_add_auto_changed [] x content).mono fun y hy =>
        h.file (by omega) hfile hright.1 hright.2 (by omega) hy

/-- The user's tokens are sorted. -/
theorem load_extras_sorted {user : List (List UInt8)} (h : ∀ u ∈ user, u.length ≤ MAX_DICT_FILE) :
    (load_extras q user).Pairwise fun a b => a.length ≤ b.length := by
  rw [load_extras, List.pairwise_map]
  have hsmall : ∀ e ∈ user.map fun u => (⟨u, 0⟩ : ExtraData), e.data.length < 2 ^ 31 := by
    intro e he
    obtain ⟨u, hu, rfl⟩ := List.mem_map.mp he
    exact (h u hu).trans_lt (by decide)
  have hsorted : (q.sort compare_extras_len (user.map fun u => ⟨u, 0⟩)).Pairwise
      fun a b => (a.data.length : ℤ) ≤ b.data.length :=
    q.ordered fun a ha b hb => bmod_sub (hsmall a ha) (hsmall b hb)
  exact hsorted.imp fun hab => by omega

theorem load_extras_mem {user : List (List UInt8)} {u : List UInt8} (h : u ∈ load_extras q user) : u ∈ user := by
  obtain ⟨e, he, rfl⟩ := List.mem_map.mp h
  obtain ⟨u, hu, rfl⟩ := List.mem_map.mp ((q.perm _ _).mem_iff.mp he)
  exact hu

theorem mem_load_extras {user : List (List UInt8)} {u : List UInt8} (h : u ∈ user) : u ∈ load_extras q user := by
  rw [load_extras, List.mem_map]
  exact ⟨⟨u, 0⟩, (q.perm _ _).mem_iff.mpr (List.mem_map_of_mem h), rfl⟩

/-- **A whole session.** -/
theorem session_valid {user : List (List UInt8)} (huser : ∀ u ∈ user, u.length ≤ MAX_DICT_FILE) {events : List Event}
    (hfits : ∀ event ∈ events, Fits event) (hn : USE_AUTO_EXTRAS + events.length < 2 ^ 31) :
    Always (session q old user events) fun s =>
      Valid (USE_AUTO_EXTRAS + events.length) old (load_extras q user) s.1 s.2 := by
  rw [session, load_auto]
  refine .bind (loaded_start.load (Nat.zero_add _).le (by decide)) fun x hx => ?_
  rw [Nat.zero_add] at hx
  have hvalid : Valid USE_AUTO_EXTRAS old (load_extras q user) x fun _ => none := by
    refine ⟨hx.content, hx.order, fun e he => .inr (hx.stored e he), fun hsame i => ?_, fun _ _ => rfl⟩
    rw [top, hx.noted hsame]
    rfl
  exact hvalid.steps (load_extras_sorted huser) hfits hn

/-- **The dictionary is in order**, whatever was in the files of the last run, whatever the user's tokens are and
whatever is found: it has at most `MAX_AUTO_EXTRAS` tokens, of the right size and none twice; the tokens that are used
are sorted by size, the others by use count, and were not used more; and a token of the user is not in it as well,
unless it came from a file. -/
theorem session_ok (q : Qsort ExtraData) (old : Files) (user : List (List UInt8)) (events : List Event)
    (huser : ∀ u ∈ user, u.length ≤ MAX_DICT_FILE) (hfits : ∀ event ∈ events, Fits event)
    (hn : USE_AUTO_EXTRAS + events.length < 2 ^ 31) :
    Always (session q old user events) fun (x, _) =>
      (x.a_extras.length ≤ MAX_AUTO_EXTRAS ∧ (∀ e ∈ x.a_extras, Token e.data) ∧
        x.a_extras.Pairwise fun a b => lower a.data ≠ lower b.data) ∧
      Order x.a_extras ∧
      ∀ e ∈ x.a_extras, ∀ u ∈ user, lower u = lower e.data → ∃ i < USE_AUTO_EXTRAS, old i = some e.data := by
  refine (session_valid huser hfits hn).mono fun s hs => ?_
  refine ⟨⟨hs.content.length, hs.content.tokens, hs.content.distinct⟩, hs.order, fun e he u hu hsame => ?_⟩
  rcases hs.allowed e he with hno | hstored
  · exact absurd hsame (hno u (mem_load_extras hu))
  · exact hstored

/-- Three tokens are found, one of them twice and one that the user has, and the dictionary is saved in between. -/
def http : List Event :=
  [.token [72, 84, 84, 80], .token [80, 79, 83, 84], .save, .token [104, 116, 116, 112], .token [71, 69, 84],
    .token [72, 69, 65, 68]]

theorem session_ok_http :
    Always (session .stable (fun _ => none) [[71, 69, 84]] http) fun (x, _) =>
      (x.a_extras.length ≤ MAX_AUTO_EXTRAS ∧ (∀ e ∈ x.a_extras, Token e.data) ∧
        x.a_extras.Pairwise fun a b => lower a.data ≠ lower b.data) ∧
      Order x.a_extras ∧
      ∀ e ∈ x.a_extras, ∀ u ∈ [[71, 69, 84]], lower u = lower e.data → ∃ i < USE_AUTO_EXTRAS, none = some e.data :=
  session_ok .stable (fun _ => none) [[71, 69, 84]] http (by decide) (by decide) (by decide)

/-- An element that is not replaced is still there. -/
theorem mem_set_or {e a : ExtraData} {i : ℕ} (h : e ∈ l) : e ∈ l.set i a ∨ l[i]? = some e := by
  obtain ⟨j, hj⟩ := List.mem_iff_getElem?.mp h
  by_cases hij : i = j
  · exact .inr (hij ▸ hj)
  · exact .inl (List.mem_iff_getElem?.mpr ⟨j, by rw [List.getElem?_set_ne hij, hj]⟩)

/-- Whatever is before an entry that is not used was used as often. -/
theorem Order.before (h : Order l) {i : ℕ} {e : ExtraData} (hi : l[i]? = some e) (htop : USE_AUTO_EXTRAS ≤ i) :
    ∀ e' ∈ l.take i, e.hit_cnt ≤ e'.hit_cnt := by
  have hrest : e ∈ (l.drop USE_AUTO_EXTRAS).drop (i - USE_AUTO_EXTRAS) := by
    rw [List.drop_drop, Nat.add_sub_cancel' htop]
    exact List.mem_iff_getElem?.mpr ⟨0, by rw [List.getElem?_drop, Nat.add_zero, hi]⟩
  have hsplit : l.take i = l.take USE_AUTO_EXTRAS ++ (l.drop USE_AUTO_EXTRAS).take (i - USE_AUTO_EXTRAS) := by
    rw [← List.take_add, Nat.add_sub_cancel' htop]
  have huses := h.uses
  rw [← List.take_append_drop (i - USE_AUTO_EXTRAS) (l.drop USE_AUTO_EXTRAS), List.pairwise_append] at huses
  intro e' he'
  rw [hsplit] at he'
  rcases List.mem_append.mp he' with he' | he'
  · exact h.top e' he' e (List.mem_of_mem_drop hrest)
  · exact huses.2.2 e' he' e hrest

/-- **What is evicted** was rarely used: if an entry disappears, then the dictionary was full, at least half of its
entries had been used as often, the new token is there in its place, and all other entries are still there. -/
theorem evicted_rarely_used (q : Qsort ExtraData) (old : Files) (user : List (List UInt8)) (events : List Event)
    (mem : List UInt8) (huser : ∀ u ∈ user, u.length ≤ MAX_DICT_FILE) (hfits : ∀ event ∈ events, Fits event)
    (hn : USE_AUTO_EXTRAS + events.length < 2 ^ 31) :
    Always (do
      let (x, _) ← session q old user events
      let y ← maybe_add_auto q (load_extras q user) x mem
      return (x, y)) fun (x, y) =>
      ∀ e ∈ x.a_extras, (∀ e' ∈ y.a_extras, e'.data ≠ e.data) →
        x.a_extras.length = MAX_AUTO_EXTRAS ∧
        MAX_AUTO_EXTRAS / 2 ≤ x.a_extras.countP (fun e' => e.hit_cnt ≤ e'.hit_cnt) ∧
        ⟨mem, 0⟩ ∈ y.a_extras ∧ ∀ e' ∈ x.a_extras, e'.data ≠ e.data → e' ∈ y.a_extras := by
  refine .bind (session_valid huser hfits hn) fun s hs => .bind (maybe_add_auto_changed _ s.1 mem) fun y hy =>
    .pure fun e he hgone => ?_
  have hstays : ∀ {l : List ExtraData}, y = sort_a_extras q l → e ∉ l :=
    fun hl hin => hgone e (hl ▸ perm_sort.mem_iff.mpr hin) rfl
  cases hy with
  | skip h => exact absurd rfl (hgone e he)
  | @hit i e₀ hi h =>
    rcases mem_set_or he with hin | hget
    · exact absurd hin (hstays rfl)
    · obtain rfl : e₀ = e := Option.some.inj (hi.symm.trans hget)
      have hin := List.mem_set (List.getElem?_eq_some_iff.mp hi).1
        ({ e₀ with hit_cnt := (e₀.hit_cnt + 1) % 2 ^ 32 } : ExtraData)
      exact absurd rfl (hgone ⟨e₀.data, (e₀.hit_cnt + 1) % 2 ^ 32⟩ (perm_sort.mem_iff.mpr hin))
  | append h hnew hroom => exact absurd (List.mem_append_left _ he) (hstays rfl)
  | @evict i h hnew hfull hhalf hi =>
    rcases mem_set_or (i := i) he with hin | hget
    · exact absurd hin (hstays rfl)
    · refine ⟨Nat.le_antisymm hs.content.length hfull, ?_, perm_sort.mem_iff.mpr (List.mem_set hi _),
        fun e' he' hother => ?_⟩
      · have hbefore := hs.order.before hget ((by decide : USE_AUTO_EXTRAS ≤ MAX_AUTO_EXTRAS / 2).trans hhalf)
        have hall : (s.1.a_extras.take i).countP (fun e' => decide (e.hit_cnt ≤ e'.hit_cnt)) = i := by
          rw [List.countP_eq_length.mpr fun e' he' => decide_eq_true (hbefore e' he'), List.length_take,
            Nat.min_eq_left hi.le]
        exact hhalf.trans (hall.ge.trans ((List.take_sublist i _).countP_le))
      · rcases mem_set_or (i := i) he' with hin | hget'
        · exact perm_sort.mem_iff.mpr hin
        · rw [Option.some.inj (hget'.symm.trans hget)] at hother
          exact absurd rfl hother

/-- **New tokens** are all kept as long as there is room. -/
theorem steps_tokens {mems : List (List UInt8)} (htokens : ∀ mem ∈ mems, Token mem)
    (hextras : ∀ mem ∈ mems, in_extras extras mem = false)
    (hdistinct : (x.a_extras.map ExtraData.data ++ mems).Pairwise fun a b => lower a ≠ lower b)
    (hroom : x.a_extras.length + mems.length ≤ MAX_AUTO_EXTRAS) :
    Always (steps q extras x files (mems.map .token)) fun s =>
      (s.1.a_extras.map ExtraData.data).Perm (x.a_extras.map ExtraData.data ++ mems) := by
  induction mems generalizing x with
  | nil =>
    rw [List.append_nil]
    exact .pure (List.Perm.refl _)
  | cons mem mems ih =>
    rw [List.map_cons, steps, step, bind_assoc]
    refine .bind (maybe_add_auto_changed extras x mem) fun y hy => ?_
    have htoken := htokens mem List.mem_cons_self
    have hother : ∀ e ∈ x.a_extras, lower e.data ≠ lower mem := fun e he =>
      (List.pairwise_append.mp hdistinct).2.2 _ (List.mem_map_of_mem he) mem List.mem_cons_self
    rw [List.length_cons] at hroom
    cases hy with
    | skip h =>
      rw [htoken.varied, htoken.own, hextras mem List.mem_cons_self] at h
      exact absurd h Bool.false_ne_true
    | hit hi h => exact absurd h (hother _ (List.mem_of_getElem? hi))
    | append h hnew hspace =>
      have hperm : ((sort_a_extras q (x.a_extras ++ [⟨mem, 0⟩])).a_extras.map ExtraData.data ++ mems).Perm
          (x.a_extras.map ExtraData.data ++ mem :: mems) := by
        have hdata := (perm_sort (q := q) (l := x.a_extras ++ [⟨mem, 0⟩])).map ExtraData.data
        rw [List.map_append] at hdata
        have happend := hdata.append_right mems
        rwa [List.append_assoc] at happend
      have hlength : (sort_a_extras q (x.a_extras ++ [⟨mem, 0⟩])).a_extras.length = x.a_extras.length + 1 := by
        rw [perm_sort.length_eq, List.length_append, List.length_singleton]
      refine (ih (fun m hm => htokens m (List.mem_cons_of_mem _ hm)) (fun m hm => hextras m (List.mem_cons_of_mem _ hm))
        ((hperm.pairwise_iff fun hab => hab.symm).mpr hdistinct) (by omega)).mono fun s hs => hs.trans hperm
    | evict h hnew hfull hhalf hi => omega

/-- The first session, in which only new tokens are found. -/
theorem session_tokens {user mems : List (List UInt8)} (htokens : ∀ mem ∈ mems, Token mem)
    (hextras : ∀ mem ∈ mems, in_extras (load_extras q user) mem = false)
    (hdistinct : mems.Pairwise fun a b => lower a ≠ lower b) (hroom : mems.length ≤ MAX_AUTO_EXTRAS) :
    Always (session q (fun _ => none) user (mems.map .token)) fun s => (s.1.a_extras.map ExtraData.data).Perm mems := by
  refine .bind (P := fun x => x = ⟨[], false⟩) (.pure rfl) fun x hx => ?_
  subst hx
  have hzero : ([] : List ExtraData).length + mems.length ≤ MAX_AUTO_EXTRAS := (Nat.zero_add _).trans_le hroom
  exact steps_tokens htokens hextras hdistinct hzero

/-- A full dictionary gives up an entry for a token that it does not have. -/
theorem exists_evicted (hcontent : Content n x.a_extras) (hfull : x.a_extras.length = MAX_AUTO_EXTRAS)
    (htoken : Token mem) (hextras : in_extras extras mem = false)
    (hother : ∀ e ∈ x.a_extras, lower e.data ≠ lower mem) (hchanged : Changed q extras x mem y) :
    ∃ e ∈ x.a_extras, ∀ e' ∈ y.a_extras, e'.data ≠ e.data := by
  cases hchanged with
  | skip h =>
    rw [htoken.varied, htoken.own, hextras] at h
    exact absurd h Bool.false_ne_true
  | hit hi h => exact absurd h (hother _ (List.mem_of_getElem? hi))
  | append h hnew hspace => omega
  | @evict i h hnew hroom hhalf hi =>
    refine ⟨x.a_extras[i], List.getElem_mem hi, fun e' he' hsame => ?_⟩
    have hdistinct : (x.a_extras.map fun e => lower e.data).Nodup := List.pairwise_map.mpr hcontent.distinct
    obtain ⟨j, hj, hget⟩ := List.mem_iff_getElem.mp (perm_sort.mem_iff.mp he')
    rw [List.length_set] at hj
    rw [List.getElem_set] at hget
    split at hget
    · exact hother _ (List.getElem_mem hi) (by rw [← hsame, ← hget])
    · rename_i hij
      have hi' : i < (x.a_extras.map fun e => lower e.data).length := by simpa using hi
      have hj' : j < (x.a_extras.map fun e => lower e.data).length := by simpa using hj
      have heq : (x.a_extras.map fun e => lower e.data)[i] = (x.a_extras.map fun e => lower e.data)[j] := by
        rw [List.getElem_map, List.getElem_map, hget, hsame]
      exact hij (hdistinct.getElem_inj_iff.mp heq)

/-- Tokens that differ in their last two bytes. -/
def numbered (i : ℕ) : List UInt8 := [200, UInt8.ofNat (100 + i / 50), UInt8.ofNat (100 + i % 50)]

theorem toNat_numbered {i : ℕ} (hi : i < 1000) :
    (UInt8.ofNat (100 + i / 50)).toNat = 100 + i / 50 ∧ (UInt8.ofNat (100 + i % 50)).toNat = 100 + i % 50 := by
  rw [UInt8.toNat_ofNat', UInt8.toNat_ofNat']
  omega

theorem token_numbered {i : ℕ} (hi : i < 1000) : Token (numbered i) := by
  refine ⟨Nat.le_refl 3, (by decide : 3 ≤ MAX_AUTO_EXTRA), ?_, rfl⟩
  have hne : UInt8.ofNat (100 + i / 50) ≠ 200 := by
    intro h
    have htoNat := congrArg UInt8.toNat h
    rw [(toNat_numbered hi).1] at htoNat
    have hsmall : i / 50 < 20 := by omega
    change 100 + i / 50 = 200 at htoNat
    omega
  have hxor : (200 ^^^ UInt8.ofNat (100 + i / 50) == 0) = false := by
    rw [beq_eq_false_iff_ne, Ne, UInt8.xor_eq_zero_iff]
    exact hne.symm
  rw [numbered, identical, List.all_cons, hxor, Bool.false_and]

/-- There are no letters in them. -/
theorem lower_numbered {i : ℕ} (hi : i < 1000) : lower (numbered i) = numbered i := by
  have htolower : ∀ {b : UInt8}, 100 ≤ b.toNat → tolower b = b := by
    intro b hb
    refine if_neg fun h => ?_
    have hle := UInt8.le_iff_toNat_le.mp h.2
    change b.toNat ≤ 90 at hle
    omega
  obtain ⟨h1, h2⟩ := toNat_numbered hi
  rw [lower, numbered, List.map_cons, List.map_cons, List.map_cons, htolower (by decide), htolower (by omega),
    htolower (by omega)]
  rfl

theorem numbered_inj {i j : ℕ} (hi : i < 1000) (hj : j < 1000) (h : lower (numbered i) = lower (numbered j)) : i = j := by
  rw [lower_numbered hi, lower_numbered hj, numbered, numbered, List.cons.injEq, List.cons.injEq, List.cons.injEq] at h
  obtain ⟨-, h1, h2, -⟩ := h
  have h3 := congrArg UInt8.toNat h1
  have h4 := congrArg UInt8.toNat h2
  rw [(toNat_numbered hi).1, (toNat_numbered hj).1] at h3
  rw [(toNat_numbered hi).2, (toNat_numbered hj).2] at h4
  omega

/-- None of them is a token of the user. -/
theorem in_extras_numbered (q : Qsort ExtraData) {i : ℕ} (hi : i < 1000) :
    in_extras (load_extras q [[71, 69, 84]]) (numbered i) = false := by
  rw [← Bool.not_eq_true, in_extras_iff (load_extras_sorted (by decide))]
  rintro ⟨u, hu, hsame⟩
  rw [List.mem_singleton.mp (load_extras_mem hu), lower_numbered hi, numbered] at hsame
  exact absurd (List.cons.inj hsame).1 (by decide)

/-- As many tokens as there is room for, and one more, which takes the place of another one. -/
theorem evicted_rarely_used_full :
    Always (do
      let (x, _) ← session .stable (fun _ => none) [[71, 69, 84]] (((List.range MAX_AUTO_EXTRAS).map numbered).map .token)
      let y ← maybe_add_auto .stable (load_extras .stable [[71, 69, 84]]) x (numbered MAX_AUTO_EXTRAS)
      return (x, y)) fun (x, y) =>
      (∃ e ∈ x.a_extras, ∀ e' ∈ y.a_extras, e'.data ≠ e.data) ∧
      ∀ e ∈ x.a_extras, (∀ e' ∈ y.a_extras, e'.data ≠ e.data) →
        x.a_extras.length = MAX_AUTO_EXTRAS ∧
        MAX_AUTO_EXTRAS / 2 ≤ x.a_extras.countP (fun e' => e.hit_cnt ≤ e'.hit_cnt) ∧
        ⟨numbered MAX_AUTO_EXTRAS, 0⟩ ∈ y.a_extras ∧ ∀ e' ∈ x.a_extras, e'.data ≠ e.data → e' ∈ y.a_extras := by
  have hlt : ∀ {i}, i < MAX_AUTO_EXTRAS → i < 1000 := fun hi => hi.trans (by decide)
  have hall : ∀ {P : List UInt8 → Prop}, (∀ i < 1000, P (numbered i)) →
      ∀ mem ∈ (List.range MAX_AUTO_EXTRAS).map numbered, P mem := by
    intro P h mem hmem
    obtain ⟨i, hi, rfl⟩ := List.mem_map.mp hmem
    exact h i (hlt (List.mem_range.mp hi))
  have hfits : ∀ event ∈ ((List.range MAX_AUTO_EXTRAS).map numbered).map Event.token, Fits event := by
    intro event hevent
    obtain ⟨mem, hmem, rfl⟩ := List.mem_map.mp hevent
    have htoken := hall (P := Token) (fun i hi => token_numbered hi) mem hmem
    exact ⟨htoken.min, htoken.max⟩
  have hcount : USE_AUTO_EXTRAS + (((List.range MAX_AUTO_EXTRAS).map numbered).map Event.token).length < 2 ^ 31 := by
    rw [List.length_map, List.length_map, List.length_range]
    decide
  refine .and ?_ (evicted_rarely_used .stable (fun _ => none) [[71, 69, 84]] _ _ (by decide) hfits hcount)
  have hfilled : Always (session .stable (fun _ => none) [[71, 69, 84]]
      (((List.range MAX_AUTO_EXTRAS).map numbered).map .token)) fun s =>
      (s.1.a_extras.map ExtraData.data).Perm ((List.range MAX_AUTO_EXTRAS).map numbered) := by
    refine session_tokens (hall fun i hi => token_numbered hi) (hall fun i hi => in_extras_numbered _ hi) ?_ ?_
    · refine List.pairwise_map.mpr (List.nodup_range.imp_of_mem fun hi hj hij hsame => hij ?_)
      exact numbered_inj (hlt (List.mem_range.mp hi)) (hlt (List.mem_range.mp hj)) hsame
    · rw [List.length_map, List.length_range]
  refine .bind (hfilled.and (session_valid (by decide) hfits hcount)) fun s ⟨hperm, hvalid⟩ =>
    .bind (maybe_add_auto_changed _ s.1 _) fun y hy => .pure ?_
  refine exists_evicted hvalid.content ?_ (token_numbered (by decide)) (in_extras_numbered _ (by decide)) ?_ hy
  · have hlength := hperm.length_eq
    rwa [List.length_map, List.length_map, List.length_range] at hlength
  · intro e he hsame
    obtain ⟨i, hi, heq⟩ := List.mem_map.mp (hperm.mem_iff.mp (List.mem_map_of_mem he))
    rw [← heq] at hsame
    have hi' := List.mem_range.mp hi
    exact absurd (numbered_inj (hlt hi') (by decide) hsame) hi'.ne

theorem steps_append {before after : List Event} :
    steps q extras x files (before ++ after) =
      steps q extras x files before >>= fun s => steps q extras s.1 s.2 after := by
  induction before generalizing x files with
  | nil => rw [List.nil_append, steps, pure_bind]
  | cons event before ih =>
    rw [List.cons_append, steps, steps, bind_assoc]
    exact bind_congr fun s => ih

/-- **Loading what was saved** into an empty dictionary adds one token after the other. -/
theorem load_top {tops : List (List UInt8)} (htokens : ∀ mem ∈ tops, Token mem)
    (hdistinct : tops.Pairwise fun a b => lower a ≠ lower b) (hlen : tops.length ≤ USE_AUTO_EXTRAS)
    (hfiles : ∀ i, files i = tops[i]?) {m i : ℕ} (hi : i + m = USE_AUTO_EXTRAS)
    (hperm : (x.a_extras.map ExtraData.data).Perm (tops.take i)) (hzero : ∀ e ∈ x.a_extras, e.hit_cnt = 0) :
    Always (load_auto_from q files m i x) fun y =>
      (y.a_extras.map ExtraData.data).Perm tops ∧ ∀ e ∈ y.a_extras, e.hit_cnt = 0 := by
  induction m generalizing i x with
  | zero =>
    rw [List.take_of_length_le (by omega)] at hperm
    exact .pure ⟨hperm, hzero⟩
  | succ m ih =>
    rw [load_auto_from, hfiles i]
    cases hget : tops[i]? with
    | none =>
      rw [List.take_of_length_le (List.getElem?_eq_none_iff.mp hget)] at hperm
      exact .pure ⟨hperm, hzero⟩
    | some mem =>
      dsimp only
      obtain ⟨hin, rfl⟩ := List.getElem?_eq_some_iff.mp hget
      have htoken := htokens tops[i] (List.getElem_mem hin)
      rw [List.take_of_length_le (htoken.max.trans (Nat.le_succ _)), if_pos ⟨htoken.min, htoken.max⟩]
      refine .bind (maybe_add_auto_changed [] x tops[i]) fun y hy => ?_
      have hnew : ∀ e ∈ x.a_extras, lower e.data ≠ lower tops[i] := by
        intro e he
        have hbefore := hperm.mem_iff.mp (List.mem_map_of_mem he)
        rw [← List.take_append_drop i tops, List.pairwise_append, ← List.cons_getElem_drop_succ (h := hin)] at hdistinct
        exact hdistinct.2.2 e.data hbefore tops[i] List.mem_cons_self
      cases hy with
      | skip h =>
        rw [htoken.varied, htoken.own] at h
        exact absurd h Bool.false_ne_true
      | hit hi h => exact absurd h (hnew _ (List.mem_of_getElem? hi))
      | append h hnew hroom =>
        refine ih (i := i + 1) (by omega) ?_ fun e he => ?_
        · refine (perm_sort.map ExtraData.data).trans ?_
          rw [List.map_append, List.take_add_one, hget]
          exact hperm.append_right _
        · rcases List.mem_append.mp (perm_sort.mem_iff.mp he) with he | he
          · exact hzero e he
          · rw [List.mem_singleton.mp he]
      | evict h hnew hfull hhalf hi =>
        have hfew := hperm.length_eq
        rw [List.length_map, List.length_take] at hfew
        simp only [MAX_AUTO_EXTRAS, USE_AUTO_EXTRAS] at hfull hlen
        omega

/-- **Saved and loaded again**: if the fuzzer is stopped after it saved the dictionary, then the next run starts with the
tokens that were at the top, and with no others. -/
theorem reload_top (q : Qsort ExtraData) (old : Files) (user : List (List UInt8)) (events : List Event)
    (huser : ∀ u ∈ user, u.length ≤ MAX_DICT_FILE) (hfits : ∀ event ∈ events, Fits event)
    (hn : USE_AUTO_EXTRAS + events.length < 2 ^ 31) :
    Always (do
      let (x, files) ← session q old user (events ++ [.save])
      let y ← load_auto q files
      return (x, y)) fun (x, y) =>
      (y.a_extras.map ExtraData.data).Perm ((x.a_extras.take USE_AUTO_EXTRAS).map ExtraData.data) ∧
      ∀ e ∈ y.a_extras, e.hit_cnt = 0 := by
  have hsaved : Always (session q old user (events ++ [.save])) fun s =>
      (∃ n, Content n s.1.a_extras) ∧ ∀ i, s.2 i = (top s.1)[i]? := by
    have hrun : Always (session q old user events) _ := session_valid huser hfits hn
    rw [session] at hrun ⊢
    simp only [steps_append]
    rw [← bind_assoc]
    refine .bind hrun fun s hs => ?_
    obtain ⟨hvalid, hflag⟩ := hs.save
    exact .bind (P := fun t => (∃ n, Content n t.1.a_extras) ∧ ∀ i, t.2 i = (top t.1)[i]?)
      (.pure ⟨⟨_, hvalid.content⟩, hvalid.saved hflag⟩) fun t ht => .pure ht
  refine .bind hsaved fun s ⟨⟨n, hcontent⟩, hfiles⟩ => ?_
  have hsub : (s.1.a_extras.take USE_AUTO_EXTRAS).Sublist s.1.a_extras := List.take_sublist _ _
  refine .bind (load_top ?_ ?_ ?_ hfiles (Nat.zero_add _) (List.Perm.refl _) ?_) fun y hy => .pure hy
  · intro mem hmem
    obtain ⟨e, he, rfl⟩ := List.mem_map.mp hmem
    exact hcontent.tokens e (hsub.subset he)
  · exact List.pairwise_map.mpr (hcontent.distinct.sublist hsub)
  · rw [top, List.length_map, List.length_take]
    exact Nat.min_le_left _ _
  · exact fun e he => absurd he List.not_mem_nil

theorem reload_top_http :
    Always (do
      let (x, files) ← session .stable (fun _ => none) [[71, 69, 84]] (http ++ [.save])
      let y ← load_auto .stable files
      return (x, y)) fun (x, y) =>
      (y.a_extras.map ExtraData.data).Perm ((x.a_extras.take USE_AUTO_EXTRAS).map ExtraData.data) ∧
      ∀ e ∈ y.a_extras, e.hit_cnt = 0 :=
  reload_top .stable (fun _ => none) [[71, 69, 84]] http (by decide) (by decide) (by decide)

end SEDiff.Afl.Dictionary
