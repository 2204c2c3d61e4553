import Mathlib.Data.List.Basic
import Mathlib.Data.List.Nodup

/-!
# Dictionaries

A Python dictionary as the list of its items. Assigning to a key that is there replaces the
value in place, and a new key is added at the end.
-/

namespace SEDiff.Foundation

/-- The items of a dictionary. -/
abbrev Dict (κ ν : Type*) := List (κ × ν)

namespace Dict

variable {κ ν : Type*} [DecidableEq κ]

/-- `d.get(k)`. -/
def get? : Dict κ ν → κ → Option ν
  | [], _ => none
  | (k', v) :: d, k => if k' = k then some v else get? d k

/-- `d[k] = v`. -/
def put : Dict κ ν → κ → ν → Dict κ ν
  | [], k, v => [(k, v)]
  | (k', v') :: d, k, v => if k' = k then (k, v) :: d else (k', v') :: put d k v

/-- `d.keys()`. -/
def keys (d : Dict κ ν) : List κ := d.map Prod.fst

@[simp] theorem get?_nil (k : κ) : get? ([] : Dict κ ν) k = none := rfl

/-- Values that depend on their keys. -/
theorem get?_map {μ : Type*} (f : κ → ν → μ) (d : Dict κ ν) (k : κ) :
    get? (d.map fun e => (e.1, f e.1 e.2) : Dict κ μ) k = (d.get? k).map (f k) := by
  induction d with
  | nil => rfl
  | cons e d ih =>
    rw [List.map_cons, get?, get?]
    split_ifs with hk
    · rw [hk]
      rfl
    · exact ih

theorem get?_put_self (d : Dict κ ν) (k : κ) (v : ν) : (d.put k v).get? k = some v := by
  induction d with
  | nil => simp [put, get?]
  | cons e d ih =>
    rw [put]
    split_ifs with hk
    · simp [get?]
    · simp [get?, hk, ih]

theorem get?_put_of_ne (d : Dict κ ν) {k k' : κ} (v : ν) (hne : k' ≠ k) :
    (d.put k v).get? k' = d.get? k' := by
  induction d with
  | nil => simp [put, get?, hne.symm]
  | cons e d ih =>
    rw [put]
    split_ifs with hk
    · rw [get?, get?, if_neg hne.symm, if_neg (hk ▸ hne.symm)]
    · rw [get?, get?, ih]

/-- A key that is not there has no value. -/
theorem get?_eq_none {d : Dict κ ν} {k : κ} (hk : k ∉ d.keys) : d.get? k = none := by
  induction d with
  | nil => rfl
  | cons e d ih =>
    have hk' : ¬ (k = e.1 ∨ k ∈ d.map Prod.fst) := by simpa [keys] using hk
    obtain ⟨hne, hm⟩ := not_or.mp hk'
    rw [get?, if_neg (Ne.symm hne)]
    exact ih hm

/-- The keys after an assignment. -/
theorem mem_keys_put {d : Dict κ ν} {k k' : κ} {v : ν} : k' ∈ (d.put k v).keys ↔ k' ∈ d.keys ∨ k' = k := by
  induction d with
  | nil => simp [put, keys]
  | cons e d ih =>
    rw [put]
    split_ifs with hk
    · simp only [keys, List.map_cons, List.mem_cons, hk]
      tauto
    · simp only [keys, List.map_cons, List.mem_cons] at ih ⊢
      rw [ih, or_assoc]

/-- Each key is listed once. -/
theorem nodup_keys_put {d : Dict κ ν} (hd : d.keys.Nodup) (k : κ) (v : ν) : (d.put k v).keys.Nodup := by
  induction d with
  | nil => exact List.nodup_singleton k
  | cons e d ih =>
    obtain ⟨he, hd⟩ := List.nodup_cons.mp hd
    rw [put]
    split_ifs with hk
    · exact List.nodup_cons.mpr ⟨hk ▸ he, hd⟩
    · refine List.nodup_cons.mpr ⟨fun hm => ?_, ih hd⟩
      exact (mem_keys_put.mp hm).elim he hk

/-- A key that is there has a value. -/
theorem get?_ne_none {d : Dict κ ν} {k : κ} : d.get? k ≠ none ↔ k ∈ d.keys := by
  induction d with
  | nil => simp [keys]
  | cons e d ih =>
    rw [get?]
    split_ifs with hk
    · simp [keys, hk]
    · simp only [keys, List.map_cons, List.mem_cons] at ih ⊢
      rw [ih]
      exact ⟨.inr, fun h => h.resolve_left (Ne.symm hk)⟩

/-- A new key is added at the end. -/
theorem put_of_notMem {d : Dict κ ν} {k : κ} (hk : k ∉ d.keys) (v : ν) : d.put k v = d ++ [(k, v)] := by
  induction d with
  | nil => rfl
  | cons e d ih =>
    rw [keys, List.map_cons, List.mem_cons, not_or] at hk
    rw [put, if_neg (Ne.symm hk.1), ih hk.2]
    rfl

theorem put_append_cons {d : Dict κ ν} {k : κ} (hk : k ∉ d.keys) (v w : ν) (d' : Dict κ ν) :
    (d ++ (k, v) :: d').put k w = d ++ (k, w) :: d' := by
  induction d with
  | nil => exact if_pos rfl
  | cons e d ih =>
    rw [keys, List.map_cons, List.mem_cons, not_or] at hk
    rw [List.cons_append, put, if_neg (Ne.symm hk.1), ih hk.2]
    rfl

theorem get?_append_cons {d : Dict κ ν} {k : κ} (hk : k ∉ d.keys) (v : ν) (d' : Dict κ ν) :
    (d ++ (k, v) :: d').get? k = some v := by
  induction d with
  | nil => exact if_pos rfl
  | cons e d ih =>
    rw [keys, List.map_cons, List.mem_cons, not_or] at hk
    rw [List.cons_append, get?, if_neg (Ne.symm hk.1)]
    exact ih hk.2

/-- A value is the value of an item. -/
theorem mem_of_get? {d : Dict κ ν} {k : κ} {v : ν} (h : d.get? k = some v) : (k, v) ∈ d := by
  induction d with
  | nil => cases h
  | cons e d ih =>
    rw [get?] at h
    split_ifs at h with hk
    · obtain rfl := Option.some.inj h
      exact hk ▸ List.mem_cons_self
    · exact List.mem_cons_of_mem _ (ih h)

/-- An item gives the value of its key, when each key is listed once. -/
theorem get?_of_mem {d : Dict κ ν} (hd : d.keys.Nodup) {e : κ × ν} (he : e ∈ d) : d.get? e.1 = some e.2 := by
  obtain ⟨as, bs, rfl⟩ := List.append_of_mem he
  rw [keys, List.map_append, List.map_cons] at hd
  have hnew : e.1 ∉ keys as := fun hmem => (List.nodup_append.mp hd).2.2 _ hmem _ List.mem_cons_self rfl
  exact get?_append_cons hnew e.2 bs

/-! ### Merging -/

/-- An item is added; `m` combines it with the value that is there. -/
def putWith (m : ν → ν → ν) (d : Dict κ ν) (e : κ × ν) : Dict κ ν :=
  match d.get? e.1 with
  | some a => d.put e.1 (m a e.2)
  | none => d.put e.1 e.2

/-- The items of `d'` are added to `d`. -/
def mergeWith (m : ν → ν → ν) (d d' : Dict κ ν) : Dict κ ν := d'.foldl (putWith m) d

variable {m : ν → ν → ν}

theorem get?_putWith_self (d : Dict κ ν) (k : κ) (v : ν) :
    (putWith m d (k, v)).get? k = some ((d.get? k).elim v fun a => m a v) := by
  rw [putWith]
  cases d.get? k with
  | none => exact get?_put_self d k v
  | some a => exact get?_put_self d k (m a v)

theorem get?_putWith_of_ne (d : Dict κ ν) {k k' : κ} (v : ν) (hne : k' ≠ k) :
    (putWith m d (k, v)).get? k' = d.get? k' := by
  rw [putWith]
  dsimp only
  cases d.get? k with
  | none => exact get?_put_of_ne d v hne
  | some a => exact get?_put_of_ne d (m a v) hne

theorem nodup_keys_putWith {d : Dict κ ν} (hd : d.keys.Nodup) (e : κ × ν) : (putWith m d e).keys.Nodup := by
  rw [putWith]
  cases d.get? e.1 with
  | none => exact nodup_keys_put hd _ _
  | some a => exact nodup_keys_put hd _ _

theorem nodup_keys_mergeWith {d : Dict κ ν} (hd : d.keys.Nodup) (d' : Dict κ ν) : (mergeWith m d d').keys.Nodup := by
  rw [mergeWith]
  induction d' generalizing d with
  | nil => exact hd
  | cons e d' ih => exact ih (nodup_keys_putWith hd e)

/-- **The values of a merged dictionary** are those of the two, combined where both have one. -/
theorem get?_mergeWith (d : Dict κ ν) {d' : Dict κ ν} (hd' : d'.keys.Nodup) (k : κ) :
    (mergeWith m d d').get? k = match d.get? k, d'.get? k with
      | some a, some b => some (m a b)
      | some a, none => some a
      | none, o => o := by
  induction d' generalizing d with
  | nil =>
    rw [mergeWith, List.foldl_nil, get?_nil]
    cases d.get? k <;> rfl
  | cons e d' ih =>
    obtain ⟨k', b⟩ := e
    obtain ⟨hk', hd'⟩ := List.nodup_cons.mp hd'
    have hstep := ih (putWith m d (k', b)) hd'
    rw [mergeWith, List.foldl_cons, ← mergeWith, hstep, get?]
    by_cases hk : k' = k
    · subst hk
      rw [if_pos rfl, get?_putWith_self, get?_eq_none hk']
      cases d.get? k' <;> rfl
    · rw [if_neg hk, get?_putWith_of_ne d b (Ne.symm hk)]

end Dict

end SEDiff.Foundation
