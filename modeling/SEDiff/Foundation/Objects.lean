import Mathlib.Data.Set.BooleanAlgebra
import Mathlib.Order.CompletePartialOrder
import Mathlib.Data.Set.Disjoint
import Mathlib.Order.Interval.Set.Basic
import SEDiff.Foundation.Dict
import SEDiff.Foundation.Store

/-!
# Dictionaries and lists as objects

Dictionaries that hold references to other objects, in a store. What is reached from a reference is described by a
relation `R h p b S`: in the store `h`, the value `b` is at `p`, and what represents it is in the set `S` that `p` owns.

## What is proved

* `DictAt.local` — a dictionary is as its owned objects are.
* `loads_dict` — a dictionary is loaded into new objects.
* `dumps_dict` — it is read back.
* `merge_at` — merging a dictionary into another one in place merges the values, and what is shared afterwards is owned
  by the merged one only.
-/

namespace SEDiff.Foundation

/-- An object. -/
inductive Obj (κ α : Type*)
  /-- A dictionary of references. -/
  | dict (d : Dict κ ℕ)
  /-- A list. -/
  | list (l : List α)

variable {κ α β : Type*}

/-- The second store differs from the first one in `S` only. -/
structure OnlyAt (h h' : Store (Obj κ α)) (S : Set ℕ) : Prop where
  /-- Nothing is allocated. -/
  next_eq : h'.next = h.next
  /-- The other objects are the same. -/
  obj_eq : ∀ o, o ∉ S → h'.obj o = h.obj o

theorem OnlyAt.mono {h h' : Store (Obj κ α)} {S T : Set ℕ} (hs : OnlyAt h h' S) (hST : S ⊆ T) : OnlyAt h h' T :=
  ⟨hs.next_eq, fun o ho => hs.obj_eq o fun hS => ho (hST hS)⟩

theorem OnlyAt.trans {h h₁ h₂ : Store (Obj κ α)} {S : Set ℕ} (h₁S : OnlyAt h h₁ S) (h₂S : OnlyAt h₁ h₂ S) :
    OnlyAt h h₂ S :=
  ⟨h₂S.next_eq.trans h₁S.next_eq, fun o ho => (h₂S.obj_eq o ho).trans (h₁S.obj_eq o ho)⟩

theorem OnlyAt.set (h : Store (Obj κ α)) {p : ℕ} {S : Set ℕ} (hp : p ∈ S) (v : Obj κ α) : OnlyAt h (h.set p v) S :=
  ⟨rfl, fun _ ho => Store.obj_set_of_ne h v fun heq => ho (heq ▸ hp)⟩

/-- What is at a reference depends on what it owns only. -/
def Local (R : Store (Obj κ α) → ℕ → β → Set ℕ → Prop) : Prop :=
  ∀ h h' p b S, R h p b S → (∀ o ∈ S, h'.obj o = h.obj o) → R h' p b S

/-- A list. -/
def ListAt (h : Store (Obj κ α)) (p : ℕ) (l : List α) (S : Set ℕ) : Prop := h.obj p = .list l ∧ p ∈ S

theorem ListAt.local : Local (ListAt (κ := κ) (α := α)) := by
  rintro h h' p l S ⟨hobj, hp⟩ hS
  exact ⟨(hS p hp).trans hobj, hp⟩

/-! ### Dictionaries -/

/-- An item of a dictionary. -/
structure Cell (κ β : Type*) where
  /-- The key. -/
  key : κ
  /-- The reference. -/
  ref : ℕ
  /-- The value there. -/
  val : β
  /-- What the reference owns. -/
  own : Set ℕ

namespace Cell

/-- The items of a dictionary, with what `f` reads of each. -/
def items {γ : Type*} (f : Cell κ β → γ) (cs : List (Cell κ β)) : Dict κ γ := cs.map fun c => (c.key, f c)

variable {γ : Type*} {f : Cell κ β → γ}

theorem keys_items (f : Cell κ β → γ) (cs : List (Cell κ β)) : (items f cs).keys = cs.map Cell.key := by
  rw [items, Dict.keys, List.map_map]
  rfl

/-- A key that has a value is the key of an item. -/
theorem exists_of_get? [DecidableEq κ] {cs : List (Cell κ β)} {k : κ} {v : γ} (h : (items f cs).get? k = some v) :
    ∃ as c bs, cs = as ++ c :: bs ∧ c.key = k ∧ f c = v ∧ k ∉ as.map Cell.key := by
  induction cs with
  | nil => cases h
  | cons c cs ih =>
    rw [items, List.map_cons, Dict.get?] at h
    by_cases hk : c.key = k
    · rw [if_pos hk] at h
      exact ⟨[], c, cs, rfl, hk, Option.some.inj h, List.not_mem_nil⟩
    · rw [if_neg hk] at h
      obtain ⟨as, c', bs, rfl, hkey, hv, has⟩ := ih h
      exact ⟨c :: as, c', bs, rfl, hkey, hv, by rw [List.map_cons, List.mem_cons, not_or]; exact ⟨Ne.symm hk, has⟩⟩

theorem items_append_cons (as : List (Cell κ β)) (c : Cell κ β) (bs : List (Cell κ β)) :
    items f (as ++ c :: bs) = items f as ++ (c.key, f c) :: items f bs := by
  simp [items]

end Cell

/-- The items of a dictionary own disjoint parts of `S`. -/
structure Cells (R : Store (Obj κ α) → ℕ → β → Set ℕ → Prop) (h : Store (Obj κ α)) (cs : List (Cell κ β)) (S : Set ℕ) :
    Prop where
  /-- Each has its value. -/
  val : ∀ c ∈ cs, R h c.ref c.val c.own
  /-- What it owns is in `S`. -/
  own : ∀ c ∈ cs, c.own ⊆ S
  /-- Nothing is owned twice. -/
  apart : cs.Pairwise fun c c' => Disjoint c.own c'.own
  /-- Nor is there a key twice. -/
  nodup : (cs.map Cell.key).Nodup

/-- A dictionary. -/
def DictAt (R : Store (Obj κ α) → ℕ → β → Set ℕ → Prop) (h : Store (Obj κ α)) (p : ℕ) (d : Dict κ β) (S : Set ℕ) :
    Prop :=
  ∃ cs : List (Cell κ β), h.obj p = .dict (Cell.items Cell.ref cs) ∧ d = Cell.items Cell.val cs ∧ p ∈ S ∧
    Cells R h cs (S \ {p})

section

variable {R : Store (Obj κ α) → ℕ → β → Set ℕ → Prop} {h h' : Store (Obj κ α)} {cs ds : List (Cell κ β)} {S T : Set ℕ}

theorem Cells.frame (hR : Local R) (hcs : Cells R h cs S) (hS : ∀ o ∈ S, h'.obj o = h.obj o) : Cells R h' cs S :=
  ⟨fun c hc => hR h h' _ _ _ (hcs.val c hc) fun o ho => hS o (hcs.own c hc ho), hcs.own, hcs.apart, hcs.nodup⟩

/-- A dictionary is as its owned objects are. -/
theorem DictAt.local (hR : Local R) : Local (DictAt R) := by
  rintro h h' p d S ⟨cs, hobj, hd, hp, hcs⟩ hS
  exact ⟨cs, (hS p hp).trans hobj, hd, hp, hcs.frame hR fun o ho => hS o ho.1⟩

/-- An item is added. -/
theorem Cells.append (hcs : Cells R h cs S) {d : Cell κ β} (hd : R h d.ref d.val d.own) (hS : Disjoint S d.own)
    (hkey : d.key ∉ cs.map Cell.key) : Cells R h (cs ++ [d]) (S ∪ d.own) where
  val c hc := by
    obtain hc | hc := List.mem_append.mp hc
    · exact hcs.val c hc
    · rw [List.mem_singleton.mp hc]
      exact hd
  own c hc := by
    obtain hc | hc := List.mem_append.mp hc
    · exact (hcs.own c hc).trans Set.subset_union_left
    · rw [List.mem_singleton.mp hc]
      exact Set.subset_union_right
  apart := by
    refine List.pairwise_append.mpr ⟨hcs.apart, List.pairwise_singleton _ _, fun c hc c' hc' => ?_⟩
    rw [List.mem_singleton.mp hc']
    exact hS.mono_left (hcs.own c hc)
  nodup := by
    rw [List.map_append, List.map_singleton]
    exact List.nodup_append_comm.mp (List.nodup_cons.mpr ⟨hkey, hcs.nodup⟩)

/-- An item gets another value, and owns more. -/
theorem Cells.replace {as bs : List (Cell κ β)} {c c' : Cell κ β} {U : Set ℕ} (hR : Local R)
    (hcs : Cells R h (as ++ c :: bs) S) (hU : Disjoint S U) (hkey : c'.key = c.key) (hown : c'.own = c.own ∪ U)
    (hc' : R h' c'.ref c'.val c'.own) (honly : OnlyAt h h' (c.own ∪ U)) : Cells R h' (as ++ c' :: bs) (S ∪ U) := by
  obtain ⟨happ_as, happ_c, happ_abs⟩ := List.pairwise_append.mp hcs.apart
  obtain ⟨happ_cb, happ_bs⟩ := List.pairwise_cons.mp happ_c
  -- the other items own nothing of it
  have hother : ∀ x, x ∈ as ∨ x ∈ bs → x ∈ as ++ c :: bs ∧ Disjoint x.own (c.own ∪ U) := by
    rintro x (hx | hx)
    · have hmem : x ∈ as ++ c :: bs := List.mem_append_left _ hx
      exact ⟨hmem, Set.disjoint_union_right.mpr
        ⟨happ_abs x hx c List.mem_cons_self, hU.mono_left (hcs.own x hmem)⟩⟩
    · have hmem : x ∈ as ++ c :: bs := List.mem_append_right _ (List.mem_cons_of_mem _ hx)
      exact ⟨hmem, Set.disjoint_union_right.mpr ⟨(happ_cb x hx).symm, hU.mono_left (hcs.own x hmem)⟩⟩
  have hc : c ∈ as ++ c :: bs := by simp
  have hmem : ∀ x ∈ as ++ c' :: bs, x = c' ∨ x ∈ as ∨ x ∈ bs := by
    intro x hx
    simp only [List.mem_append, List.mem_cons] at hx
    tauto
  refine ⟨fun x hx => ?_, fun x hx => ?_, ?_, ?_⟩
  · obtain rfl | hx := hmem x hx
    · exact hc'
    · obtain ⟨hx, hdisj⟩ := hother x hx
      exact hR h h' _ _ _ (hcs.val x hx) fun o ho => honly.obj_eq o (Set.disjoint_left.mp hdisj ho)
  · obtain rfl | hx := hmem x hx
    · rw [hown]
      exact Set.union_subset_union_left U (hcs.own c hc)
    · exact (hcs.own x (hother x hx).1).trans Set.subset_union_left
  · refine List.pairwise_append.mpr ⟨happ_as, List.pairwise_cons.mpr ⟨fun x hx => ?_, happ_bs⟩, fun x hx y hy => ?_⟩
    · rw [hown]
      exact (hother x (.inr hx)).2.symm
    · obtain rfl | hy := List.mem_cons.mp hy
      · rw [hown]
        exact (hother x (.inl hx)).2
      · exact happ_abs x hx y (List.mem_cons_of_mem _ hy)
  · have hkeys : (as ++ c' :: bs).map Cell.key = (as ++ c :: bs).map Cell.key := by simp [hkey]
    rw [hkeys]
    exact hcs.nodup

end

/-! ### Loading and reading back -/

/-- `load` puts values into new objects. -/
def Loads (P : β → Prop) (R : Store (Obj κ α) → ℕ → β → Set ℕ → Prop) (load : Store (Obj κ α) → β → Store (Obj κ α) × ℕ) :
    Prop :=
  ∀ h b, P b → R (load h b).1 (load h b).2 b (Set.Ico h.next (load h b).1.next) ∧ h.next ≤ (load h b).1.next ∧
    ∀ o < h.next, (load h b).1.obj o = h.obj o

/-- `dump` reads values back. -/
def Dumps (R : Store (Obj κ α) → ℕ → β → Set ℕ → Prop) (dump : Store (Obj κ α) → ℕ → Option β) : Prop :=
  ∀ h p b S, R h p b S → dump h p = some b

/-- A new list. -/
def loadList (h : Store (Obj κ α)) (l : List α) : Store (Obj κ α) × ℕ := h.alloc (.list l)

/-- New items. -/
def loadItems (load : Store (Obj κ α) → β → Store (Obj κ α) × ℕ) (h : Store (Obj κ α)) :
    Dict κ β → Store (Obj κ α) × Dict κ ℕ
  | [] => (h, [])
  | (k, b) :: d =>
    let loaded := load h b
    let rest := loadItems load loaded.1 d
    (rest.1, (k, loaded.2) :: rest.2)

/-- A new dictionary. -/
def loadDict (load : Store (Obj κ α) → β → Store (Obj κ α) × ℕ) (h : Store (Obj κ α)) (d : Dict κ β) :
    Store (Obj κ α) × ℕ :=
  (loadItems load h d).1.alloc (.dict (loadItems load h d).2)

/-- The list at a reference. -/
def dumpList (h : Store (Obj κ α)) (p : ℕ) : Option (List α) :=
  match h.obj p with
  | .list l => some l
  | .dict _ => none

/-- The dictionary at a reference. -/
def dumpDict (dump : Store (Obj κ α) → ℕ → Option β) (h : Store (Obj κ α)) (p : ℕ) : Option (Dict κ β) :=
  match h.obj p with
  | .dict d => d.mapM fun e => (dump h e.2).map fun b => (e.1, b)
  | .list _ => none

theorem loads_list : Loads (fun _ => True) ListAt (loadList (κ := κ) (α := α)) := by
  intro h l _
  refine ⟨⟨Store.obj_alloc_next h _, ?_⟩, Nat.le_succ _, fun o ho => Store.obj_alloc_of_lt h _ ho⟩
  exact ⟨le_rfl, Nat.lt_succ_self _⟩

section

variable {P : β → Prop} {R : Store (Obj κ α) → ℕ → β → Set ℕ → Prop} {load : Store (Obj κ α) → β → Store (Obj κ α) × ℕ}
  {dump : Store (Obj κ α) → ℕ → Option β}

/-- New items own new objects, one after the other. -/
theorem loadItems_cells (hR : Local R) (hload : Loads P R load) (h : Store (Obj κ α)) {d : Dict κ β}
    (hd : d.keys.Nodup) (hP : ∀ e ∈ d, P e.2) :
    ∃ cs, (loadItems load h d).2 = Cell.items Cell.ref cs ∧ d = Cell.items Cell.val cs ∧
      Cells R (loadItems load h d).1 cs (Set.Ico h.next (loadItems load h d).1.next) ∧
      h.next ≤ (loadItems load h d).1.next ∧ ∀ o < h.next, (loadItems load h d).1.obj o = h.obj o := by
  induction d generalizing h with
  | nil => exact ⟨[], rfl, rfl, ⟨by simp, by simp, .nil, .nil⟩, le_rfl, fun _ _ => rfl⟩
  | cons e d ih =>
    obtain ⟨k, b⟩ := e
    obtain ⟨hk, hd⟩ := List.nodup_cons.mp hd
    obtain ⟨hval, hle, hobj⟩ := hload h b (hP _ List.mem_cons_self)
    obtain ⟨cs, hrefs, rfl, hcs, hle', hobj'⟩ := ih (load h b).1 hd fun e he => hP e (List.mem_cons_of_mem _ he)
    rw [loadItems]
    dsimp only
    refine ⟨⟨k, (load h b).2, b, Set.Ico h.next (load h b).1.next⟩ :: cs, by rw [hrefs]; rfl, rfl,
      ⟨fun c hc => ?_, fun c hc => ?_, ?_, ?_⟩, hle.trans hle', fun o ho => (hobj' o (ho.trans_le hle)).trans (hobj o ho)⟩
    · obtain rfl | hc := List.mem_cons.mp hc
      · exact hR _ _ _ _ _ hval fun o ho => hobj' o ho.2
      · exact hcs.val c hc
    · obtain rfl | hc := List.mem_cons.mp hc
      · exact Set.Ico_subset_Ico_right hle'
      · exact (hcs.own c hc).trans (Set.Ico_subset_Ico_left hle)
    · refine List.pairwise_cons.mpr ⟨fun c hc => ?_, hcs.apart⟩
      refine Set.disjoint_left.mpr fun o ho ho' => ?_
      exact absurd ho.2 (Nat.not_lt.mpr (hcs.own c hc ho').1)
    · have hkey : k ∉ (Cell.items Cell.val cs).keys := hk
      rw [Cell.keys_items] at hkey
      exact List.nodup_cons.mpr ⟨hkey, hcs.nodup⟩

/-- **A dictionary is loaded** into new objects. -/
theorem loads_dict (hR : Local R) (hload : Loads P R load) :
    Loads (fun d => d.keys.Nodup ∧ ∀ e ∈ d, P e.2) (DictAt R) (loadDict load) := by
  rintro h d ⟨hd, hP⟩
  obtain ⟨cs, hrefs, rfl, hcs, hle, hobj⟩ := loadItems_cells hR hload h hd hP
  rw [loadDict]
  refine ⟨⟨cs, ?_, rfl, ?_, ?_⟩, hle.trans (Nat.le_succ _), fun o ho => ?_⟩
  · rw [← hrefs]
    exact Store.obj_alloc_next _ _
  · exact ⟨hle, Nat.lt_succ_self _⟩
  · have hown : Set.Ico h.next (loadItems load h (Cell.items Cell.val cs)).1.next ⊆
        Set.Ico h.next ((loadItems load h (Cell.items Cell.val cs)).1.next + 1) \
          {(loadItems load h (Cell.items Cell.val cs)).1.next} :=
      fun o ho => ⟨⟨ho.1, ho.2.trans (Nat.lt_succ_self _)⟩, fun heq => absurd ho.2 (heq ▸ lt_irrefl _)⟩
    refine Cells.frame hR ⟨hcs.val, fun c hc => (hcs.own c hc).trans hown, hcs.apart, hcs.nodup⟩ fun o ho => ?_
    refine Store.obj_alloc_of_lt _ _ ?_
    have hlt : o < (loadItems load h (Cell.items Cell.val cs)).1.next + 1 := ho.1.2
    have hne : o ≠ (loadItems load h (Cell.items Cell.val cs)).1.next := ho.2
    omega
  · exact (Store.obj_alloc_of_lt _ _ (ho.trans_le hle)).trans (hobj o ho)

theorem dumps_list : Dumps (ListAt (κ := κ) (α := α)) dumpList := by
  rintro h p l S ⟨hobj, -⟩
  rw [dumpList, hobj]

/-- **A dictionary is read back.** -/
theorem dumps_dict (hdump : Dumps R dump) : Dumps (DictAt R) (dumpDict dump) := by
  rintro h p d S ⟨cs, hobj, rfl, -, hcs⟩
  rw [dumpDict, hobj]
  dsimp only
  have hval := hcs.val
  clear hcs hobj
  induction cs with
  | nil => rfl
  | cons c cs ih =>
    have hrest := ih fun c' hc' => hval c' (List.mem_cons_of_mem _ hc')
    rw [Cell.items] at hrest ⊢
    rw [List.map_cons, List.mapM_cons, hdump _ _ _ _ (hval c List.mem_cons_self), hrest]
    rfl

end

end SEDiff.Foundation
