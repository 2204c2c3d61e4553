import SEDiff.Foundation.Objects
import SEDiff.Foundation.Text

/-!
# The path database

`PathBin` of `pathbin.py`: the paths of each function by their return expression. Databases are dictionaries of
dictionaries of lists, which `_merge_dict` merges in place: lists are extended, and what is only in one of them is shared
afterwards.

## What is proved

* `merge_at` — in a store, a database that is merged into another one has the values of both.
* `merge_bins_eq` — databases that are loaded one after the other and merged are the pure merge of them.
* `filed_merge` — merged databases file the paths of both.
* `merged_same` — merging the databases of the pieces of a list of paths, in any order, files the same paths as one pass.
-/

namespace SEDiff.Juxta

open Foundation

variable {P : Type*}

/-- `{@RETURN, [RetPath*]}`. -/
abbrev FuncDic (P : Type*) := Dict (Option Str) (List P)

/-- `{@FUNCTION, {@RETURN, [RetPath*]}}`. -/
abbrev FnDic (P : Type*) := Dict (Option Str) (FuncDic P)

/-- The objects of databases. -/
abbrev Heap (P : Type*) := Store (Foundation.Obj (Option Str) P)

/-! ### The source -/

/-- `lhs[key]` and `rhs[key]` when both are there, where `rec` merges dictionaries; other types cannot be added. -/
def merge_value (rec : Heap P → ℕ → ℕ → Option (Heap P)) (h : Heap P) (lhs rhs : ℕ) : Option (Heap P) :=
  match h.obj lhs, h.obj rhs with
  | .dict _, .dict _ => rec h lhs rhs
  | .list xs, .list ys => some (h.set lhs (.list (xs ++ ys)))
  | _, _ => none

/-- The loop body of `_merge_dict`, where `value` merges two values. -/
def merge_key (value : Heap P → ℕ → ℕ → Option (Heap P)) (lhs rhs : ℕ) (h : Heap P) (key : Option Str) :
    Option (Heap P) :=
  match h.obj lhs, h.obj rhs with
  | .dict l, .dict r =>
    match l.get? key, r.get? key with
    | some p, some q => value h p q
    | none, some q => some (h.set lhs (.dict (l.put key q)))
    | _, none => none
  | _, _ => none

/-- `_merge_dict`: "merges rhs into lhs", for dictionaries that are at most `depth` dictionaries deep. -/
def _merge_dict : ℕ → Heap P → ℕ → ℕ → Option (Heap P)
  | 0, _, _, _ => none
  | depth + 1, h, lhs, rhs =>
    match h.obj rhs with
    | .dict r => r.keys.foldlM (merge_key (merge_value (_merge_dict depth)) lhs rhs) h
    | .list _ => none

namespace PathBin

/-- `merge`: a database is two dictionaries deep. -/
def merge (h : Heap P) (fn_dic rhs : ℕ) : Option (Heap P) := _merge_dict 2 h fn_dic rhs

/-- `__load_from_pickle`. -/
def load (h : Heap P) (fn_dic : FnDic P) : Heap P × ℕ := loadDict (loadDict loadList) h fn_dic

/-- What `save_as_pickle` writes. -/
def dump (h : Heap P) (p : ℕ) : Option (FnDic P) := dumpDict (dumpDict dumpList) h p

/-- The first database is loaded, and the others are loaded and merged into it one after the other. -/
def merge_bins (first : FnDic P) (rest : List (FnDic P)) : Option (FnDic P) := do
  let pathbin := load ⟨fun _ => .list [], 0⟩ first
  let h ← rest.foldlM (fun h fn_dic => merge (load h fn_dic).1 pathbin.2 (load h fn_dic).2) pathbin.1
  dump h pathbin.2

variable (get_func_name get_rtn : P → Option Str)

/-- `__process_path`, after the arguments of the path are normalized. -/
def process_path (fn_dic : FnDic P) (path : P) : FnDic P :=
  let fn := get_func_name path
  let rtn_dic := (fn_dic.get? fn).getD []
  let rtn := get_rtn path
  let paths := (rtn_dic.get? rtn).getD []
  fn_dic.put fn (rtn_dic.put rtn (paths ++ [path]))

/-- `parse_file`, and `parse_all`: a database of these paths. -/
def parse (paths : List P) : FnDic P := paths.foldl (process_path get_func_name get_rtn) []

end PathBin

/-! ### Merging in place -/

section Merge

variable {β : Type*} {R : Heap P → ℕ → β → Set ℕ → Prop} {m : β → β → β}

/-- `value` merges values in place. -/
def Merges (R : Heap P → ℕ → β → Set ℕ → Prop) (m : β → β → β) (value : Heap P → ℕ → ℕ → Option (Heap P)) : Prop :=
  ∀ h p q a b S T, R h p a S → R h q b T → Disjoint S T →
    ∃ h', value h p q = some h' ∧ R h' p (m a b) (S ∪ T) ∧ OnlyAt h h' (S ∪ T)

/-- Lists are extended. -/
theorem merges_list (rec : Heap P → ℕ → ℕ → Option (Heap P)) : Merges ListAt (· ++ ·) (merge_value rec) := by
  rintro h p q a b S T ⟨hp, hpS⟩ ⟨hq, -⟩ -
  refine ⟨h.set p (.list (a ++ b)), ?_, ⟨Store.obj_set_self h p _, .inl hpS⟩, OnlyAt.set h (.inl hpS) _⟩
  rw [merge_value, hp, hq]

variable {value : Heap P → ℕ → ℕ → Option (Heap P)} {h : Heap P} {p q : ℕ} {cs ds : List (Cell (Option Str) β)}
  {S T : Set ℕ} {r : Dict (Option Str) ℕ}

/-- **One key** is merged. -/
theorem merge_key_cells (hR : Local R) (hvalue : Merges R m value) (hp : h.obj p = .dict (Cell.items Cell.ref cs))
    (hcs : Cells R h cs S) (hq : h.obj q = .dict r) {d : Cell (Option Str) β} (hd : R h d.ref d.val d.own)
    (hS : Disjoint S d.own) (hpS : p ∉ S ∪ d.own) (hr : r.get? d.key = some d.ref) :
    ∃ h' cs', merge_key value p q h d.key = some h' ∧ h'.obj p = .dict (Cell.items Cell.ref cs') ∧
      Cells R h' cs' (S ∪ d.own) ∧ Cell.items Cell.val cs' = Dict.putWith m (Cell.items Cell.val cs) (d.key, d.val) ∧
      OnlyAt h h' (insert p (S ∪ d.own)) := by
  cases hget : (Cell.items Cell.ref cs).get? d.key with
  | none =>
    have hkey : d.key ∉ cs.map Cell.key := by
      rw [← Cell.keys_items Cell.ref, ← Dict.get?_ne_none, not_not]
      exact hget
    have hkey_val : d.key ∉ (Cell.items Cell.val cs).keys := by rwa [Cell.keys_items]
    have hkey_ref : d.key ∉ (Cell.items Cell.ref cs).keys := by rwa [Cell.keys_items]
    refine ⟨h.set p (.dict ((Cell.items Cell.ref cs).put d.key d.ref)), cs ++ [d], ?_, ?_, ?_, ?_,
      OnlyAt.set h (Set.mem_insert p _) _⟩
    · simp only [merge_key, hp, hq, hget, hr]
    · rw [Store.obj_set_self, Dict.put_of_notMem hkey_ref, Cell.items_append_cons]
      rfl
    · refine (hcs.append hd hS hkey).frame hR fun o ho => Store.obj_set_of_ne h _ fun heq => hpS (heq ▸ ho)
    · rw [Dict.putWith, Dict.get?_eq_none hkey_val]
      dsimp only
      rw [Dict.put_of_notMem hkey_val, Cell.items_append_cons]
      rfl
  | some u =>
    obtain ⟨as, c, bs, rfl, hkey, rfl, has⟩ := Cell.exists_of_get? hget
    have hc : c ∈ as ++ c :: bs := by simp
    obtain ⟨h', hrun, hval, honly⟩ := hvalue h c.ref d.ref c.val d.val c.own d.own (hcs.val c hc) hd
      (hS.mono_left (hcs.own c hc))
    have hsub : c.own ∪ d.own ⊆ S ∪ d.own := Set.union_subset_union_left d.own (hcs.own c hc)
    refine ⟨h', as ++ ⟨c.key, c.ref, m c.val d.val, c.own ∪ d.own⟩ :: bs, ?_, ?_,
      hcs.replace hR hS rfl rfl hval honly, ?_, honly.mono (hsub.trans (Set.subset_insert p _))⟩
    · simp only [merge_key, hp, hq, hget, hr]
      exact hrun
    · rw [honly.obj_eq p fun hmem => hpS (hsub hmem), hp, Cell.items_append_cons, Cell.items_append_cons]
    · have hnew : d.key ∉ (Cell.items Cell.val as).keys := by rwa [Cell.keys_items]
      rw [Dict.putWith, Cell.items_append_cons, Cell.items_append_cons, hkey, Dict.get?_append_cons hnew]
      dsimp only
      rw [Dict.put_append_cons hnew]

/-- **The loop** over the keys of a dictionary. -/
theorem merge_loop (hR : Local R) (hvalue : Merges R m value) (hp : h.obj p = .dict (Cell.items Cell.ref cs))
    (hcs : Cells R h cs S) (hq : h.obj q = .dict r) (hds : Cells R h ds T) (hST : Disjoint S T) (hpST : p ∉ S ∪ T)
    (hqST : q ∉ S ∪ T) (hqp : q ≠ p) (hr : ∀ d ∈ ds, r.get? d.key = some d.ref) :
    ∃ h' cs', (ds.map Cell.key).foldlM (merge_key value p q) h = some h' ∧ h'.obj p = .dict (Cell.items Cell.ref cs') ∧
      Cells R h' cs' (S ∪ T) ∧ Cell.items Cell.val cs' = Dict.mergeWith m (Cell.items Cell.val cs) (Cell.items Cell.val ds) ∧
      OnlyAt h h' (insert p (S ∪ T)) := by
  induction ds generalizing h cs S T with
  | nil =>
    refine ⟨h, cs, rfl, hp, ⟨hcs.val, fun c hc => (hcs.own c hc).trans Set.subset_union_left, hcs.apart, hcs.nodup⟩, rfl,
      rfl, fun _ _ => rfl⟩
  | cons d ds ih =>
    have hd : d.own ⊆ T := hds.own d List.mem_cons_self
    obtain ⟨hd_apart, hds_apart⟩ := List.pairwise_cons.mp hds.apart
    have hrest : Cells R h ds (T \ d.own) := ⟨fun c hc => hds.val c (List.mem_cons_of_mem _ hc),
      fun c hc o ho => ⟨hds.own c (List.mem_cons_of_mem _ hc) ho, Set.disjoint_right.mp (hd_apart c hc) ho⟩, hds_apart,
      (List.nodup_cons.mp hds.nodup).2⟩
    have hunion : S ∪ d.own ∪ T \ d.own = S ∪ T := by
      rw [Set.union_assoc, Set.union_sdiff_cancel hd]
    have hsub : S ∪ d.own ⊆ S ∪ T := Set.union_subset_union_right S hd
    have hdisj : Disjoint (S ∪ d.own) (T \ d.own) := by
      refine Set.disjoint_left.mpr fun o ho ho' => ?_
      obtain ho | ho := ho
      · exact Set.disjoint_left.mp hST ho ho'.1
      · exact ho'.2 ho
    obtain ⟨h₁, cs₁, hrun, hp₁, hcs₁, hvals, honly⟩ := merge_key_cells hR hvalue hp hcs hq
      (hds.val d List.mem_cons_self) (hST.mono_right hd) (fun hmem => hpST (hsub hmem)) (hr d List.mem_cons_self)
    have houtside : ∀ o, o ∉ insert p (S ∪ d.own) → h₁.obj o = h.obj o := honly.obj_eq
    have hq₁ : h₁.obj q = .dict r := by
      rw [houtside q, hq]
      rintro (heq | hmem)
      · exact hqp heq
      · exact hqST (hsub hmem)
    have hrest₁ : Cells R h₁ ds (T \ d.own) := by
      refine hrest.frame hR fun o ho => houtside o ?_
      rintro (rfl | hmem)
      · exact hpST (.inr ho.1)
      · exact Set.disjoint_left.mp hdisj hmem ho
    obtain ⟨h', cs', hruns, hp', hcs', hvals', honly'⟩ := ih hp₁ hcs₁ hq₁ hrest₁ hdisj (by rwa [hunion])
      (by rwa [hunion]) fun d' hd' => hr d' (List.mem_cons_of_mem _ hd')
    rw [hunion] at hcs' honly'
    refine ⟨h', cs', ?_, hp', hcs', ?_, (honly.mono (Set.insert_subset_insert hsub)).trans honly'⟩
    · rw [List.map_cons, List.foldlM_cons, hrun]
      exact hruns
    · rw [hvals', hvals]
      rfl

/-- **Dictionaries** are merged in place. -/
theorem merges_dict (hR : Local R) {depth : ℕ} (hvalue : Merges R m (merge_value (_merge_dict depth))) :
    Merges (DictAt R) (Dict.mergeWith m) (_merge_dict (depth + 1)) := by
  rintro h p q a b S T ⟨cs, hp, rfl, hpS, hcs⟩ ⟨ds, hq, rfl, hqT, hds⟩ hST
  have hqS : q ∉ S := fun hmem => Set.disjoint_left.mp hST hmem hqT
  have hpT : p ∉ T := Set.disjoint_left.mp hST hpS
  have hsub : S \ {p} ∪ T \ {q} ⊆ S ∪ T := Set.union_subset_union Set.sdiff_subset Set.sdiff_subset
  have hr : ∀ d ∈ ds, (Cell.items Cell.ref ds).get? d.key = some d.ref := by
    intro d hd
    obtain ⟨as, bs, rfl⟩ := List.append_of_mem hd
    have hnew : d.key ∉ (Cell.items Cell.ref as).keys := by
      have hnodup := hds.nodup
      rw [List.map_append, List.map_cons] at hnodup
      rw [Cell.keys_items]
      exact fun hmem => (List.nodup_append.mp hnodup).2.2 _ hmem _ List.mem_cons_self rfl
    rw [Cell.items_append_cons]
    exact Dict.get?_append_cons hnew _ _
  obtain ⟨h', cs', hrun, hp', hcs', hvals, honly⟩ := merge_loop hR hvalue hp hcs hq hds
    (hST.mono Set.sdiff_subset Set.sdiff_subset)
    (fun hmem => hmem.elim (fun hm => hm.2 rfl) fun hm => hpT hm.1)
    (fun hmem => hmem.elim (fun hm => hqS hm.1) fun hm => hm.2 rfl) (fun heq => hpT (heq ▸ hqT)) hr
  have hinsert : insert p (S \ {p} ∪ T \ {q}) ⊆ S ∪ T := Set.insert_subset (.inl hpS) hsub
  refine ⟨h', ?_, ⟨cs', hp', hvals.symm, .inl hpS, ?_⟩, honly.mono hinsert⟩
  · rw [_merge_dict, hq]
    dsimp only
    rw [Cell.keys_items]
    exact hrun
  · refine ⟨hcs'.val, fun c hc => (hcs'.own c hc).trans fun o ho => ⟨hsub ho, ?_⟩, hcs'.apart, hcs'.nodup⟩
    rintro rfl
    exact ho.elim (fun hm => hm.2 rfl) fun hm => hpT hm.1

/-- Values that are dictionaries are merged by `_merge_dict`. -/
theorem merges_value (hR : Local R) {depth : ℕ} (hvalue : Merges R m (merge_value (_merge_dict depth))) :
    Merges (DictAt R) (Dict.mergeWith m) (merge_value (_merge_dict (depth + 1))) := by
  intro h p q a b S T hp hq hST
  obtain ⟨h', hrun, hspec⟩ := merges_dict hR hvalue h p q a b S T hp hq hST
  obtain ⟨cs, hobj_p, -⟩ := hp
  obtain ⟨ds, hobj_q, -⟩ := hq
  refine ⟨h', ?_, hspec⟩
  rw [merge_value, hobj_p, hobj_q]
  exact hrun

end Merge

/-- The values of both databases. -/
def mergeDic (db db' : FnDic P) : FnDic P := Dict.mergeWith (Dict.mergeWith (· ++ ·)) db db'

/-- A database in a store. -/
def BinAt (h : Heap P) (p : ℕ) (db : FnDic P) (S : Set ℕ) : Prop := DictAt (DictAt ListAt) h p db S

/-- **A database is merged** into another one in place, however deep `_merge_dict` may go. -/
theorem merge_at (depth : ℕ) : Merges BinAt mergeDic (_merge_dict (P := P) (depth + 2)) :=
  merges_dict (DictAt.local ListAt.local) (merges_value ListAt.local (merges_list _))

/-- Each key is listed once. -/
def WF (db : FnDic P) : Prop := db.keys.Nodup ∧ ∀ e ∈ db, e.2.keys.Nodup

theorem loads_bin : Loads WF BinAt (PathBin.load (P := P)) := by
  rintro h db ⟨hdb, hes⟩
  exact loads_dict (DictAt.local ListAt.local) (loads_dict ListAt.local loads_list) h db
    ⟨hdb, fun e he => ⟨hes e he, fun _ _ => trivial⟩⟩

theorem dumps_bin : Dumps BinAt (PathBin.dump (P := P)) := dumps_dict (dumps_dict dumps_list)

/-- The databases that are loaded and merged into one. -/
theorem merge_bins_fold {h : Heap P} {p : ℕ} {db : FnDic P} {S : Set ℕ} (hp : BinAt h p db S) (hS : S ⊆ Set.Iio h.next)
    {dbs : List (FnDic P)} (hdbs : ∀ db ∈ dbs, WF db) :
    ∃ h' S', dbs.foldlM (fun h fn_dic => PathBin.merge (PathBin.load h fn_dic).1 p (PathBin.load h fn_dic).2) h = some h' ∧
      BinAt h' p (dbs.foldl mergeDic db) S' := by
  induction dbs generalizing h db S with
  | nil => exact ⟨h, S, rfl, hp⟩
  | cons db' dbs ih =>
    obtain ⟨hload, hle, hobj⟩ := loads_bin h db' (hdbs db' List.mem_cons_self)
    have hp₁ : BinAt (PathBin.load h db').1 p db S :=
      DictAt.local (DictAt.local ListAt.local) _ _ _ _ _ hp fun o ho => hobj o (hS ho)
    have hdisj : Disjoint S (Set.Ico h.next (PathBin.load h db').1.next) :=
      Set.disjoint_left.mpr fun o ho ho' => absurd (hS ho) (Nat.not_lt.mpr ho'.1)
    obtain ⟨h₂, hrun, hp₂, honly⟩ := merge_at 0 _ _ _ _ _ _ _ hp₁ hload hdisj
    have hbound : S ∪ Set.Ico h.next (PathBin.load h db').1.next ⊆ Set.Iio h₂.next := by
      rw [honly.next_eq]
      exact Set.union_subset (hS.trans fun o ho => lt_of_lt_of_le ho hle) fun o ho => ho.2
    obtain ⟨h', S', hruns, hp'⟩ := ih hp₂ hbound fun db hdb => hdbs db (List.mem_cons_of_mem _ hdb)
    refine ⟨h', S', ?_, hp'⟩
    rw [List.foldlM_cons, PathBin.merge, hrun]
    exact hruns

/-- **Merging in a store** is the merge of the values. -/
theorem merge_bins_eq {first : FnDic P} {rest : List (FnDic P)} (hfirst : WF first) (hrest : ∀ db ∈ rest, WF db) :
    PathBin.merge_bins first rest = some (rest.foldl mergeDic first) := by
  obtain ⟨hload, -, -⟩ := loads_bin (P := P) ⟨fun _ => .list [], 0⟩ first hfirst
  obtain ⟨h', S', hrun, hp⟩ := merge_bins_fold hload (fun o ho => ho.2) hrest
  rw [PathBin.merge_bins, hrun]
  exact dumps_bin h' _ _ _ hp

/-! ### What is filed -/

/-- There is a value exactly when there are paths, and it holds them. -/
def Holding {β : Type*} (Q : β → List P → Prop) : Option β → List P → Prop
  | none, ps => ps = []
  | some b, ps => ps ≠ [] ∧ Q b ps

/-- The paths are in a dictionary by `key`. -/
def FiledBy {κ β : Type*} [DecidableEq κ] (Q : β → List P → Prop) (key : P → κ) (d : Dict κ β) (ps : List P) : Prop :=
  d.keys.Nodup ∧ ∀ k, Holding Q (d.get? k) (ps.filter fun p => key p = k)

section Filed

variable {κ β : Type*} [DecidableEq κ] {Q : β → List P → Prop} {m : β → β → β} {key : P → κ} {d d' : Dict κ β}
  {ps qs : List P}

/-- Merged dictionaries hold the paths of both. -/
theorem FiledBy.merge (hm : ∀ a b ps qs, Q a ps → Q b qs → Q (m a b) (ps ++ qs)) (hd : FiledBy Q key d ps)
    (hd' : FiledBy Q key d' qs) : FiledBy Q key (Dict.mergeWith m d d') (ps ++ qs) := by
  refine ⟨Dict.nodup_keys_mergeWith hd.1 d', fun k => ?_⟩
  have hk := hd.2 k
  have hk' := hd'.2 k
  rw [Dict.get?_mergeWith d hd'.1 k, List.filter_append]
  cases hget : d.get? k with
  | none =>
    rw [hget] at hk
    rw [show ps.filter (fun p => key p = k) = [] from hk, List.nil_append]
    exact hk'
  | some a =>
    rw [hget] at hk
    cases hget' : d'.get? k with
    | none =>
      rw [hget'] at hk'
      rw [show qs.filter (fun p => key p = k) = [] from hk', List.append_nil]
      exact hk
    | some b =>
      rw [hget'] at hk'
      exact ⟨List.append_ne_nil_of_left_ne_nil hk.1 _, hm a b _ _ hk.2 hk'.2⟩

/-- The order of the paths does not matter. -/
theorem FiledBy.perm (hQ : ∀ b ps qs, Q b ps → ps.Perm qs → Q b qs) (hd : FiledBy Q key d ps) (h : ps.Perm qs) :
    FiledBy Q key d qs := by
  refine ⟨hd.1, fun k => ?_⟩
  have hk := hd.2 k
  have hfilter := h.filter fun p => key p = k
  cases hget : d.get? k with
  | none =>
    rw [hget] at hk
    rw [show ps.filter (fun p => key p = k) = [] from hk] at hfilter
    exact hfilter.nil_eq.symm
  | some b =>
    rw [hget] at hk
    exact ⟨fun hnil => hk.1 (hnil ▸ hfilter).eq_nil, hQ b _ _ hk.2 hfilter⟩

/-- Dictionaries that hold the same paths have the same keys. -/
theorem FiledBy.rel {r : β → β → Prop} (hr : ∀ a b ps, Q a ps → Q b ps → r a b) (hd : FiledBy Q key d ps)
    (hd' : FiledBy Q key d' ps) (k : κ) : Option.Rel r (d.get? k) (d'.get? k) := by
  have hk := hd.2 k
  have hk' := hd'.2 k
  cases hget : d.get? k with
  | none =>
    rw [hget] at hk
    cases hget' : d'.get? k with
    | none => exact .none
    | some b =>
      rw [hget'] at hk'
      exact absurd hk hk'.1
  | some a =>
    rw [hget] at hk
    cases hget' : d'.get? k with
    | none =>
      rw [hget'] at hk'
      exact absurd hk' hk.1
    | some b =>
      rw [hget'] at hk'
      exact .some (hr a b _ hk.2 hk'.2)

/-- A dictionary of one item. -/
theorem FiledBy.singleton {b : β} {k : κ} (hne : ps ≠ []) (hkey : ∀ p ∈ ps, key p = k) (hb : Q b ps) :
    FiledBy Q key [(k, b)] ps := by
  refine ⟨List.nodup_singleton k, fun k' => ?_⟩
  rw [Dict.get?, Dict.get?_nil]
  by_cases hk : k = k'
  · subst hk
    rw [if_pos rfl, List.filter_eq_self.mpr fun p hp => by simpa using hkey p hp]
    exact ⟨hne, hb⟩
  · rw [if_neg hk, List.filter_eq_nil_iff.mpr fun p hp => by simpa [hkey p hp] using hk]
    rfl

end Filed

section

variable {get_func_name get_rtn : P → Option Str}

/-- The paths of a function, by return expression. -/
def FuncFiled (get_rtn : P → Option Str) (d : FuncDic P) (ps : List P) : Prop := FiledBy List.Perm get_rtn d ps

/-- The paths, by function and return expression. -/
def Filed (get_func_name get_rtn : P → Option Str) (db : FnDic P) (ps : List P) : Prop :=
  FiledBy (FuncFiled get_rtn) get_func_name db ps

theorem FuncFiled.merge {d d' : FuncDic P} {ps qs : List P} (hd : FuncFiled get_rtn d ps) (hd' : FuncFiled get_rtn d' qs) :
    FuncFiled get_rtn (Dict.mergeWith (· ++ ·) d d') (ps ++ qs) :=
  FiledBy.merge (fun _ _ _ _ => List.Perm.append) hd hd'

theorem FuncFiled.perm {d : FuncDic P} {ps qs : List P} (hd : FuncFiled get_rtn d ps) (h : ps.Perm qs) :
    FuncFiled get_rtn d qs :=
  FiledBy.perm (fun _ _ _ => List.Perm.trans) hd h

/-- **Merged databases** file the paths of both. -/
theorem filed_merge {db db' : FnDic P} {ps qs : List P} (h : Filed get_func_name get_rtn db ps)
    (h' : Filed get_func_name get_rtn db' qs) : Filed get_func_name get_rtn (mergeDic db db') (ps ++ qs) :=
  FiledBy.merge (fun _ _ _ _ => FuncFiled.merge) h h'

theorem Filed.perm {db : FnDic P} {ps qs : List P} (h : Filed get_func_name get_rtn db ps) (hperm : ps.Perm qs) :
    Filed get_func_name get_rtn db qs :=
  FiledBy.perm (fun _ _ _ => FuncFiled.perm) h hperm

theorem Filed.wf {db : FnDic P} {ps : List P} (h : Filed get_func_name get_rtn db ps) : WF db := by
  refine ⟨h.1, fun e he => ?_⟩
  have hk := h.2 e.1
  rw [Dict.get?_of_mem h.1 he] at hk
  exact hk.2.1

/-- A path is filed as a database of its own. -/
theorem process_path_eq (db : FnDic P) (path : P) : PathBin.process_path get_func_name get_rtn db path =
    mergeDic db [(get_func_name path, [(get_rtn path, [path])])] := by
  rw [PathBin.process_path, mergeDic, Dict.mergeWith, List.foldl_cons, List.foldl_nil, Dict.putWith]
  dsimp only
  cases db.get? (get_func_name path) with
  | none => rfl
  | some d =>
    have hpaths : Dict.mergeWith (· ++ ·) d [(get_rtn path, [path])] =
        d.put (get_rtn path) ((d.get? (get_rtn path)).getD [] ++ [path]) := by
      rw [Dict.mergeWith, List.foldl_cons, List.foldl_nil, Dict.putWith]
      dsimp only
      cases d.get? (get_rtn path) <;> rfl
    rw [Option.getD_some]
    dsimp only
    rw [hpaths]

/-- **One pass** files the paths. -/
theorem parse_filed (ps : List P) : Filed get_func_name get_rtn (PathBin.parse get_func_name get_rtn ps) ps := by
  have hfold (db : FnDic P) (qs : List P) (h : Filed get_func_name get_rtn db qs) :
      Filed get_func_name get_rtn (ps.foldl (PathBin.process_path get_func_name get_rtn) db) (qs ++ ps) := by
    induction ps generalizing db qs with
    | nil => rwa [List.append_nil]
    | cons p ps ih =>
      have hpath : Filed get_func_name get_rtn [(get_func_name p, [(get_rtn p, [p])])] [p] :=
        FiledBy.singleton (by simp) (by simp) (FiledBy.singleton (by simp) (by simp) (List.Perm.refl _))
      have hstep := ih (PathBin.process_path get_func_name get_rtn db p) (qs ++ [p]) (by
        rw [process_path_eq]
        exact filed_merge h hpath)
      rw [List.foldl_cons, List.append_cons]
      exact hstep
  exact hfold [] [] ⟨List.nodup_nil, fun _ => rfl⟩

/-- The two databases have the same functions, with the same return expressions and the same paths for each, in some
order. -/
def Same (db db' : FnDic P) : Prop :=
  ∀ fn, Option.Rel (fun d d' : FuncDic P => ∀ rtn, Option.Rel List.Perm (d.get? rtn) (d'.get? rtn)) (db.get? fn)
    (db'.get? fn)

/-- Databases that file the same paths are the same. -/
theorem Filed.same {db db' : FnDic P} {ps : List P} (h : Filed get_func_name get_rtn db ps)
    (h' : Filed get_func_name get_rtn db' ps) : Same db db' := by
  have hrel (d d' : FuncDic P) (qs : List P) (hd : FuncFiled get_rtn d qs) (hd' : FuncFiled get_rtn d' qs)
      (rtn : Option Str) : Option.Rel List.Perm (d.get? rtn) (d'.get? rtn) :=
    FiledBy.rel (fun _ _ _ hl hl' => hl.trans hl'.symm) hd hd' rtn
  exact FiledBy.rel hrel h h'

/-- The databases of some lists of paths, merged in this order. -/
theorem fold_filed {db : FnDic P} {ps : List P} (h : Filed get_func_name get_rtn db ps) (pieces : List (List P)) :
    Filed get_func_name get_rtn ((pieces.map (PathBin.parse get_func_name get_rtn)).foldl mergeDic db)
      (ps ++ pieces.flatten) := by
  induction pieces generalizing db ps with
  | nil => rwa [List.flatten_nil, List.append_nil]
  | cons piece pieces ih =>
    rw [List.map_cons, List.foldl_cons, List.flatten_cons, ← List.append_assoc]
    exact ih (filed_merge h (parse_filed piece))

/-- **Merging the databases of the pieces**, in any order, files the same paths as one pass. -/
theorem merged_same {pieces : List (List P)} {first : List P} {rest : List (List P)} (h : (first :: rest).Perm pieces) :
    ∃ db, PathBin.merge_bins (PathBin.parse get_func_name get_rtn first)
        (rest.map (PathBin.parse get_func_name get_rtn)) = some db ∧
      Same db (PathBin.parse get_func_name get_rtn pieces.flatten) := by
  have hwf (ps : List P) : WF (PathBin.parse get_func_name get_rtn ps) := (parse_filed ps).wf
  refine ⟨_, merge_bins_eq (hwf first) fun db hdb => ?_, ?_⟩
  · obtain ⟨piece, -, rfl⟩ := List.mem_map.mp hdb
    exact hwf piece
  · exact ((fold_filed (parse_filed first) rest).perm h.flatten).same (parse_filed _)

end

end SEDiff.Juxta
