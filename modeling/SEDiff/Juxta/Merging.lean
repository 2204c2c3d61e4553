import SEDiff.Foundation.Dict
import SEDiff.Foundation.Python
import SEDiff.Juxta.Locations

/-!
# Renaming static symbols

`prepare_rewritting` of `merger.py`. The C files of a module are merged into one, so a static symbol that several of them
define is renamed in all of them but one: the name of the file is added to it. What is read of a file are its static symbols.

## What is proved

* `sees_iff` — a file that is compared finds the symbols of the files that come later.
* `rewrite_files_spec` — so the symbols of a file that are renamed are those that a later file defines.
* `resolves_iff` — the collisions are resolved exactly when the new names are different.
-/

namespace SEDiff.Juxta

open Foundation

namespace Merger

/-- `static_symbols`: the symbols of each file. -/
abbrev Symbols := Dict Str (List Str)

/-- `rewriting_plan`: the new names of the symbols of each file. -/
abbrev Plan := Dict Str (Dict Str Str)

/-- `FS_FORCE_REWRITE`. -/
def FS_FORCE_REWRITE : Dict Str (List Str) :=
  [("logfs", ["hash_32"]), ("minix", ["DIRECT", "DEPTH", "block_t", "Indirect", "pointers_lock", "block_to_cpu"]),
    ("ncpfs", ["ncp_symlink", "ncp_symlink_readpage"]), ("jffs2", ["deflate_mutex"]),
    ("nfsd", ["NFSDDBG_FACILITY", "nfs3_ftypes"])].map fun e => (e.1.toList, e.2.map String.toList)

/-- `_to_canonical`. -/
def _to_canonical (pn sym : Str) : Str :=
  sym ++ '_' :: ((basename pn).replace ['.'] ['_']).replace ['-'] ['_']

/-- The collisions of one symbol. -/
def collide (pivot_pn sym : Str) (plan : Dict Str Str) (target : Str × List Str) : Dict Str Str :=
  if pivot_pn = target.1 then plan
  else if sym ∈ target.2 then plan.put sym (_to_canonical pivot_pn sym) else plan

/-- "rewrite if collapsed": `rewriting_plan[pivot_pn]`. -/
def collisions (static_symbols : Symbols) (pivot_pn : Str) (pivot_tbl : List Str) : Dict Str Str :=
  pivot_tbl.foldl (fun plan sym => static_symbols.foldl (collide pivot_pn sym) plan) []

/-- `pivot_tbl.remove(sym)` and `pivot_tbl.add(new_sym)`. -/
def exchange (pivot_tbl : List Str) (e : Str × Str) : Except PyErr (List Str) :=
  if e.1 ∈ pivot_tbl then .ok ((pivot_tbl.erase e.1).insert e.2) else .error .keyError

/-- The body of the loop over the files. -/
def rewrite_file (s : Symbols × Plan) (pivot_pn : Str) : Except PyErr (Symbols × Plan) := do
  let pivot_tbl := (s.1.get? pivot_pn).getD []
  let plan := collisions s.1 pivot_pn pivot_tbl
  -- "update pivot_tbl to minize rewriting"
  let pivot_tbl ← plan.foldlM exchange pivot_tbl
  return (s.1.put pivot_pn pivot_tbl, s.2.put pivot_pn plan)

/-- "manual rewriting (e.g., collision in headers)". -/
def force (static_symbols : Symbols) (plan : Plan) (sym : Str) : Plan :=
  static_symbols.foldl (fun plan e => plan.put e.1 (((plan.get? e.1).getD []).put sym (_to_canonical e.1 sym))) plan

/-- `prepare_rewritting`, from the static symbols of the files. -/
def prepare_rewritting (target : Str) (static_symbols : Symbols) : Except PyErr (Symbols × Plan) := do
  let (symbols, plan) ← static_symbols.keys.foldlM rewrite_file (static_symbols, [])
  return (symbols, ((FS_FORCE_REWRITE.get? target).getD []).foldl (force symbols) plan)

/-- The name of a symbol after its file is rewritten. -/
def Plan.rename (plan : Plan) (pn sym : Str) : Str := (((plan.get? pn).getD []).get? sym).getD sym

/-! ### What is to be shown -/

/-- **The collisions are resolved**. -/
structure Resolves (files symbols : Symbols) (plan : Plan) : Prop where
  /-- Different files have different symbols. -/
  disjoint : ∀ e ∈ files, ∀ f ∈ files, e.1 ≠ f.1 → ∀ s ∈ e.2, ∀ t ∈ f.2, plan.rename e.1 s ≠ plan.rename f.1 t
  /-- A symbol that is renamed is defined in another file too. -/
  needed : ∀ e ∈ files, ∀ s, ((plan.get? e.1).getD []).get? s ≠ none → s ∈ e.2 ∧ ∃ f ∈ files, f.1 ≠ e.1 ∧ s ∈ f.2
  /-- Different symbols of a file have different names. -/
  injective : ∀ e ∈ files, ∀ s ∈ e.2, ∀ t ∈ e.2, plan.rename e.1 s = plan.rename e.1 t → s = t
  /-- The tables hold the new names. -/
  tables : ∀ e ∈ files, ∃ tbl, symbols.get? e.1 = some tbl ∧ ∀ t, t ∈ tbl ↔ ∃ s ∈ e.2, plan.rename e.1 s = t

/-- The files of a module: different names, and each symbol once. -/
structure Files (files : Symbols) : Prop where
  /-- Different names. -/
  nodup : files.keys.Nodup
  /-- Each table is a set. -/
  sets : ∀ e ∈ files, e.2.Nodup
  /-- No symbol is another with the name of a file. -/
  original : ∀ e ∈ files, ∀ s ∈ e.2, ∀ f ∈ files, ∀ t ∈ f.2, t ≠ _to_canonical e.1 s

/-- A file that comes later has the symbol. -/
def Later (files : Symbols) (pn sym : Str) : Prop :=
  ∃ before tbl after, files = before ++ (pn, tbl) :: after ∧ ∃ f ∈ after, sym ∈ f.2

/-- The new names of different files are different, of the symbols that later files define too. -/
def NewNamesDiffer (files : Symbols) : Prop :=
  ∀ e ∈ files, ∀ f ∈ files, e.1 ≠ f.1 → ∀ s ∈ e.2, ∀ t ∈ f.2, Later files e.1 s → Later files f.1 t →
    _to_canonical e.1 s ≠ _to_canonical f.1 t

/-! ### One symbol -/

theorem _to_canonical_inj {pn s t : Str} (h : _to_canonical pn s = _to_canonical pn t) : s = t := List.append_cancel_right h

/-- What a table of collisions has. -/
theorem get?_foldl_collide (pivot_pn sym : Str) (targets : Symbols) (plan : Dict Str Str) (s : Str) :
    (targets.foldl (collide pivot_pn sym) plan).get? s =
      if s = sym ∧ ∃ f ∈ targets, f.1 ≠ pivot_pn ∧ sym ∈ f.2 then some (_to_canonical pivot_pn sym) else plan.get? s := by
  induction targets generalizing plan with
  | nil => simp
  | cons f targets ih =>
    rw [List.foldl_cons, ih, collide]
    by_cases hpn : pivot_pn = f.1
    · rw [if_pos hpn]
      exact if_congr (by simp [← hpn]) rfl rfl
    · rw [if_neg hpn]
      by_cases hsym : sym ∈ f.2
      · rw [if_pos hsym]
        by_cases hs : s = sym
        · simp [hs, hsym, Ne.symm hpn, Dict.get?_put_self]
        · simp [hs, Dict.get?_put_of_ne]
      · rw [if_neg hsym]
        exact if_congr (by simp [hsym]) rfl rfl

theorem get?_collisions (static_symbols : Symbols) (pivot_pn : Str) (pivot_tbl : List Str) (s : Str) :
    (collisions static_symbols pivot_pn pivot_tbl).get? s =
      if s ∈ pivot_tbl ∧ ∃ f ∈ static_symbols, f.1 ≠ pivot_pn ∧ s ∈ f.2 then some (_to_canonical pivot_pn s) else none := by
  have hfold : ∀ (tbl : List Str) (plan : Dict Str Str),
      (tbl.foldl (fun plan sym => static_symbols.foldl (collide pivot_pn sym) plan) plan).get? s =
        if s ∈ tbl ∧ ∃ f ∈ static_symbols, f.1 ≠ pivot_pn ∧ s ∈ f.2 then some (_to_canonical pivot_pn s) else plan.get? s := by
    intro tbl
    induction tbl with
    | nil => simp
    | cons sym tbl ih =>
      intro plan
      rw [List.foldl_cons, ih, get?_foldl_collide]
      by_cases hs : s = sym
      · subst hs
        by_cases hex : ∃ f ∈ static_symbols, f.1 ≠ pivot_pn ∧ s ∈ f.2 <;> simp [hex]
      · rw [if_neg fun h : s = sym ∧ _ => hs h.1]
        exact if_congr (by simp [hs]) rfl rfl
  exact hfold pivot_tbl []

theorem nodup_keys_collisions (static_symbols : Symbols) (pivot_pn : Str) (pivot_tbl : List Str) :
    (collisions static_symbols pivot_pn pivot_tbl).keys.Nodup := by
  have hone : ∀ (sym : Str) (targets : Symbols) (plan : Dict Str Str), plan.keys.Nodup →
      (targets.foldl (collide pivot_pn sym) plan).keys.Nodup := by
    intro sym targets
    induction targets with
    | nil => exact fun plan h => h
    | cons f targets ih =>
      intro plan h
      refine ih _ ?_
      rw [collide]
      split_ifs
      · exact h
      · exact Dict.nodup_keys_put h _ _
      · exact h
  have hall : ∀ (tbl : List Str) (plan : Dict Str Str), plan.keys.Nodup →
      (tbl.foldl (fun plan sym => static_symbols.foldl (collide pivot_pn sym) plan) plan).keys.Nodup := by
    intro tbl
    induction tbl with
    | nil => exact fun plan h => h
    | cons sym tbl ih => exact fun plan h => ih _ (hone sym _ plan h)
  exact hall pivot_tbl [] List.nodup_nil

/-! ### One file -/

/-- **The symbols of a file** are exchanged for their new names, when these are new. -/
theorem foldlM_exchange {plan : Dict Str Str} (hkeys : plan.keys.Nodup) {tbl : List Str} (htbl : tbl.Nodup)
    (hmem : ∀ e ∈ plan, e.1 ∈ tbl) (hnew : ∀ e ∈ plan, e.2 ∉ plan.keys) :
    ∃ tbl', plan.foldlM exchange tbl = .ok tbl' ∧ tbl'.Nodup ∧
      ∀ t, t ∈ tbl' ↔ (t ∈ tbl ∧ t ∉ plan.keys) ∨ ∃ e ∈ plan, e.2 = t := by
  induction plan generalizing tbl with
  | nil => exact ⟨tbl, rfl, htbl, by simp [Dict.keys]⟩
  | cons e plan ih =>
    obtain ⟨hekeys, hkeys⟩ := List.nodup_cons.mp hkeys
    obtain ⟨hetbl, hmem⟩ := List.forall_mem_cons.mp hmem
    have hnew' : ∀ f ∈ plan, f.2 ≠ e.1 ∧ f.2 ∉ Dict.keys plan := fun f hf => by
      have := hnew f (List.mem_cons_of_mem _ hf)
      rw [Dict.keys, List.map_cons, List.mem_cons, not_or] at this
      exact this
    have henew : e.2 ≠ e.1 ∧ e.2 ∉ Dict.keys plan := by
      have := hnew e List.mem_cons_self
      rw [Dict.keys, List.map_cons, List.mem_cons, not_or] at this
      exact this
    have herased : (tbl.erase e.1).Nodup := htbl.erase e.1
    have hstep : ∀ t, t ∈ (tbl.erase e.1).insert e.2 ↔ t = e.2 ∨ t ≠ e.1 ∧ t ∈ tbl := fun t => by
      rw [List.mem_insert_iff, htbl.mem_erase_iff]
    obtain ⟨tbl', hrun, hnodup, hiff⟩ := @ih hkeys ((tbl.erase e.1).insert e.2) (herased.insert)
      (fun f hf => (hstep f.1).mpr (.inr ⟨fun heq => hekeys (heq ▸ List.mem_map_of_mem hf), hmem f hf⟩))
      fun f hf => (hnew' f hf).2
    refine ⟨tbl', ?_, hnodup, fun t => ?_⟩
    · rw [List.foldlM_cons, exchange, if_pos hetbl]
      exact hrun
    · rw [hiff, hstep]
      rw [List.exists_mem_cons_iff]
      simp only [Dict.keys, List.map_cons, List.mem_cons, not_or]
      constructor
      · rintro (⟨rfl | ⟨hne, ht⟩, hk⟩ | h)
        · exact .inr (.inl rfl)
        · exact .inl ⟨ht, hne, hk⟩
        · exact .inr (.inr h)
      · rintro (⟨ht, hne, hk⟩ | rfl | h)
        · exact .inl ⟨.inr ⟨hne, ht⟩, hk⟩
        · exact .inl ⟨.inl rfl, henew.2⟩
        · exact .inr h

/-- The exchanged symbols are the renamed ones. -/
theorem exchanged_iff {plan : Dict Str Str} (hkeys : plan.keys.Nodup) {tbl : List Str} (hmem : ∀ e ∈ plan, e.1 ∈ tbl) (t : Str) :
    (t ∈ tbl ∧ t ∉ plan.keys) ∨ (∃ e ∈ plan, e.2 = t) ↔ ∃ s ∈ tbl, (plan.get? s).getD s = t := by
  constructor
  · rintro (⟨ht, hk⟩ | ⟨e, he, rfl⟩)
    · exact ⟨t, ht, by rw [Dict.get?_eq_none hk]; rfl⟩
    · exact ⟨e.1, hmem e he, by rw [Dict.get?_of_mem hkeys he]; rfl⟩
  · rintro ⟨s, hs, rfl⟩
    cases hget : plan.get? s with
    | none => exact .inl ⟨hs, fun hk => Dict.get?_ne_none.mpr hk hget⟩
    | some t => exact .inr ⟨(s, t), Dict.mem_of_get? hget, rfl⟩

/-! ### The loop over the files -/

/-- The symbols of `e` that are renamed. -/
def Collided (files : Symbols) (plan : Plan) (e : Str × List Str) : Prop :=
  ∀ s t, ((plan.get? e.1).getD []).get? s = some t ↔ s ∈ e.2 ∧ Later files e.1 s ∧ _to_canonical e.1 s = t

/-- The files of `done` are rewritten, and have the `tables`. -/
structure Rewritten (files done tables : Symbols) (plan : Plan) : Prop where
  /-- The files. -/
  keys : tables.keys = done.keys
  /-- Their plan. -/
  collided : ∀ d ∈ done, Collided files plan d
  /-- Their tables. -/
  renamed : ∀ d ∈ done, ∃ tbl, tables.get? d.1 = some tbl ∧ ∀ t, t ∈ tbl ↔ ∃ s ∈ d.2, plan.rename d.1 s = t

variable {files done tables rest symbols : Symbols} {plan : Plan} {e f : Str × List Str} {s t : Str}

theorem Collided.rename_of_later (h : Collided files plan e) (hs : s ∈ e.2) (hlater : Later files e.1 s) :
    plan.rename e.1 s = _to_canonical e.1 s := by
  rw [Plan.rename, (h s _).mpr ⟨hs, hlater, rfl⟩]
  rfl

theorem Collided.rename_of_not_later (h : Collided files plan e) (hlater : ¬ Later files e.1 s) : plan.rename e.1 s = s := by
  rw [Plan.rename]
  cases hget : ((plan.get? e.1).getD []).get? s with
  | none => rfl
  | some t => exact absurd ((h s t).mp hget).2.1 hlater

theorem Collided.rename_cases (h : Collided files plan e) (hs : s ∈ e.2) :
    Later files e.1 s ∧ plan.rename e.1 s = _to_canonical e.1 s ∨ ¬ Later files e.1 s ∧ plan.rename e.1 s = s := by
  by_cases hlater : Later files e.1 s
  · exact .inl ⟨hlater, h.rename_of_later hs hlater⟩
  · exact .inr ⟨hlater, h.rename_of_not_later hlater⟩

/-- What comes later, when each file comes once. -/
theorem later_iff (hnodup : (done ++ e :: rest).keys.Nodup) : Later (done ++ e :: rest) e.1 s ↔ ∃ f ∈ rest, s ∈ f.2 := by
  refine ⟨fun ⟨before, tbl, after, heq, hlater⟩ => ?_, fun hlater => ⟨done, e.2, rest, rfl, hlater⟩⟩
  have hsame : (e.1, tbl) = e :=
    List.inj_on_of_nodup_map hnodup (heq ▸ List.mem_append_right _ List.mem_cons_self)
      (List.mem_append_right _ List.mem_cons_self) rfl
  rw [hsame] at heq
  have hnotMem := (List.nodup_cons.mp (List.nodup_middle.mp (List.Nodup.of_map Prod.fst hnodup))).1
  rw [List.mem_append, not_or] at hnotMem
  obtain ⟨-, -, rfl⟩ := (List.append_cons_inj_of_notMem hnotMem.1 hnotMem.2).mp heq
  exact hlater

/-- Of two files that share a symbol, one comes later. -/
theorem later_or_later (he : e ∈ files) (hf : f ∈ files) (hne : e.1 ≠ f.1) (hs : s ∈ e.2) (ht : s ∈ f.2) :
    Later files e.1 s ∨ Later files f.1 s := by
  obtain ⟨before, after, rfl⟩ := List.append_of_mem he
  rcases List.mem_append.mp hf with hf | hf
  · obtain ⟨before, between, rfl⟩ := List.append_of_mem hf
    exact .inr ⟨before, f.2, between ++ e :: after, by simp, e, List.mem_append_right _ List.mem_cons_self, hs⟩
  · rcases List.mem_cons.mp hf with rfl | hf
    · exact absurd rfl hne
    · exact .inl ⟨before, e.2, after, rfl, f, hf, ht⟩

/-- **A file that is compared** finds the symbols of the files that come later, for a symbol that it shares with an
earlier file is renamed there. -/
theorem sees_iff (h : Files (done ++ e :: rest)) (hrew : Rewritten (done ++ e :: rest) done tables plan) (hs : s ∈ e.2) :
    (∃ f ∈ tables ++ e :: rest, f.1 ≠ e.1 ∧ s ∈ f.2) ↔ Later (done ++ e :: rest) e.1 s := by
  rw [later_iff h.nodup]
  have hkeys := List.nodup_cons.mp (List.nodup_middle.mp (by simpa [Dict.keys] using h.nodup))
  have he : e ∈ done ++ e :: rest := List.mem_append_right _ List.mem_cons_self
  constructor
  · rintro ⟨f, hf, hne, hsf⟩
    rcases List.mem_append.mp hf with hf | hf
    · exfalso
      have hfkeys : f.1 ∈ done.keys := hrew.keys ▸ List.mem_map_of_mem hf
      obtain ⟨d, hd, hdf⟩ := List.mem_map.mp hfkeys
      obtain ⟨tbl, hget, htbl⟩ := hrew.renamed d hd
      have htables : tables.keys.Nodup := hrew.keys ▸ (List.nodup_append.mp hkeys.2).1
      rw [hdf, Dict.get?_of_mem htables hf] at hget
      obtain rfl := Option.some.inj hget
      obtain ⟨t, ht, hren⟩ := (htbl s).mp hsf
      have hdmem : d ∈ done ++ e :: rest := List.mem_append_left _ hd
      rcases (hrew.collided d hd).rename_cases ht with ⟨hlater, hcan⟩ | ⟨hlater, hsame⟩
      · exact h.original d hdmem t ht e he s hs (hren.symm.trans hcan)
      · obtain ⟨before, after, rfl⟩ := List.append_of_mem hd
        refine hlater ⟨before, d.2, after ++ e :: rest, by simp, e, List.mem_append_right _ List.mem_cons_self, ?_⟩
        exact hsame.symm.trans hren ▸ hs
    · rcases List.mem_cons.mp hf with rfl | hf
      · exact absurd rfl hne
      · exact ⟨f, hf, hsf⟩
  · rintro ⟨f, hf, hsf⟩
    refine ⟨f, List.mem_append_right _ (List.mem_cons_of_mem _ hf), fun heq => hkeys.1 ?_, hsf⟩
    exact List.mem_append_right _ (heq ▸ List.mem_map_of_mem hf)

/-- **One more file** is rewritten. -/
theorem rewrite_file_spec (h : Files (done ++ e :: rest)) (hrew : Rewritten (done ++ e :: rest) done tables plan) :
    ∃ tbl plan', rewrite_file (tables ++ e :: rest, plan) e.1 = .ok (tables ++ (e.1, tbl) :: rest, plan') ∧
      Rewritten (done ++ e :: rest) (done ++ [e]) (tables ++ [(e.1, tbl)]) plan' := by
  have he : e ∈ done ++ e :: rest := List.mem_append_right _ List.mem_cons_self
  have hnodup : (done.keys ++ e.1 :: Dict.keys rest).Nodup := by simpa [Dict.keys] using h.nodup
  have hdone : e.1 ∉ done.keys := fun hmem => (List.nodup_append.mp hnodup).2.2 _ hmem _ List.mem_cons_self rfl
  have htables : e.1 ∉ tables.keys := hrew.keys ▸ hdone
  have hget : (tables ++ e :: rest).get? e.1 = some e.2 := Dict.get?_append_cons htables e.2 rest
  have hcol : ∀ s t, (collisions (tables ++ e :: rest) e.1 e.2).get? s = some t ↔
      s ∈ e.2 ∧ Later (done ++ e :: rest) e.1 s ∧ _to_canonical e.1 s = t := fun s t => by
    rw [get?_collisions]
    by_cases hs : s ∈ e.2
    · rw [← sees_iff h hrew hs]
      by_cases hex : ∃ f ∈ tables ++ e :: rest, f.1 ≠ e.1 ∧ s ∈ f.2
      · rw [if_pos ⟨hs, hex⟩, Option.some.injEq]
        exact ⟨fun heq => ⟨hs, hex, heq⟩, fun h => h.2.2⟩
      · rw [if_neg fun h : s ∈ e.2 ∧ _ => hex h.2]
        exact ⟨fun heq => absurd heq.symm (Option.some_ne_none t), fun h => absurd h.2.1 hex⟩
    · rw [if_neg fun h : s ∈ e.2 ∧ _ => hs h.1]
      exact ⟨fun heq => absurd heq.symm (Option.some_ne_none t), fun h => absurd h.1 hs⟩
  have hkeys := nodup_keys_collisions (tables ++ e :: rest) e.1 e.2
  have hitem : ∀ c ∈ collisions (tables ++ e :: rest) e.1 e.2, c.1 ∈ e.2 ∧ _to_canonical e.1 c.1 = c.2 := fun c hc =>
    have := (hcol c.1 c.2).mp (Dict.get?_of_mem hkeys hc)
    ⟨this.1, this.2.2⟩
  have hmem : ∀ c ∈ collisions (tables ++ e :: rest) e.1 e.2, c.1 ∈ e.2 := fun c hc => (hitem c hc).1
  obtain ⟨tbl, hrun, -, htbl⟩ := foldlM_exchange hkeys (h.sets e he) hmem fun c hc hk => by
    obtain ⟨c', hc', hck⟩ := List.mem_map.mp hk
    exact h.original e he c.1 (hitem c hc).1 e he c'.1 (hmem c' hc') (hck.trans (hitem c hc).2.symm)
  refine ⟨tbl, plan.put e.1 (collisions (tables ++ e :: rest) e.1 e.2), ?_, ?_, ?_, ?_⟩
  · rw [rewrite_file, hget]
    simp only [Option.getD_some, hrun, ok_bind]
    rw [Dict.put_append_cons htables]
    rfl
  · simpa [Dict.keys] using hrew.keys
  · intro d hd
    rcases List.mem_append.mp hd with hd | hd
    · have hne : d.1 ≠ e.1 := fun heq => hdone (heq ▸ List.mem_map_of_mem hd)
      intro s t
      rw [Dict.get?_put_of_ne _ _ hne]
      exact hrew.collided d hd s t
    · obtain rfl := List.mem_singleton.mp hd
      intro s t
      rw [Dict.get?_put_self]
      exact hcol s t
  · intro d hd
    rcases List.mem_append.mp hd with hd | hd
    · have hne : d.1 ≠ e.1 := fun heq => hdone (heq ▸ List.mem_map_of_mem hd)
      obtain ⟨tbl', hget', htbl'⟩ := hrew.renamed d hd
      refine ⟨tbl', Dict.get?_of_mem (e := (d.1, tbl')) ?_ (List.mem_append_left _ (Dict.mem_of_get? hget')), ?_⟩
      · rw [Dict.keys, List.map_append, ← Dict.keys, hrew.keys]
        exact hnodup.sublist (List.Sublist.append_left (by simp) _)
      · intro t
        simp only [htbl', Plan.rename, Dict.get?_put_of_ne _ _ hne]
    · obtain rfl := List.mem_singleton.mp hd
      refine ⟨tbl, Dict.get?_append_cons htables tbl [], fun t => ?_⟩
      rw [htbl t, exchanged_iff hkeys hmem]
      simp only [Plan.rename, Dict.get?_put_self, Option.getD_some]

/-- **The loop**: every file is rewritten. -/
theorem rewrite_files_spec (h : Files (done ++ rest)) (hrew : Rewritten (done ++ rest) done tables plan) :
    ∃ symbols plan', rest.keys.foldlM rewrite_file (tables ++ rest, plan) = .ok (symbols, plan') ∧
      Rewritten (done ++ rest) (done ++ rest) symbols plan' := by
  induction rest generalizing done tables plan with
  | nil => exact ⟨tables, plan, by simp [Dict.keys]; rfl, by simpa using hrew⟩
  | cons e rest ih =>
    obtain ⟨tbl, plan', hstep, hrew'⟩ := rewrite_file_spec h hrew
    rw [List.append_cons done] at h hrew' ⊢
    obtain ⟨symbols, plan'', hrun, hall⟩ := ih h hrew'
    rw [← List.append_cons] at hrun
    refine ⟨symbols, plan'', ?_, hall⟩
    rw [Dict.keys, List.map_cons, List.foldlM_cons, hstep, ok_bind]
    exact hrun

/-! ### Whether the collisions are resolved -/

/-- **The collisions of static symbols are resolved** exactly when the new names of different files are different. -/
theorem resolves_iff {files : Symbols} (h : Files files) {target : Str} (htarget : FS_FORCE_REWRITE.get? target = none) :
    ∃ symbols plan, prepare_rewritting target files = .ok (symbols, plan) ∧
      (Resolves files symbols plan ↔ NewNamesDiffer files) := by
  obtain ⟨symbols, plan, hrun, hall⟩ := @rewrite_files_spec [] [] files [] h
    ⟨rfl, fun d hd => absurd hd List.not_mem_nil, fun d hd => absurd hd List.not_mem_nil⟩
  refine ⟨symbols, plan, ?_, fun hres => ?_, fun hdiff => ⟨?_, ?_, ?_, ?_⟩⟩
  · rw [prepare_rewritting]
    rw [List.nil_append] at hrun
    rw [hrun, htarget]
    rfl
  · intro e he f hf hne s hs t ht hls hlt
    have := hres.disjoint e he f hf hne s hs t ht
    rwa [(hall.collided e he).rename_of_later hs hls, (hall.collided f hf).rename_of_later ht hlt] at this
  · intro e he f hf hne s hs t ht heq
    rcases (hall.collided e he).rename_cases hs with ⟨hls, hrs⟩ | ⟨hls, hrs⟩ <;>
      rcases (hall.collided f hf).rename_cases ht with ⟨hlt, hrt⟩ | ⟨hlt, hrt⟩ <;> rw [hrs, hrt] at heq
    · exact hdiff e he f hf hne s hs t ht hls hlt heq
    · exact h.original e he s hs f hf t ht heq.symm
    · exact h.original f hf t ht e he s hs heq
    · subst heq
      exact (later_or_later he hf hne hs ht).elim hls hlt
  · intro e he s hget
    obtain ⟨t, ht⟩ := Option.ne_none_iff_exists'.mp hget
    obtain ⟨hs, ⟨before, tbl, after, rfl, f, hf, hsf⟩, -⟩ := (hall.collided e he s t).mp ht
    refine ⟨hs, f, List.mem_append_right _ (List.mem_cons_of_mem _ hf), fun heq => ?_, hsf⟩
    have := (List.nodup_cons.mp (List.nodup_middle.mp (by simpa [Dict.keys] using h.nodup))).1
    exact this (List.mem_append_right _ (heq ▸ List.mem_map_of_mem hf))
  · intro e he s hs t ht heq
    rcases (hall.collided e he).rename_cases hs with ⟨hls, hrs⟩ | ⟨hls, hrs⟩ <;>
      rcases (hall.collided e he).rename_cases ht with ⟨hlt, hrt⟩ | ⟨hlt, hrt⟩ <;> rw [hrs, hrt] at heq
    · exact _to_canonical_inj heq
    · exact absurd heq.symm (h.original e he s hs e he t ht)
    · exact absurd heq (h.original e he t ht e he s hs)
    · exact heq
  · exact hall.renamed

/-- Two files of three share a symbol with the next. -/
theorem resolves_iff_between :
    let files : Symbols := [("a/x.c".toList, [['f']]), ("a/y.c".toList, [['f'], ['g']]), ("b/x.c".toList, [['g']])]
    ∃ symbols plan, prepare_rewritting "ext4".toList files = .ok (symbols, plan) ∧ Resolves files symbols plan := by
  intro files
  obtain ⟨symbols, plan, hrun, hiff⟩ := @resolves_iff files ⟨by decide, by decide, by decide⟩ "ext4".toList (by decide)
  have hdiff : ∀ e ∈ files, ∀ f ∈ files, e.1 ≠ f.1 → ∀ s ∈ e.2, ∀ t ∈ f.2, _to_canonical e.1 s ≠ _to_canonical f.1 t := by
    decide
  exact ⟨symbols, plan, hrun, hiff.mpr fun e he f hf hne s hs t ht _ _ => hdiff e he f hf hne s hs t ht⟩

/-- Three files of one name in different directories share a symbol: two of them have it under the same new name. -/
theorem not_resolves :
    ¬ ∀ (files : Symbols) (target : Str), Files files → FS_FORCE_REWRITE.get? target = none →
      ∃ symbols plan, prepare_rewritting target files = .ok (symbols, plan) ∧ Resolves files symbols plan := by
  intro h
  let files : Symbols := [("a/x.c".toList, [['f']]), ("b/x.c".toList, [['f']]), ("c/x.c".toList, [['f']])]
  obtain ⟨symbols, plan, hrun, hres⟩ := h files "ext4".toList ⟨by decide, by decide, by decide⟩ (by decide)
  have hsame : (prepare_rewritting "ext4".toList files).map (fun r => r.2.rename "a/x.c".toList ['f']) =
      (prepare_rewritting "ext4".toList files).map (fun r => r.2.rename "b/x.c".toList ['f']) := by decide
  rw [hrun] at hsame
  have ha : ("a/x.c".toList, [['f']]) ∈ files := List.mem_cons_self
  have hb : ("b/x.c".toList, [['f']]) ∈ files := List.mem_cons_of_mem _ List.mem_cons_self
  exact hres.disjoint _ ha _ hb (by decide) ['f'] List.mem_cons_self ['f'] List.mem_cons_self (Except.ok.inj hsame)

end Merger

end SEDiff.Juxta
