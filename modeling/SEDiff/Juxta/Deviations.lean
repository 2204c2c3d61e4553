import SEDiff.Juxta.PathBin
import SEDiff.Juxta.SymbolTable
import SEDiff.Juxta.VectorOver

/-!
# Deviations of calls and stores

`BaseChecker.check` of `checker.py` with the vectors of `ckcall.py` and `ckstore.py`. The calls of a function, or the left
sides of its stores, become numbers of a symbol table, and each number a range of the function's vector. What a vector
lacks of the average is reported under the names of the symbols.

## What is proved

* `build_vector_spec` — the ranges of all vectors are single numbers of the table.
* `SymbolChecker.check_spec` — so are the ranges that the vectors are found to lack, which is one result for each function.
* `deviations_named` — so every range that is reported has a name, and the assertions of `get_missing_calls` and
  `get_missing_stores` hold.
-/

namespace SEDiff.Juxta

open Foundation

/-! ### The vectors -/

/-- `RangeSetVector(dim, rs)`. -/
def RangeSetVector.init (dim : String) (rs : List ℕ) : RangeSetVector := Dict.put [] dim rs

/-- A `CallVector` or a `StoreVector`; the symbol table is the checker's. -/
structure SymbolVector where
  /-- The function. -/
  func : Str
  /-- The return value. -/
  rtn : Option Str
  /-- `["0", "3", ...]`. -/
  sym_ids : List Str
  /-- What both inherit from `RangeSetVector`. -/
  rsv : RangeSetVector

/-- `__init__` of both, but for the dimension. The numbers of symbols are small, and are held exactly. -/
def SymbolVector.init (dim : String) (h : Store Range) (func : Str) (rtn : Option Str) (sym_ids : List Str) :
    Except Fault (Store Range × SymbolVector) := do
  let num_sym := max sym_ids.length 1
  let (h, rs) ← Rsf.build Rsf.written h sym_ids (100 * num_sym)
  return (h, ⟨func, rtn, sym_ids, .init dim rs⟩)

/-- What is particular to one checker. -/
structure SymbolChecker where
  /-- What a path adds to `symbol_set`. -/
  symbols : RetPath → List Str
  /-- The symbol that is looked up, unless it is left out. -/
  filter : Str → Option Str
  /-- `__init__` of its vectors. -/
  vector : Store Range → Str → Option Str → List Str → Except Fault (Store Range × SymbolVector)

/-- `CallVector.__init__`. -/
def CallVector.init : Store Range → Str → Option Str → List Str → Except Fault (Store Range × SymbolVector) :=
  SymbolVector.init "@LOG_CALL"

/-- `StoreVector.__init__`. -/
def StoreVector.init : Store Range → Str → Option Str → List Str → Except Fault (Store Range × SymbolVector) :=
  SymbolVector.init "@LOG_STORE"

/-- `CallChecker`. -/
def CallChecker.checker : SymbolChecker := ⟨CallChecker.symbols, CallChecker.filter, CallVector.init⟩

/-- `StoreChecker`. -/
def StoreChecker.checker : SymbolChecker := ⟨StoreChecker.symbols, StoreChecker.filter, StoreVector.init⟩

/-- What `_build_vector` has built so far. -/
structure Building where
  /-- The ranges. -/
  heap : Store Range
  /-- The symbols. -/
  symbol_tbl : SymbolTable
  /-- The vectors. -/
  vectors : List SymbolVector

section Check

variable (ck : SymbolChecker) (order : SetOrder) (pathbin : Str → Option (FuncDic RetPath)) (rtn : Option Str)

/-- `_build_vector` for one function; `pathbin` answers `None` for a function that was not parsed. -/
def build_vector1 (b : Building) (func : Str) : Except Fault Building :=
  match pathbin func with
  | none => .error (.raised .attributeError)
  | some rtn_dic => do
    let symbol_set := ((rtn_dic.get? rtn).getD []).flatMap ck.symbols
    let (symbol_tbl, sym_id_set) := sym_ids order ck.filter b.symbol_tbl symbol_set
    let (h, cv) ← ck.vector b.heap func rtn sym_id_set
    return ⟨h, symbol_tbl, b.vectors ++ [cv]⟩

/-- `_build_vector`. -/
def build_vector (h : Store Range) (symbol_tbl : SymbolTable) (funcs : List Str) : Except Fault Building :=
  funcs.foldlM (build_vector1 ck order pathbin rtn) ⟨h, symbol_tbl, []⟩

/-- `[distance, rv]`, with the differences of `rv`. -/
structure Measured where
  /-- The distance is its square root. -/
  dsum : ℚ
  /-- The vector. -/
  rv : SymbolVector
  /-- The `ldiff` and `rdiff` of its sets. -/
  diffs : Dict String (RangeSet.InPlace.RefDiff × RangeSet.InPlace.RefDiff)

/-- The loop of `check`, which measures each vector. -/
def measure (avg : RangeSetVector) : Store Range → List SymbolVector → Except PyErr (Store Range × List Measured)
  | h, [] => .ok (h, [])
  | h, rv :: rvs => do
    let c ← RangeSetVector.euclidean_distance (rv.rsv.get_dimensions avg) h rv.rsv avg
    let (h, results) ← measure avg c.heap rvs
    return (h, ⟨c.dsum, { rv with rsv := c.rsv }, c.diffs⟩ :: results)

/-- A checker after `check`. -/
structure Checked where
  /-- The ranges. -/
  heap : Store Range
  /-- The symbols. -/
  symbol_tbl : SymbolTable
  /-- The average. -/
  avg : RangeSetVector
  /-- The largest distance comes first; the order of vectors at the same distance is not specified. -/
  results : List Measured

/-- `BaseChecker.check`. -/
def SymbolChecker.check (h : Store Range) (symbol_tbl : SymbolTable) (funcs : List Str) : Except Fault Checked := do
  let b ← build_vector ck order pathbin rtn h symbol_tbl funcs
  let (h, avg) ← Rsf.lift (RangeSetVector.calc_average_rsv b.heap (b.vectors.map SymbolVector.rsv))
  let (h, results) ← Rsf.lift (measure avg h b.vectors)
  return ⟨h, b.symbol_tbl, avg, results.mergeSort fun r r' => r'.dsum ≤ r.dsum⟩

/-- `CallChecker.check`. -/
def CallChecker.check : Store Range → SymbolTable → List Str → Except Fault Checked :=
  CallChecker.checker.check order pathbin rtn

/-- `StoreChecker.check`. -/
def StoreChecker.check : Store Range → SymbolTable → List Str → Except Fault Checked :=
  StoreChecker.checker.check order pathbin rtn

end Check

/-! ### What is missing -/

/-- `get_diffs`. -/
def Measured.get_diffs (r : Measured) (dim : String) :
    Except PyErr (RangeSet.InPlace.RefDiff × RangeSet.InPlace.RefDiff) :=
  match r.rv.rsv.get? dim with
  | none => .error .keyError
  | some _ => .ok ((r.diffs.get? dim).getD ([], []))

section Missing

variable {K : Type*} [RatCast K] [LE K] [DecidableLE K]

/-- The loop over `avg_diff`: the impacts and the symbols that are shown. -/
def missing_loop (h : Store Range) (symbol_tbl : SymbolTable) (threshold : K) :
    ℚ → RangeSet.InPlace.RefDiff → Except PyErr (List (ℚ × Str))
  | _, [] => .ok []
  | total_impact, (impact, rs) :: avg_diff => do
    pyAssert ((h.obj rs).start = (h.obj rs).stop)
    match symbol_tbl.get_symbol_string (h.obj rs).start with
    | none => .error .assertionError
    | some symbol =>
      if threshold ≤ ((total_impact + impact : ℚ) : K) then return [(impact, symbol)]
      else
        let shown ← missing_loop h symbol_tbl threshold (total_impact + impact) avg_diff
        return (impact, symbol) :: shown

/-- `get_missing_calls` and `get_missing_stores`, but for the dimension; nothing is shown when `avg_diff` is empty. -/
def Measured.get_missing (r : Measured) (dim : String) (h : Store Range) (symbol_tbl : SymbolTable) (threshold : K) :
    Except PyErr (List (ℚ × Str)) := do
  let (_, avg_diff) ← r.get_diffs dim
  missing_loop h symbol_tbl threshold 0 avg_diff

/-- `get_missing_calls`. -/
def CallVector.get_missing_calls (r : Measured) : Store Range → SymbolTable → K → Except PyErr (List (ℚ × Str)) :=
  r.get_missing "@LOG_CALL"

/-- `get_missing_stores`. -/
def StoreVector.get_missing_stores (r : Measured) : Store Range → SymbolTable → K → Except PyErr (List (ℚ × Str)) :=
  r.get_missing "@LOG_STORE"

end Missing

/-! ### Single numbers of the table -/

/-- A single integer that is the number of a symbol. -/
def IsSymbol (t : SymbolTable) (p : ℤ × ℤ) : Prop := p.1 = p.2 ∧ ∃ symbol, t.symbol_tbl.get? symbol = some p.1

theorem IsSymbol.mono {t t' : SymbolTable} (h : t.Extends t') {p : ℤ × ℤ} (hp : IsSymbol t p) : IsSymbol t' p := by
  obtain ⟨heq, symbol, hget⟩ := hp
  exact ⟨heq, symbol, h _ _ hget⟩

theorem equalOrDisjoint_isSymbol (t : SymbolTable) : RangeSet.EqualOrDisjoint (IsSymbol t) := by
  intro p q hp hq
  have hp := hp.1
  have hq := hq.1
  rcases lt_trichotomy p.1 q.1 with hlt | heq | hlt
  · exact .inr (.inl (by omega))
  · exact .inl (Prod.ext heq (by omega))
  · exact .inr (.inr (by omega))

/-- The texts of numbers list these numbers only. -/
theorem isSymbol_of_listed {t : SymbolTable} {ids : List Str} (hids : ∀ s ∈ ids, IsId t s) :
    (∀ s ∈ ids, Rsf.RangeText Rsf.written s) ∧ ∀ r ∈ Rsf.allRanges Rsf.written ids, IsSymbol t r.ends := by
  have hlisted : ∀ s ∈ ids, ∃ r : Range, Rsf.listed Rsf.written s = .ok [r] ∧ IsSymbol t r.ends := by
    intro s hs
    obtain ⟨sym_id, symbol, rfl, hget⟩ := hids s hs
    exact ⟨_, Rsf.listed_number (written_intCast sym_id) (Str.strip_of_trimmed (Str.trimmed_ofInt sym_id)), rfl, symbol, hget⟩
  refine ⟨fun s hs => ?_, fun r hr => ?_⟩
  · obtain ⟨r, hr, -⟩ := hlisted s hs
    exact ⟨[r], hr⟩
  · obtain ⟨s, hs, hr⟩ := List.mem_flatMap.mp hr
    obtain ⟨r', hr', hsym⟩ := hlisted s hs
    rw [Rsf.rangesOf, hr'] at hr
    rw [List.mem_singleton.mp hr]
    exact hsym

open RangeSetVector

/-! ### Building the vectors -/

/-- One vector of the checker over the numbers of the table. -/
structure Numbered (dim : String) (t : SymbolTable) (h : Store Range) (v : SymbolVector) : Prop where
  /-- All ranges are single numbers. -/
  ranges : VecOver (IsSymbol t) h v.rsv
  /-- There is a set in the dimension of the checker. -/
  dim : v.rsv.get? dim ≠ none

theorem Numbered.mono {dim : String} {t t' : SymbolTable} (ht : t.Extends t') {h h' : Store Range} (hag : h.Agrees h' fun _ => False)
    {v : SymbolVector} (hv : Numbered dim t h v) : Numbered dim t' h' v :=
  ⟨(hv.ranges.congr hag).mono fun _ hp => hp.mono ht, hv.dim⟩

/-- **The constructor**, on texts of numbers. -/
theorem SymbolVector.init_spec (dim : String) {t : SymbolTable} {h : Store Range} (hwf : Range.AllWF h) (func : Str)
    (rtn : Option Str) {sym_ids : List Str} (hids : ∀ s ∈ sym_ids, IsId t s) :
    ∃ h' v, SymbolVector.init dim h func rtn sym_ids = .ok (h', v) ∧ h.Agrees h' (fun _ => False) ∧ Range.AllWF h' ∧
      Numbered dim t h' v ∧ v.func = func := by
  have harea : (0 : ℚ) < 100 * (max sym_ids.length 1 : ℕ) := by positivity
  have hbuild : ∃ h' rs, Rsf.build Rsf.written h sym_ids (100 * (max sym_ids.length 1 : ℕ)) = .ok (h', rs) ∧
      h.Agrees h' (fun _ => False) ∧ Range.AllWF h' ∧ RangeSet.Over (IsSymbol t) h' rs := by
    by_cases hne : sym_ids = []
    · rw [hne]
      exact ⟨h, [], Rsf.build_nil h (by positivity), .refl _ _, hwf, ⟨by simp, List.nodup_nil, .nil⟩, by simp⟩
    · obtain ⟨htexts, hends⟩ := isSymbol_of_listed hids
      obtain ⟨h', rs, hrun, hg, ho, -⟩ :=
        Rsf.build_over (equalOrDisjoint_isSymbol t) hwf hne htexts hends harea
      exact ⟨h', rs, hrun, hg.agrees.mono fun o hm => absurd hm (List.not_mem_nil), hg.wf, ho⟩
  obtain ⟨h', rs, hrun, hag, hwf', ho⟩ := hbuild
  refine ⟨h', ⟨func, rtn, sym_ids, .init dim rs⟩, ?_, hag, hwf', ⟨(vecOver_nil _ _).put dim ho, ?_⟩, rfl⟩
  · rw [SymbolVector.init]
    simp only [hrun, ok_bind]
    rfl
  · simp [RangeSetVector.init, Dict.get?_put_self]

/-- What `_build_vector` keeps. -/
structure Builds (dim : String) (b : Building) : Prop where
  /-- Every range is well formed. -/
  wf : Range.AllWF b.heap
  /-- The table hands out new numbers. -/
  sound : b.symbol_tbl.Sound
  /-- The vectors are over numbers of the table. -/
  ranged : ∀ v ∈ b.vectors, Numbered dim b.symbol_tbl b.heap v

section Check

variable {ck : SymbolChecker} {dim : String} (hck : ck.vector = SymbolVector.init dim) (order : SetOrder)
  {pathbin : Str → Option (FuncDic RetPath)} (rtn : Option Str)

include hck

/-- One function: the table only grows, and the other vectors stay as they are. -/
theorem build_vector1_spec {b : Building} (hb : Builds dim b) {func : Str} (hfunc : pathbin func ≠ none) :
    ∃ b', build_vector1 ck order pathbin rtn b func = .ok b' ∧ Builds dim b' ∧
      b'.vectors.map SymbolVector.func = b.vectors.map SymbolVector.func ++ [func] := by
  obtain ⟨rtn_dic, hdic⟩ := Option.ne_none_iff_exists'.mp hfunc
  set symbol_set := ((rtn_dic.get? rtn).getD []).flatMap ck.symbols with hset
  obtain ⟨hsound, hext, hids⟩ := sym_ids_spec order ck.filter hb.sound symbol_set
  obtain ⟨h', v, hrun, hag, hwf', hv, hname⟩ := SymbolVector.init_spec dim hb.wf func rtn hids
  refine ⟨⟨h', (sym_ids order ck.filter b.symbol_tbl symbol_set).1, b.vectors ++ [v]⟩, ?_, ⟨hwf', hsound, fun u hu => ?_⟩, ?_⟩
  · rw [build_vector1, hdic]
    simp only [← hset, hck, hrun, ok_bind]
    rfl
  · rcases List.mem_append.mp hu with hu | hu
    · exact (hb.ranged u hu).mono hext hag
    · rw [List.mem_singleton.mp hu]
      exact hv
  · rw [List.map_append, List.map_singleton, hname]

/-- **The vectors** that a checker builds, one for each function. -/
theorem build_vector_spec {h : Store Range} (hwf : Range.AllWF h) {t : SymbolTable} (ht : t.Sound) {funcs : List Str}
    (hfuncs : ∀ func ∈ funcs, pathbin func ≠ none) :
    ∃ b, build_vector ck order pathbin rtn h t funcs = .ok b ∧ Builds dim b ∧ b.vectors.map SymbolVector.func = funcs := by
  have hloop : ∀ (funcs : List Str) (b : Building), (∀ func ∈ funcs, pathbin func ≠ none) → Builds dim b →
      ∃ b', funcs.foldlM (build_vector1 ck order pathbin rtn) b = .ok b' ∧ Builds dim b' ∧
        b'.vectors.map SymbolVector.func = b.vectors.map SymbolVector.func ++ funcs := by
    intro funcs
    induction funcs with
    | nil => exact fun b _ hb => ⟨b, rfl, hb, by simp⟩
    | cons func funcs ih =>
      intro b hfuncs hb
      obtain ⟨hfunc, hfuncs⟩ := List.forall_mem_cons.mp hfuncs
      obtain ⟨b₁, hrun₁, hb₁, hnames₁⟩ := build_vector1_spec hck order rtn hb hfunc
      obtain ⟨b', hrun, hb', hnames⟩ := ih b₁ hfuncs hb₁
      refine ⟨b', ?_, hb', ?_⟩
      · rw [List.foldlM_cons, hrun₁]
        exact hrun
      · rw [hnames, hnames₁, List.append_assoc, List.singleton_append]
  exact hloop funcs ⟨h, t, []⟩ hfuncs ⟨hwf, ht, by simp⟩

end Check

/-! ### What the vectors lack -/

/-- **The ranges** that a vector lacks of the average are single numbers of the table. -/
def Lacking (dim : String) (t : SymbolTable) (h : Store Range) (r : Measured) : Prop :=
  ∃ myself_diff avg_diff, r.get_diffs dim = .ok (myself_diff, avg_diff) ∧
    ∀ d ∈ avg_diff, d.2 < h.next ∧ IsSymbol t (h.obj d.2).ends

theorem Lacking.congr {dim : String} {t : SymbolTable} {h h' : Store Range} {r : Measured} (hr : Lacking dim t h r)
    (hag : h.Agrees h' fun _ => False) : Lacking dim t h' r := by
  obtain ⟨myself_diff, avg_diff, hget, hall⟩ := hr
  refine ⟨myself_diff, avg_diff, hget, fun d hd => ⟨(hall d hd).1.trans_le hag.next_le, ?_⟩⟩
  rw [hag.obj_eq d.2 (hall d hd).1 id]
  exact (hall d hd).2

/-- **The loop** over the vectors changes no range of them, nor of the average. -/
theorem measure_spec {dim : String} {t : SymbolTable} {avg : RangeSetVector} {h : Store Range}
    (havg : VecOver (IsSymbol t) h avg) (havgwf : VecSane h avg) {rvs : List SymbolVector}
    (hrvs : ∀ v ∈ rvs, Numbered dim t h v) (hrvswf : ∀ v ∈ rvs, VecSane h v.rsv) :
    ∃ h' results, measure avg h rvs = .ok (h', results) ∧ h.Agrees h' (fun _ => False) ∧
      (∀ r ∈ results, Lacking dim t h' r) ∧ results.map (fun r => r.rv.func) = rvs.map SymbolVector.func := by
  induction rvs generalizing h with
  | nil => exact ⟨h, [], rfl, .refl _ _, by simp, rfl⟩
  | cons rv rvs ih =>
    obtain ⟨hrv, hrvs⟩ := List.forall_mem_cons.mp hrvs
    obtain ⟨hrvwf, hrvswf⟩ := List.forall_mem_cons.mp hrvswf
    obtain ⟨c, hrun₁, hag₁, hrec, hdims⟩ :=
      distance_over (fun _ hp => hp.1) hrv.ranges hrvwf havg havgwf (rv.rsv.get_dimensions avg)
    have hdim : dim ∈ rv.rsv.get_dimensions avg :=
      List.mem_dedup.mpr (List.mem_append_left _ (Dict.get?_ne_none.mp hrv.dim))
    obtain ⟨hdiffs, hset⟩ := hdims dim hdim
    obtain ⟨⟨myself_diff, avg_diff⟩, hdiffs⟩ := Option.ne_none_iff_exists'.mp hdiffs
    obtain ⟨rs, hset⟩ := Option.ne_none_iff_exists'.mp hset
    obtain ⟨h', results, hrun, hag, hall, hnames⟩ := ih (havg.congr hag₁) (havgwf.congr havg hag₁)
      (fun v hv => (hrvs v hv).mono (.refl t) hag₁) fun v hv => (hrvswf v hv).congr (hrvs v hv).ranges hag₁
    refine ⟨h', ⟨c.dsum, { rv with rsv := c.rsv }, c.diffs⟩ :: results, ?_, hag₁.trans hag fun _ _ e => e, ?_, ?_⟩
    · rw [measure, hrun₁]
      simp only [ok_bind, hrun]
      rfl
    · refine List.forall_mem_cons.mpr ⟨Lacking.congr ⟨myself_diff, avg_diff, ?_, fun d hd => ?_⟩ hag, hall⟩
      · simp only [Measured.get_diffs, hset, hdiffs, Option.getD_some]
      · exact ⟨hrec.live dim _ _ hdiffs d hd, hrec.ends dim _ _ hdiffs d hd⟩
    · simp only [List.map_cons, hnames]

/-- What `check` leaves behind: a table with inverse dictionaries, and one result for each function. -/
structure Reports (dim : String) (funcs : List Str) (c : Checked) : Prop where
  /-- The table hands out new numbers. -/
  sound : c.symbol_tbl.Sound
  /-- Each result lacks symbols of the table only. -/
  lacking : ∀ r ∈ c.results, Lacking dim c.symbol_tbl c.heap r
  /-- The functions are those that were checked. -/
  funcs_perm : (c.results.map fun r => r.rv.func).Perm funcs

/-- **`check`** returns, whatever the calls and the stores of the functions are. -/
theorem SymbolChecker.check_spec {ck : SymbolChecker} {dim : String} (hck : ck.vector = SymbolVector.init dim)
    (order : SetOrder) {pathbin : Str → Option (FuncDic RetPath)} (rtn : Option Str) {h : Store Range}
    (hwf : Range.AllWF h) {t : SymbolTable} (ht : t.Sound) {funcs : List Str} (hne : funcs ≠ [])
    (hfuncs : ∀ func ∈ funcs, pathbin func ≠ none) :
    ∃ c, ck.check order pathbin rtn h t funcs = .ok c ∧ Reports dim funcs c := by
  obtain ⟨b, hbuild, hb, hnames⟩ := build_vector_spec hck order rtn hwf ht hfuncs
  have hne' : b.vectors.map SymbolVector.rsv ≠ [] := fun e => by
    rw [List.map_eq_nil_iff.mp e, List.map_nil] at hnames
    exact hne hnames.symm
  have hover : ∀ v ∈ b.vectors.map SymbolVector.rsv, VecOver (IsSymbol b.symbol_tbl) b.heap v := by
    intro v hv
    obtain ⟨u, hu, rfl⟩ := List.mem_map.mp hv
    exact (hb.ranged u hu).ranges
  obtain ⟨h₁, avg, havg, hwf₁, hoavg, hover₁⟩ :=
    calc_average_over (equalOrDisjoint_isSymbol b.symbol_tbl) hb.wf hne' hover
  have hranged₁ : ∀ v ∈ b.vectors, Numbered dim b.symbol_tbl h₁ v := fun v hv =>
    ⟨hover₁ v.rsv (List.mem_map_of_mem hv), (hb.ranged v hv).dim⟩
  obtain ⟨h₂, results, hmeasure, -, hall, hfuncs'⟩ := measure_spec hoavg (hoavg.vecSane hwf₁) hranged₁
    fun v hv => (hranged₁ v hv).ranges.vecSane hwf₁
  refine ⟨⟨h₂, b.symbol_tbl, avg, results.mergeSort fun r r' => r'.dsum ≤ r.dsum⟩, ?_, hb.sound, fun r hr => ?_, ?_⟩
  · rw [SymbolChecker.check, hbuild]
    simp only [ok_bind, havg, Rsf.lift, hmeasure]
    rfl
  · exact hall r (List.mem_mergeSort.mp hr)
  · rw [← hnames, ← hfuncs']
    exact (List.mergeSort_perm _ _).map _

/-! ### What is reported -/

section Missing

variable {K : Type*} [RatCast K] [LE K] [DecidableLE K]

/-- The loop finds a name for each single number of the table. -/
theorem missing_loop_spec {h : Store Range} {t t' : SymbolTable} (ht : t'.Sound) (hext : t.Extends t') (threshold : K)
    {avg_diff : RangeSet.InPlace.RefDiff} (hall : ∀ d ∈ avg_diff, IsSymbol t (h.obj d.2).ends) (total_impact : ℚ) :
    ∃ shown, missing_loop h t' threshold total_impact avg_diff = .ok shown := by
  induction avg_diff generalizing total_impact with
  | nil => exact ⟨[], rfl⟩
  | cons d avg_diff ih =>
    obtain ⟨⟨hends, symbol, hget⟩, hall⟩ := List.forall_mem_cons.mp hall
    have hends : (h.obj d.2).start = (h.obj d.2).stop := hends
    have hname : t'.get_symbol_string (h.obj d.2).start = some symbol := ht.get_symbol_string (hext _ _ hget)
    obtain ⟨shown, hrest⟩ := ih hall (total_impact + d.1)
    rw [missing_loop, pyAssert_of_true hends]
    simp only [ok_bind, hname, hrest]
    split_ifs
    · exact ⟨[(d.1, symbol)], rfl⟩
    · exact ⟨(d.1, symbol) :: shown, rfl⟩

theorem Lacking.get_missing {dim : String} {h : Store Range} {t t' : SymbolTable} (ht : t'.Sound) (hext : t.Extends t')
    (threshold : K) {r : Measured} (hr : Lacking dim t h r) : ∃ shown, r.get_missing dim h t' threshold = .ok shown := by
  obtain ⟨myself_diff, avg_diff, hget, hall⟩ := hr
  obtain ⟨shown, hshown⟩ := missing_loop_spec ht hext threshold (fun d hd => (hall d hd).2) 0
  refine ⟨shown, ?_⟩
  rw [Measured.get_missing, hget]
  exact hshown

end Missing

/-- **Every deviation has a name.** After `check`, whatever the table was asked before and is asked later, its dictionaries
are inverse to each other, the ranges that each vector lacks are single numbers of the table, and no assertion fails when
they are shown. -/
theorem deviations_named {K : Type*} [RatCast K] [LE K] [DecidableLE K] (order : SetOrder)
    {pathbin : Str → Option (FuncDic RetPath)} (rtn : Option Str) {h : Store Range} (hwf : Range.AllWF h)
    (earlier : List Str) {funcs : List Str} (hne : funcs ≠ []) (hfuncs : ∀ func ∈ funcs, pathbin func ≠ none) :
    (∃ c, CallChecker.check order pathbin rtn h (.asked earlier) funcs = .ok c ∧
      (c.results.map fun r => r.rv.func).Perm funcs ∧ (∀ r ∈ c.results, Lacking "@LOG_CALL" c.symbol_tbl c.heap r) ∧
      ∀ later, (c.symbol_tbl.asks later).Inverse ∧ ∀ r ∈ c.results, ∀ threshold : K, ∃ shown,
        CallVector.get_missing_calls r c.heap (c.symbol_tbl.asks later) threshold = .ok shown) ∧
    ∃ c, StoreChecker.check order pathbin rtn h (.asked earlier) funcs = .ok c ∧
      (c.results.map fun r => r.rv.func).Perm funcs ∧ (∀ r ∈ c.results, Lacking "@LOG_STORE" c.symbol_tbl c.heap r) ∧
      ∀ later, (c.symbol_tbl.asks later).Inverse ∧ ∀ r ∈ c.results, ∀ threshold : K, ∃ shown,
        StoreVector.get_missing_stores r c.heap (c.symbol_tbl.asks later) threshold = .ok shown := by
  have hboth : ∀ (ck : SymbolChecker) (dim : String), ck.vector = SymbolVector.init dim →
      ∃ c, ck.check order pathbin rtn h (.asked earlier) funcs = .ok c ∧
        (c.results.map fun r => r.rv.func).Perm funcs ∧ (∀ r ∈ c.results, Lacking dim c.symbol_tbl c.heap r) ∧
        ∀ later, (c.symbol_tbl.asks later).Inverse ∧ ∀ r ∈ c.results, ∀ threshold : K, ∃ shown,
          r.get_missing dim c.heap (c.symbol_tbl.asks later) threshold = .ok shown := by
    intro ck dim hck
    obtain ⟨c, hrun, hc⟩ := ck.check_spec hck order rtn hwf (SymbolTable.sound_asked earlier) hne hfuncs
    refine ⟨c, hrun, hc.funcs_perm, hc.lacking, fun later => ?_⟩
    obtain ⟨hsound, hext⟩ := SymbolTable.asks_spec hc.sound later
    exact ⟨hsound.inverse, fun r hr threshold => (hc.lacking r hr).get_missing hsound hext threshold⟩
  exact ⟨hboth CallChecker.checker "@LOG_CALL" rfl, hboth StoreChecker.checker "@LOG_STORE" rfl⟩

/-- A database of two functions that differ in what they call and in what they store on their way to return 0. -/
def twoSyncs (func : Str) : Option (FuncDic RetPath) :=
  if func = "ext2_sync".toList then
    some [(some "0".toList, [⟨[("LOG_CALL".toList, .many [.call ⟨"lock".toList, ["$A0".toList], []⟩,
        .call ⟨"flush".toList, ["$A0".toList], []⟩]),
      ("LOG_STORE".toList, .many [.store ⟨[], some "$A0->dirty".toList, "0".toList⟩])], []⟩])]
  else if func = "ext4_sync".toList then
    some [(some "0".toList, [⟨[("LOG_CALL".toList, .many [.call ⟨"flush".toList, ["$A0".toList], []⟩]),
      ("LOG_STORE".toList, .many [.store ⟨[], some "$A0->size".toList, "0".toList⟩])], []⟩])]
  else none

/-- The two functions, in the order in which the elements of a set were seen last. -/
theorem deviations_named_twoSyncs :
    (∃ c, CallChecker.check ⟨List.dedup, fun _ => .refl _⟩ twoSyncs (some "0".toList) (Store.ofList ⟨0, 0, 0, ∅⟩ [])
        (.asked ["lock".toList]) ["ext2_sync".toList, "ext4_sync".toList] = .ok c ∧
      (c.results.map fun r => r.rv.func).Perm ["ext2_sync".toList, "ext4_sync".toList] ∧
      (∀ r ∈ c.results, Lacking "@LOG_CALL" c.symbol_tbl c.heap r) ∧
      ∀ later, (c.symbol_tbl.asks later).Inverse ∧ ∀ r ∈ c.results, ∀ threshold : ℚ, ∃ shown,
        CallVector.get_missing_calls r c.heap (c.symbol_tbl.asks later) threshold = .ok shown) ∧
    ∃ c, StoreChecker.check ⟨List.dedup, fun _ => .refl _⟩ twoSyncs (some "0".toList) (Store.ofList ⟨0, 0, 0, ∅⟩ [])
        (.asked ["lock".toList]) ["ext2_sync".toList, "ext4_sync".toList] = .ok c ∧
      (c.results.map fun r => r.rv.func).Perm ["ext2_sync".toList, "ext4_sync".toList] ∧
      (∀ r ∈ c.results, Lacking "@LOG_STORE" c.symbol_tbl c.heap r) ∧
      ∀ later, (c.symbol_tbl.asks later).Inverse ∧ ∀ r ∈ c.results, ∀ threshold : ℚ, ∃ shown,
        StoreVector.get_missing_stores r c.heap (c.symbol_tbl.asks later) threshold = .ok shown :=
  deviations_named _ _ (fun o ho => absurd ho (Nat.not_lt_zero o)) _ (by decide) (by decide)

end SEDiff.Juxta
