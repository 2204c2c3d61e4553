import SEDiff.Foundation.Dict
import SEDiff.Foundation.Numerals
import SEDiff.Juxta.ArgNorm
import SEDiff.Juxta.Calls

/-!
# Symbols and their numbers

The class `SymbolTable` of `checker.py`, which numbers the symbols that the checkers of calls and stores see, and how
`CallChecker` and `StoreChecker` make symbols of a function's calls and stores.

## What is proved

* `SymbolTable.asked_inverse` — the two dictionaries of a table are inverse to each other, whatever it was asked before.
* `sym_ids_spec` — the texts that a checker makes of symbols are the numbers of symbols in its table.
-/

namespace SEDiff.Juxta

open Foundation Str

/-- The table; `symbol_id` is the next number. -/
structure SymbolTable where
  /-- "{symbol string, id}*". -/
  symbol_tbl : Dict Str ℤ
  /-- "{id, symbol string}". -/
  id_tbl : Dict ℤ Str
  /-- `__symbol_id`. -/
  symbol_id : ℤ
  deriving DecidableEq

namespace SymbolTable

/-- `SymbolTable()`. -/
def new : SymbolTable := ⟨[], [], 0⟩

/-- `get_symbol_id`. -/
def get_symbol_id (t : SymbolTable) (sym_str : Str) : SymbolTable × ℤ :=
  -- "look up the symbol dictionary."
  match t.symbol_tbl.get? sym_str with
  | some sym_id => (t, sym_id)
  | none =>
    (⟨t.symbol_tbl.put sym_str t.symbol_id, t.id_tbl.put t.symbol_id sym_str, t.symbol_id + 3⟩, t.symbol_id)

/-- `get_symbol_string`. -/
def get_symbol_string (t : SymbolTable) (sym_id : ℤ) : Option Str := t.id_tbl.get? sym_id

/-! ### The two dictionaries -/

/-- The dictionaries are inverse to each other. -/
def Inverse (t : SymbolTable) : Prop := ∀ sym_str sym_id, t.symbol_tbl.get? sym_str = some sym_id ↔ t.id_tbl.get? sym_id = some sym_str

/-- A table that hands out new numbers. -/
structure Sound (t : SymbolTable) : Prop where
  /-- The dictionaries are inverse to each other. -/
  inverse : t.Inverse
  /-- Numbers are handed out in order. -/
  below : ∀ sym_id, t.id_tbl.get? sym_id ≠ none → sym_id < t.symbol_id

/-- What the first table has, the second has too. -/
def Extends (t t' : SymbolTable) : Prop := ∀ sym_str sym_id, t.symbol_tbl.get? sym_str = some sym_id → t'.symbol_tbl.get? sym_str = some sym_id

theorem Extends.refl (t : SymbolTable) : t.Extends t := fun _ _ h => h

theorem Extends.trans {t₁ t₂ t₃ : SymbolTable} (h₁₂ : t₁.Extends t₂) (h₂₃ : t₂.Extends t₃) : t₁.Extends t₃ :=
  fun s id h => h₂₃ s id (h₁₂ s id h)

theorem sound_new : new.Sound := ⟨by simp [Inverse, new], by simp [new]⟩

/-- **One question**: the symbol is in the table then, and nothing else changes. -/
theorem get_symbol_id_spec {t : SymbolTable} (h : t.Sound) (sym_str : Str) :
    (t.get_symbol_id sym_str).1.Sound ∧ t.Extends (t.get_symbol_id sym_str).1 ∧
      (t.get_symbol_id sym_str).1.symbol_tbl.get? sym_str = some (t.get_symbol_id sym_str).2 := by
  unfold get_symbol_id
  cases hget : t.symbol_tbl.get? sym_str with
  | some sym_id => exact ⟨h, .refl t, hget⟩
  | none =>
    have hfresh : t.id_tbl.get? t.symbol_id = none := by
      by_contra hne
      exact lt_irrefl _ (h.below _ hne)
    refine ⟨⟨fun s id => ?_, fun id hid => ?_⟩, fun s id hs => ?_, Dict.get?_put_self _ _ _⟩
    · simp only
      by_cases hs : s = sym_str <;> by_cases hid : id = t.symbol_id
      · rw [hs, hid, Dict.get?_put_self, Dict.get?_put_self]
        simp
      · rw [hs, Dict.get?_put_self, Dict.get?_put_of_ne _ _ hid, ← h.inverse, hget]
        simp [Ne.symm hid]
      · rw [hid, Dict.get?_put_self, Dict.get?_put_of_ne _ _ hs, h.inverse, hfresh]
        simp [Ne.symm hs]
      · rw [Dict.get?_put_of_ne _ _ hs, Dict.get?_put_of_ne _ _ hid]
        exact h.inverse s id
    · simp only at hid ⊢
      by_cases he : id = t.symbol_id
      · omega
      · rw [Dict.get?_put_of_ne _ _ he] at hid
        have := h.below id hid
        omega
    · have hne : s ≠ sym_str := fun e => by
        rw [e, hget] at hs
        cases hs
      rw [Dict.get?_put_of_ne _ _ hne]
      exact hs

/-- The table after it was asked for these symbols too. -/
def asks (t : SymbolTable) (symbols : List Str) : SymbolTable := symbols.foldl (fun t sym_str => (t.get_symbol_id sym_str).1) t

/-- A table that was asked for these symbols. -/
def asked (symbols : List Str) : SymbolTable := new.asks symbols

theorem asks_spec {t : SymbolTable} (h : t.Sound) (symbols : List Str) : (t.asks symbols).Sound ∧ t.Extends (t.asks symbols) := by
  induction symbols generalizing t with
  | nil => exact ⟨h, .refl t⟩
  | cons s symbols ih =>
    obtain ⟨hsound, hext, -⟩ := get_symbol_id_spec h s
    obtain ⟨hsound', hext'⟩ := ih hsound
    exact ⟨hsound', hext.trans hext'⟩

theorem sound_asked (symbols : List Str) : (asked symbols).Sound := (asks_spec sound_new symbols).1

/-- **The dictionaries** of a table are inverse to each other. -/
theorem asked_inverse (symbols : List Str) : (asked symbols).Inverse := (sound_asked symbols).inverse

/-- A number of a table has a symbol. -/
theorem Sound.get_symbol_string {t : SymbolTable} (h : t.Sound) {sym_str : Str} {sym_id : ℤ}
    (hs : t.symbol_tbl.get? sym_str = some sym_id) : t.get_symbol_string sym_id = some sym_str :=
  (h.inverse sym_str sym_id).mp hs

end SymbolTable

/-! ### Sets of symbols -/

/-- The order in which a set is iterated that was filled in some order: not specified, but each element comes once. -/
structure SetOrder where
  /-- The elements in order. -/
  list : List Str → List Str
  /-- Each element comes once. -/
  perm : ∀ l, (list l).Perm l.dedup

theorem SetOrder.mem_list (order : SetOrder) {l : List Str} {s : Str} : s ∈ order.list l ↔ s ∈ l :=
  ((order.perm l).mem_iff).trans List.mem_dedup

/-- One symbol: its number, unless it is left out. -/
def add_sym_id (filter : Str → Option Str) (s : SymbolTable × List Str) (symbol : Str) : SymbolTable × List Str :=
  match filter symbol with
  | none => s
  | some fo_symbol =>
    let (symbol_tbl, sym_id) := s.1.get_symbol_id fo_symbol
    (symbol_tbl, s.2 ++ [ofInt sym_id])

/-- "change them to symbol id": `list(sym_id_set)`. -/
def sym_ids (order : SetOrder) (filter : Str → Option Str) (t : SymbolTable) (symbols : List Str) : SymbolTable × List Str :=
  let (t, sym_id_set) := (order.list symbols).foldl (add_sym_id filter) (t, [])
  (t, order.list sym_id_set)

/-- The text is the number of a symbol in the table. -/
def IsId (t : SymbolTable) (s : Str) : Prop := ∃ sym_id sym_str, s = ofInt sym_id ∧ t.symbol_tbl.get? sym_str = some sym_id

theorem IsId.mono {t t' : SymbolTable} (h : t.Extends t') {s : Str} (hs : IsId t s) : IsId t' s := by
  obtain ⟨sym_id, sym_str, rfl, hget⟩ := hs
  exact ⟨sym_id, sym_str, rfl, h _ _ hget⟩

/-- **The texts** of symbols are their numbers in the table. -/
theorem sym_ids_spec (order : SetOrder) (filter : Str → Option Str) {t : SymbolTable} (ht : t.Sound) (symbols : List Str) :
    (sym_ids order filter t symbols).1.Sound ∧ t.Extends (sym_ids order filter t symbols).1 ∧
      ∀ s ∈ (sym_ids order filter t symbols).2, IsId (sym_ids order filter t symbols).1 s := by
  have hfold : ∀ (l : List Str) (s : SymbolTable × List Str), s.1.Sound → (∀ x ∈ s.2, IsId s.1 x) →
      (l.foldl (add_sym_id filter) s).1.Sound ∧ s.1.Extends (l.foldl (add_sym_id filter) s).1 ∧
        ∀ x ∈ (l.foldl (add_sym_id filter) s).2, IsId (l.foldl (add_sym_id filter) s).1 x := by
    intro l
    induction l with
    | nil => exact fun s hs hids => ⟨hs, .refl _, hids⟩
    | cons symbol l ih =>
      intro s hs hids
      rw [List.foldl_cons]
      cases hf : filter symbol with
      | none =>
        have hstep : add_sym_id filter s symbol = s := by rw [add_sym_id, hf]
        rw [hstep]
        exact ih s hs hids
      | some fo_symbol =>
        obtain ⟨hsound, hext, hget⟩ := SymbolTable.get_symbol_id_spec hs fo_symbol
        have hstep : add_sym_id filter s symbol =
            ((s.1.get_symbol_id fo_symbol).1, s.2 ++ [ofInt (s.1.get_symbol_id fo_symbol).2]) := by rw [add_sym_id, hf]
        rw [hstep]
        have hnew : ∀ x ∈ s.2 ++ [ofInt (s.1.get_symbol_id fo_symbol).2], IsId (s.1.get_symbol_id fo_symbol).1 x := by
          intro x hx
          rcases List.mem_append.mp hx with hx | hx
          · exact (hids x hx).mono hext
          · exact ⟨_, fo_symbol, List.mem_singleton.mp hx, hget⟩
        obtain ⟨h1, h2, h3⟩ := ih ((s.1.get_symbol_id fo_symbol).1, s.2 ++ [ofInt (s.1.get_symbol_id fo_symbol).2]) hsound hnew
        exact ⟨h1, hext.trans h2, h3⟩
  obtain ⟨h1, h2, h3⟩ := hfold (order.list symbols) (t, []) ht (by simp)
  exact ⟨h1, h2, fun s hs => h3 s (order.mem_list.mp hs)⟩

/-! ### The symbols of a function -/

/-- `have_args`. -/
def have_args (sym_str : Str) : Prop := "$A".toList <:+: sym_str

instance (sym_str : Str) : Decidable (have_args sym_str) := inferInstanceAs (Decidable (_ <:+: _))

instance (s : Str) : Decidable (∃ c ∈ DELIMITERS, s = [c]) := List.decidableBEx _ _

/-- `__filter_name`. -/
def filter_name (s : Str) : Str :=
  let stop_words := ["S64".toList, "E".toList, "I".toList, []]
  if (∃ c ∈ DELIMITERS, s = [c]) ∨ s ∈ stop_words ∨ have_args s then s
  else if (toFloat s).isSome then s
  else "-".toList

/-- `__tokenize`, where `sym_str[beg:i]` was read already. -/
def filter_tokens : Str → Str → List Str
  | name, [] => [filter_name name]
  | name, c :: sym_str =>
    if c = ')' ∨ c = ',' ∨ c = ' ' then
      (if name = [] then [] else [filter_name name]) ++ [c] :: filter_tokens [] sym_str
    else if c = '(' then (name ++ [c]) :: filter_tokens [] sym_str
    else filter_tokens (name ++ [c]) sym_str

/-- `filter_out_non_args`. -/
def filter_out_non_args (sym_str : Str) : Str := (filter_tokens [] sym_str).flatten

namespace CallChecker

/-- What `retpath` adds to `symbol_set`; the entries of the list are calls. -/
def symbols (retpath : RetPath) : List Str :=
  match retpath.get_calls with
  | some (.many calls) => calls.filterMap fun
    | .call call => some call.callname
    | _ => none
  | _ => []

/-- `symbol[0:symbol.find('(')]`: "let's simply take functions names". -/
def filter (symbol : Str) : Option Str :=
  match partition '(' symbol with
  | some (fo_symbol, _) => some fo_symbol
  | none => some symbol.dropLast

end CallChecker

namespace StoreChecker

/-- What `retpath` adds to `symbol_set`, "LHS of store"; the entries of the list are stores. -/
def symbols (retpath : RetPath) : List Str :=
  match retpath.get_stores with
  | some (.many stores) => stores.filterMap fun
    | .store store => store.lhs.filter (· ≠ [])
    | _ => none
  | _ => []

/-- Symbols without arguments are left out. -/
def filter (symbol : Str) : Option Str :=
  let fo_symbol := filter_out_non_args symbol
  if have_args fo_symbol then some fo_symbol else none

end StoreChecker

end SEDiff.Juxta
