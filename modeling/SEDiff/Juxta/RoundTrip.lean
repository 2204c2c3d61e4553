import SEDiff.Juxta.Sections
import SEDiff.Juxta.Statements

/-!
# Reading a file back

An `.fss` file as it is printed: paths of entries `@KEY: value`, the values on one line or more, in sections with
blank lines between them.

## What is proved

* `feeder_layout` — every layout of the same entries is fed as the same keys and values.
* `parse_entries_paths` — they are parsed to the paths they were printed from.
* `file_round_trip` — both together, for `parse_file` over the whole file.
-/

namespace SEDiff.Juxta

open Foundation SEDiff.Juxta.Parser

/-! ### Files -/

/-- An entry of a file. -/
structure FileEntry where
  /-- The key. -/
  key : Str
  /-- The value on the line of the key. -/
  first : Str
  /-- The lines that continue it. -/
  rest : List Str

namespace FileEntry

/-- The lines of an entry. -/
def lines (e : FileEntry) : List Str := ('@' :: (e.key ++ ':' :: ' ' :: e.first)) :: e.rest

/-- The value: its lines, stripped. -/
def val (e : FileEntry) : Str := Str.strip e.first ++ (e.rest.map Str.strip).flatten

/-- The key is a name, and the value is printed in lines that neither are blank nor start with `@`. -/
structure Written (e : FileEntry) : Prop where
  /-- The key ends at the colon. -/
  colon : ':' ∉ e.key
  /-- It does not make the line a marker. -/
  marker : ¬ "@<<".toList <+: e.key ∧ ¬ "@>>".toList <+: e.key
  /-- Lines are lines. -/
  newline : ∀ l ∈ e.lines, '\n' ∉ l
  /-- No continuation line is blank. -/
  blank : ∀ l ∈ e.rest, Str.strip l ≠ []
  /-- None starts with `@`. -/
  start : ∀ l ∈ e.rest, l.head? ≠ some '@'

/-- No continuation line starts with `@` once it is stripped, and a call or store has a location mark. -/
structure Plain (e : FileEntry) : Prop where
  /-- Also not after blanks. -/
  start : ∀ l ∈ e.rest, (Str.strip l).head? ≠ some '@'
  /-- The location of a call or store. -/
  mark : e.key = "LOG_CALL".toList ∨ e.key = "LOG_STORE".toList → "@LOCATION:".toList <:+: e.val

instance (e : FileEntry) : Decidable e.Written :=
  decidable_of_iff (':' ∉ e.key ∧ (¬ "@<<".toList <+: e.key ∧ ¬ "@>>".toList <+: e.key) ∧ (∀ l ∈ e.lines, '\n' ∉ l) ∧
    (∀ l ∈ e.rest, Str.strip l ≠ []) ∧ ∀ l ∈ e.rest, l.head? ≠ some '@')
    ⟨fun ⟨h₁, h₂, h₃, h₄, h₅⟩ => ⟨h₁, h₂, h₃, h₄, h₅⟩, fun ⟨h₁, h₂, h₃, h₄, h₅⟩ => ⟨h₁, h₂, h₃, h₄, h₅⟩⟩

instance (e : FileEntry) : Decidable e.Plain :=
  decidable_of_iff ((∀ l ∈ e.rest, (Str.strip l).head? ≠ some '@') ∧
    (e.key = "LOG_CALL".toList ∨ e.key = "LOG_STORE".toList → "@LOCATION:".toList <:+: e.val))
    ⟨fun ⟨h₁, h₂⟩ => ⟨h₁, h₂⟩, fun ⟨h₁, h₂⟩ => ⟨h₁, h₂⟩⟩

end FileEntry

/-- A path of a file: a `LOCATION` entry and the entries that follow. -/
structure FilePath where
  /-- The location. -/
  location : FileEntry
  /-- The entries that follow. -/
  entries : List FileEntry
  /-- Its key. -/
  key : location.key = "LOCATION".toList
  /-- Only lists have more than one entry. -/
  once : ((location :: entries).filter fun e => e.key ∉ LIST_TYPE).Pairwise fun e e' => e.key ≠ e'.key

/-- All entries of a path. -/
def FilePath.all (p : FilePath) : List FileEntry := p.location :: p.entries

/-- A file: blank lines and sections. -/
structure Layout where
  /-- The sections, each after some blank lines. -/
  sections : List (List Str × List FileEntry)
  /-- The blank lines at the end. -/
  trailing : List Str

namespace Layout

/-- The entries. -/
def entries (f : Layout) : List FileEntry := f.sections.flatMap Prod.snd

/-- The lines of a section, after its blank lines. -/
def section_ (s : List Str × List FileEntry) : List Str :=
  s.1 ++ opening :: (s.2.flatMap FileEntry.lines ++ [closing])

/-- The lines. -/
def lines (f : Layout) : List Str := f.sections.flatMap section_ ++ f.trailing

/-- The text. -/
def text (f : Layout) : Str := unlines '\n' f.lines

/-- A blank line. -/
def Blank (l : Str) : Prop := '\n' ∉ l ∧ Str.strip l = []

/-- There are only blank lines between the sections. -/
structure Spaced (f : Layout) : Prop where
  /-- Before a section. -/
  before : ∀ s ∈ f.sections, ∀ l ∈ s.1, Blank l
  /-- At the end. -/
  trailing : ∀ l ∈ f.trailing, Blank l

end Layout

/-- The file is a layout of the entries of these paths. -/
structure Printed (f : Layout) (paths : List FilePath) : Prop where
  /-- The sections are spaced. -/
  spaced : f.Spaced
  /-- The entries are those of the paths, in order. -/
  entries : f.entries = paths.flatMap FilePath.all
  /-- They are written as entries. -/
  written : ∀ e ∈ f.entries, e.Written

/-- The path holds these entries. -/
structure Holds (p : RetPath) (es : List (Str × Entry)) : Prop where
  /-- Calls and stores in order. -/
  effects : p.effects = (es.filter fun e => "LOG_".toList <+: e.1).map Prod.snd
  /-- Lists have all their entries in order. -/
  lists : ∀ key ∈ LIST_TYPE, p.index.get? key =
    if es.filter (fun e => e.1 = key) = [] then none else some (.many ((es.filter fun e => e.1 = key).map Prod.snd))
  /-- Other keys have their entry. -/
  others : ∀ key, key ∉ LIST_TYPE → p.index.get? key = (es.find? fun e => e.1 = key).map fun e => .one e.2

/-- The entries are dispatched to their types. -/
def Dispatched (es : List FileEntry) (ts : List (Str × Entry)) : Prop :=
  List.Forall₂ (fun e t => t.1 = e.key ∧ _parse_entry e.key e.val = .ok t.2) es ts

/-- The file is parsed to these paths. -/
def ParsesBack (f : Layout) (paths : List FilePath) : Prop :=
  ∃ ps, parse_whole f.text = .ok ps ∧
    List.Forall₂ (fun path p => ∃ ts, Dispatched path.all ts ∧ Holds p ts) paths ps

/-! ### The lookahead -/

/-- The lines with the line that follows. -/
def look : List Str → List (Str × Option Str)
  | [] => []
  | p :: ns => (p, ns.head?) :: look ns

/-- Before the end of the chunk, every line is looked at. -/
theorem dual_eq_look {end_ : ℕ} (p : Str) {offset : ℕ} {ns : List Str} (h : offset + ns.flatten.length < end_) :
    dual end_ p offset ns = look (p :: ns.map Str.strip) := by
  induction ns generalizing p offset with
  | nil => rfl
  | cons n ns ih =>
    rw [List.flatten_cons, List.length_append] at h
    rw [dual, if_neg fun hend => by omega, ih n.strip (by omega)]
    rfl

theorem flatten_map_line (ls : List Str) : (ls.map (line '\n')).flatten = unlines '\n' ls := by
  rw [unlines, List.flatMap_def]

/-- The whole file, line by line. -/
theorem feeder_text {ls : List Str} (hnl : ∀ l ∈ ls, '\n' ∉ l) (hlen : (unlines '\n' ls).length < 2 ^ 64) :
    _feeder ⟨false, none⟩ (_dual_open (unlines '\n' ls) 0 (2 ^ 64)) = _feeder ⟨false, none⟩ (look (ls.map Str.strip)) := by
  have hstrip : (ls.map (line '\n')).map Str.strip = ls.map Str.strip := by
    rw [List.map_map]
    exact List.map_congr_left fun l _ => Str.strip_append_space l (by decide)
  rw [_dual_open, List.drop_zero, lines_unlines hnl]
  cases ls with
  | nil => rfl
  | cons p ns =>
    rw [List.map_cons, List.map_cons] at hstrip
    have hbound : 0 + (line '\n' p).length + (ns.map (line '\n')).flatten.length < 2 ^ 64 := by
      rwa [flatten_map_line, Nat.zero_add, ← List.length_append, ← unlines_cons]
    rw [List.map_cons]
    dsimp only
    rw [dual_eq_look _ hbound, hstrip]

/-! ### Entries -/

/-- The line of the key, stripped. -/
theorem strip_key (key first : Str) :
    Str.strip ('@' :: (key ++ ':' :: ' ' :: first)) = '@' :: (key ++ ':' :: Str.rstrip (' ' :: first) Str.isSpace) := by
  have hhead : Str.lstrip ('@' :: (key ++ ':' :: ' ' :: first)) Str.isSpace = '@' :: (key ++ ':' :: ' ' :: first) :=
    Str.lstrip_of_head fun c hc => by
      cases hc
      rfl
  rw [Str.strip, hhead]
  exact Str.rstrip_append_cons ('@' :: key) (by decide) _

/-- The key and the first line of the value. -/
theorem _split_key {key : Str} (hkey : ':' ∉ key) (first : Str) :
    _split (Str.strip ('@' :: (key ++ ':' :: ' ' :: first))) = (key, Str.strip first) := by
  have hcolon : ∀ c ∈ '@' :: key, decide (c ≠ ':') = true := by
    intro c hc
    refine decide_eq_true fun h => ?_
    subst h
    cases List.mem_cons.mp hc with
    | inl h => exact absurd h (by decide)
    | inr h => exact hkey h
  have htake : ('@' :: (key ++ ':' :: Str.rstrip (' ' :: first) Str.isSpace)).takeWhile (· ≠ ':') = '@' :: key := by
    rw [← List.cons_append, List.takeWhile_append_of_pos hcolon, List.takeWhile_cons_of_neg (by decide), List.append_nil]
  have hdrop : ('@' :: (key ++ ':' :: Str.rstrip (' ' :: first) Str.isSpace)).drop (('@' :: key).length + 1) =
      Str.rstrip (' ' :: first) Str.isSpace := by
    rw [← List.cons_append, List.drop_append, List.drop_eq_nil_of_le (Nat.le_succ _), Nat.add_sub_cancel_left]
    rfl
  rw [strip_key, _split, htake, hdrop, Str.strip_rstrip, Str.strip_cons_space first (by decide)]
  rfl

/-- A text without a colon starts a key when it starts the key and its colon. -/
theorem prefix_key {m key t : Str} (hm : ':' ∉ m) (h : m <+: key ++ ':' :: t) : m <+: key := by
  obtain h' | ⟨u, rfl⟩ := List.prefix_or_prefix_of_prefix h (List.prefix_append key _)
  · exact h'
  · rw [List.prefix_append_right_inj] at h
    cases u with
    | nil =>
      rw [List.append_nil]
    | cons c u =>
      obtain ⟨v, hv⟩ := h
      obtain rfl : c = ':' := (List.cons.inj hv).1
      exact absurd (List.mem_append_right _ List.mem_cons_self) hm

variable {ns : List Str}

/-- The lines that continue a value are read to the end of the entry. -/
theorem feeder_continuation (key val : Str) {rs : List Str} (hrs : rs ≠ [])
    (hplain : ∀ r ∈ rs, ends (some r) = false) (hns : ends ns.head? = true) :
    _feeder ⟨true, some (key, val)⟩ (look (rs ++ ns)) = (key, val ++ rs.flatten) :: _feeder ⟨true, none⟩ (look ns) := by
  induction rs generalizing val with
  | nil => exact absurd rfl hrs
  | cons r rs ih =>
    rw [List.cons_append, look, _feeder]
    cases rs with
    | nil =>
      have hfeed : feed ⟨true, some (key, val)⟩ r ns.head? = ([(key, val ++ r)], ⟨true, none⟩) := by
        simp [feed, hns]
      rw [List.nil_append, hfeed]
      simp
    | cons n rs =>
      have hend : ends (some n) = false := hplain n (by simp)
      have hfeed : feed ⟨true, some (key, val)⟩ r (some n) = ([], ⟨true, some (key, val ++ r)⟩) := by
        simp [feed, hend]
      rw [List.cons_append, List.head?_cons, hfeed, List.nil_append, ← List.cons_append,
        ih (val ++ r) (List.cons_ne_nil _ _) fun x hx => hplain x (List.mem_cons_of_mem _ hx), List.append_assoc]
      rfl

/-- A line that continues a value does not end the entry before it. -/
theorem FileEntry.ends_rest {e : FileEntry} (hw : e.Written) (hp : e.Plain) :
    ∀ r ∈ e.rest.map Str.strip, ends (some r) = false := by
  intro r hr
  obtain ⟨l, hl, rfl⟩ := List.mem_map.mp hr
  have hblank := hw.blank l hl
  have hstart := hp.start l hl
  cases hs : Str.strip l with
  | nil => exact absurd hs hblank
  | cons c t =>
    rw [hs, List.head?_cons] at hstart
    exact decide_eq_false fun hc => hstart (congrArg some hc)

/-- **An entry is read** up to the line that ends it. -/
theorem feeder_entry {e : FileEntry} (hw : e.Written) (hp : e.Plain) (hns : ends ns.head? = true) :
    _feeder ⟨true, none⟩ (look (e.lines.map Str.strip ++ ns)) =
      (e.key, e.val) :: _feeder ⟨true, none⟩ (look ns) := by
  have hsplit := _split_key hw.colon e.first
  have hkey := strip_key e.key e.first
  have hopening : ¬ opening <+: Str.strip ('@' :: (e.key ++ ':' :: ' ' :: e.first)) := by
    rw [hkey]
    exact fun h => hw.marker.1 (prefix_key (by decide) (List.cons_prefix_cons.mp h).2)
  have hclosing : ¬ closing <+: Str.strip ('@' :: (e.key ++ ':' :: ' ' :: e.first)) := by
    rw [hkey]
    exact fun h => hw.marker.2 (prefix_key (by decide) (List.cons_prefix_cons.mp h).2)
  have hfeed (n : Option Str) : feed ⟨true, none⟩ (Str.strip ('@' :: (e.key ++ ':' :: ' ' :: e.first))) n =
      if ends n then ([(e.key, Str.strip e.first)], ⟨true, none⟩)
      else ([], ⟨true, some (e.key, Str.strip e.first)⟩) := by
    rw [feed]
    dsimp only
    rw [if_neg (by simp [hkey]), if_neg hopening, if_neg hclosing, if_neg (by simp), if_neg (by simp [hkey]), hsplit]
  rw [FileEntry.lines, List.map_cons, List.cons_append, look, _feeder, hfeed, FileEntry.val]
  cases hrest : e.rest with
  | nil =>
    rw [List.map_nil, List.nil_append, if_pos hns]
    simp
  | cons r rs =>
    have hends := FileEntry.ends_rest hw hp
    rw [hrest] at hends
    have hhead : ends ((List.map Str.strip (r :: rs) ++ ns).head?) = false := hends _ List.mem_cons_self
    rw [hhead]
    exact feeder_continuation e.key (Str.strip e.first) (by simp) hends hns

/-- The entries of a section. -/
theorem feeder_entries {es : List FileEntry} (hes : ∀ e ∈ es, e.Written ∧ e.Plain) (hns : ends ns.head? = true) :
    _feeder ⟨true, none⟩ (look ((es.flatMap FileEntry.lines).map Str.strip ++ ns)) =
      es.map (fun e => (e.key, e.val)) ++ _feeder ⟨true, none⟩ (look ns) := by
  induction es with
  | nil => rfl
  | cons e es ih =>
    have hnext : ends ((es.flatMap FileEntry.lines).map Str.strip ++ ns).head? = true := by
      cases es with
      | nil => exact hns
      | cons e' es =>
        rw [List.flatMap_cons, FileEntry.lines, List.cons_append, List.map_cons, strip_key]
        rfl
    obtain ⟨hw, hp⟩ := hes e List.mem_cons_self
    rw [List.flatMap_cons, List.map_append, List.append_assoc, feeder_entry hw hp hnext,
      ih fun e' he' => hes e' (List.mem_cons_of_mem _ he')]
    rfl

/-- Blank lines are skipped. -/
theorem feeder_blank {ls : List Str} (hls : ∀ l ∈ ls, Str.strip l = []) :
    _feeder ⟨false, none⟩ (look (ls.map Str.strip ++ ns)) = _feeder ⟨false, none⟩ (look ns) := by
  induction ls with
  | nil => rfl
  | cons l ls ih =>
    rw [List.map_cons, hls l List.mem_cons_self, List.cons_append, look, _feeder]
    exact ih fun l' hl' => hls l' (List.mem_cons_of_mem _ hl')

/-- A section, after blank lines. -/
theorem feeder_section {s : List Str × List FileEntry} (hblank : ∀ l ∈ s.1, Layout.Blank l)
    (hes : ∀ e ∈ s.2, e.Written ∧ e.Plain) :
    _feeder ⟨false, none⟩ (look ((Layout.section_ s).map Str.strip ++ ns)) =
      s.2.map (fun e => (e.key, e.val)) ++ _feeder ⟨false, none⟩ (look ns) := by
  have hopening : Str.strip opening = opening := by decide
  have hclosing : Str.strip closing = closing := by decide
  have hclose : _feeder ⟨true, none⟩ (look (closing :: ns)) = _feeder ⟨false, none⟩ (look ns) := by
    rw [look, _feeder]
    rfl
  have hopen (ls : List Str) : _feeder ⟨false, none⟩ (look (opening :: ls)) = _feeder ⟨true, none⟩ (look ls) := by
    rw [look, _feeder]
    rfl
  rw [Layout.section_, List.map_append, List.append_assoc, feeder_blank fun l hl => (hblank l hl).2, List.map_cons,
    hopening, List.cons_append, hopen, List.map_append, List.append_assoc,
    feeder_entries hes (by rw [List.map_singleton, hclosing]; rfl), List.map_singleton, hclosing]
  exact congrArg _ hclose

/-- **Every layout** of the same entries is fed as the same keys and values. -/
theorem feeder_layout {f : Layout} (hf : f.Spaced) (hes : ∀ e ∈ f.entries, e.Written ∧ e.Plain) :
    _feeder ⟨false, none⟩ (look (f.lines.map Str.strip)) = f.entries.map fun e => (e.key, e.val) := by
  obtain ⟨sections, trailing⟩ := f
  have hend : _feeder ⟨false, none⟩ (look (trailing.map Str.strip)) = [] := by
    have hskip := @feeder_blank [] trailing fun l hl => (hf.trailing l hl).2
    rw [List.append_nil] at hskip
    exact hskip
  rw [Layout.lines, Layout.entries, List.map_append]
  have hbefore := hf.before
  rw [Layout.entries] at hes
  dsimp only at hbefore hes ⊢
  clear hf
  induction sections with
  | nil => exact hend
  | cons s sections ih =>
    rw [List.flatMap_cons, List.map_append, List.append_assoc, feeder_section (hbefore s List.mem_cons_self) fun e he =>
      hes e (by rw [List.flatMap_cons]; exact List.mem_append_left _ he), ih, List.flatMap_cons, List.map_append]
    · intro e he
      exact hes e (by rw [List.flatMap_cons]; exact List.mem_append_right _ he)
    · exact fun s' hs' => hbefore s' (List.mem_cons_of_mem _ hs')

/-! ### Paths -/

/-- A value is dispatched to its type. -/
theorem parse_entry_ok {key val : Str}
    (hmark : key = "LOG_CALL".toList ∨ key = "LOG_STORE".toList → "@LOCATION:".toList <:+: val) :
    ∃ entry, _parse_entry key val = .ok entry := by
  rw [_parse_entry]
  by_cases hfunc : key = "FUNCTION".toList
  · rw [if_pos hfunc]
    exact ⟨_, rfl⟩
  rw [if_neg hfunc]
  by_cases hcond : key = "CONDITION".toList
  · rw [if_pos hcond, PathCond.init]
    by_cases hcolon : ':' ∈ val
    · have hin : ":".toList <:+: val := by
        obtain ⟨a, b, rfl⟩ := List.append_of_mem hcolon
        exact ⟨a, b, by simp⟩
      obtain ⟨l, r, hsplit⟩ := split_ok (by decide) hin
      rw [if_pos hcolon, hsplit]
      exact ⟨_, rfl⟩
    · rw [if_neg hcolon]
      exact ⟨_, rfl⟩
  rw [if_neg hcond]
  by_cases hcall : key = "LOG_CALL".toList
  · obtain ⟨l, r, hsplit⟩ := split_ok (by decide) (hmark (.inl hcall))
    rw [if_pos hcall, PathCall.init, hsplit]
    simp only [ok_bind]
    cases _parse_func l <;> exact ⟨_, rfl⟩
  rw [if_neg hcall]
  by_cases hstore : key = "LOG_STORE".toList
  · obtain ⟨l, r, hsplit⟩ := split_ok (by decide) (hmark (.inr hstore))
    obtain ⟨⟨lhs, rhs⟩, hsides⟩ := sides_ok val l
    rw [if_pos hstore, PathStore.init, hsplit]
    simp only [ok_bind, hsides]
    exact ⟨_, rfl⟩
  · rw [if_neg hstore]
    exact ⟨_, rfl⟩

theorem Holds.init : Holds RetPath.init [] :=
  ⟨rfl, fun _ _ => rfl, fun _ _ => rfl⟩

/-- **An entry is added** to the path, after the ones it holds. -/
theorem Holds.add_entry {p : RetPath} {ts : List (Str × Entry)} (h : Holds p ts) {key val : Str} {entry : Entry}
    (hparse : _parse_entry key val = .ok entry) (hnew : key ∉ LIST_TYPE → ∀ t ∈ ts, t.1 ≠ key) :
    ∃ p', p.add_entry key val = .ok p' ∧ Holds p' (ts ++ [(key, entry)]) := by
  have heffects : (if "LOG_".toList <+: key then p.effects ++ [entry] else p.effects) =
      ((ts ++ [(key, entry)]).filter fun e => "LOG_".toList <+: e.1).map Prod.snd := by
    rw [List.filter_append, List.map_append, ← h.effects]
    by_cases hlog : "LOG_".toList <+: key
    · rw [if_pos hlog, List.filter_cons_of_pos (by simpa using hlog)]
      rfl
    · rw [if_neg hlog, List.filter_cons_of_neg (by simpa using hlog), List.filter_nil, List.map_nil, List.append_nil]
  have hfilter (key' : Str) (hne : key' ≠ key) :
      (ts ++ [(key, entry)]).filter (fun e => e.1 = key') = ts.filter fun e => e.1 = key' := by
    rw [List.filter_append, List.filter_cons_of_neg (by simpa using hne.symm), List.filter_nil, List.append_nil]
  have hfind (key' : Str) (hne : key' ≠ key) :
      (ts ++ [(key, entry)]).find? (fun e => e.1 = key') = ts.find? fun e => e.1 = key' := by
    rw [List.find?_append, List.find?_cons_of_neg (by simpa using hne.symm), List.find?_nil, Option.or_none]
  have hself : (ts ++ [(key, entry)]).filter (fun e => e.1 = key) = (ts.filter fun e => e.1 = key) ++ [(key, entry)] := by
    rw [List.filter_append, List.filter_cons_of_pos (by simp), List.filter_nil]
  rw [RetPath.add_entry, hparse, ok_bind]
  by_cases hkey : key ∈ LIST_TYPE
  · rw [if_pos hkey]
    have happend : RetPath.append p.index key entry =
        .ok (p.index.put key (.many (((ts ++ [(key, entry)]).filter fun e => e.1 = key).map Prod.snd))) := by
      rw [RetPath.append, h.lists key hkey, hself, List.map_append]
      by_cases hnil : ts.filter (fun e => e.1 = key) = []
      · rw [if_pos hnil, hnil]
        rfl
      · rw [if_neg hnil]
        rfl
    rw [happend]
    refine ⟨_, rfl, heffects, fun key' hkey' => ?_, fun key' hkey' => ?_⟩
    · by_cases heq : key' = key
      · subst heq
        dsimp only
        rw [Dict.get?_put_self, if_neg (by rw [hself]; simp)]
      · dsimp only
        rw [Dict.get?_put_of_ne _ _ heq, hfilter key' heq, h.lists key' hkey']
    · have hne : key' ≠ key := fun heq => hkey' (heq ▸ hkey)
      dsimp only
      rw [Dict.get?_put_of_ne _ _ hne, hfind key' hne, h.others key' hkey']
  · have hnone : ts.find? (fun e => e.1 = key) = none := by
      rw [List.find?_eq_none]
      exact fun t ht => by simpa using hnew hkey t ht
    have hget : p.index.get? key = none := by
      rw [h.others key hkey, hnone]
      rfl
    rw [if_neg hkey, pyAssert_of_true hget]
    refine ⟨_, rfl, heffects, fun key' hkey' => ?_, fun key' hkey' => ?_⟩
    · have hne : key' ≠ key := fun heq => hkey (heq ▸ hkey')
      dsimp only
      rw [Dict.get?_put_of_ne _ _ hne, hfilter key' hne, h.lists key' hkey']
    · by_cases heq : key' = key
      · subst heq
        dsimp only
        rw [Dict.get?_put_self, List.find?_append, hnone, List.find?_cons_of_pos (by simp)]
        rfl
      · dsimp only
        rw [Dict.get?_put_of_ne _ _ heq, hfind key' heq, h.others key' hkey']

/-- The key and the value of an entry. -/
def FileEntry.pair (e : FileEntry) : Str × Str := (e.key, e.val)

/-- The entries after a location are added to its path, which ends with them. -/
theorem parse_entries_some {es : List FileEntry} {p : RetPath} {ts : List (Str × Entry)} (h : Holds p ts)
    (hes : ∀ e ∈ es, e.Plain) (hlocation : ∀ e ∈ es, e.key ≠ "LOCATION".toList)
    (hnew : ∀ e ∈ es, e.key ∉ LIST_TYPE → ∀ t ∈ ts, t.1 ≠ e.key)
    (honce : (es.filter fun e => e.key ∉ LIST_TYPE).Pairwise fun e e' => e.key ≠ e'.key) :
    ∃ ts' p', Dispatched es ts' ∧ Holds p' (ts ++ ts') ∧ parse_entries (some p) (es.map FileEntry.pair) = .ok [p'] := by
  induction es generalizing p ts with
  | nil => exact ⟨[], p, .nil, by rwa [List.append_nil], rfl⟩
  | cons e es ih =>
    obtain ⟨entry, hparse⟩ := parse_entry_ok (hes e List.mem_cons_self).mark
    obtain ⟨p₁, hadd, hp₁⟩ := h.add_entry hparse (hnew e List.mem_cons_self)
    have hnew₁ : ∀ e' ∈ es, e'.key ∉ LIST_TYPE → ∀ t ∈ ts ++ [(e.key, entry)], t.1 ≠ e'.key := by
      intro e' he' hkey t ht
      cases List.mem_append.mp ht with
      | inl ht => exact hnew e' (List.mem_cons_of_mem _ he') hkey t ht
      | inr ht =>
        rw [List.mem_singleton.mp ht]
        intro heq
        have hlist : e.key ∉ LIST_TYPE := fun hk => hkey (heq ▸ hk)
        rw [List.filter_cons_of_pos (by simpa using hlist)] at honce
        exact (List.pairwise_cons.mp honce).1 e' (List.mem_filter.mpr ⟨he', by simpa using hkey⟩) heq
    obtain ⟨ts', p', hdisp, hp', hrun⟩ := ih hp₁ (fun e' he' => hes e' (List.mem_cons_of_mem _ he'))
      (fun e' he' => hlocation e' (List.mem_cons_of_mem _ he')) hnew₁
      (honce.sublist ((List.sublist_cons_self e es).filter _))
    refine ⟨(e.key, entry) :: ts', p', .cons ⟨rfl, hparse⟩ hdisp, by rwa [← List.append_cons] at hp', ?_⟩
    have hkey := hlocation e List.mem_cons_self
    rw [List.map_cons, FileEntry.pair, parse_entries_cons, if_neg hkey]
    dsimp only
    rw [hadd, ok_bind]
    exact hrun

/-- **A path is parsed** from its entries. -/
theorem FilePath.parse_entries (path : FilePath) (hplain : ∀ e ∈ path.all, e.Plain) :
    ∃ ts p, Dispatched path.all ts ∧ Holds p ts ∧ Parser.parse_entries none (path.all.map FileEntry.pair) = .ok [p] := by
  obtain ⟨location, entries, hkey, honce⟩ := path
  have hlist : location.key ∉ LIST_TYPE := hkey ▸ by decide
  obtain ⟨entry, hparse⟩ := parse_entry_ok (hplain location List.mem_cons_self).mark
  obtain ⟨p₁, hadd, hp₁⟩ := Holds.init.add_entry hparse fun _ t ht => absurd ht List.not_mem_nil
  rw [List.filter_cons_of_pos (by simpa using hlist)] at honce
  obtain ⟨hfirst, honce⟩ := List.pairwise_cons.mp honce
  have hlocation : ∀ e ∈ entries, e.key ≠ "LOCATION".toList := by
    intro e he heq
    have hmem : e ∈ entries.filter fun e => e.key ∉ LIST_TYPE :=
      List.mem_filter.mpr ⟨he, by rw [heq]; decide⟩
    exact hfirst e hmem (hkey.trans heq.symm)
  have hnew : ∀ e ∈ entries, e.key ∉ LIST_TYPE → ∀ t ∈ [] ++ [(location.key, entry)], t.1 ≠ e.key := by
    intro e he hk t ht
    rw [List.mem_singleton.mp ht]
    exact hfirst e (List.mem_filter.mpr ⟨he, by simpa using hk⟩)
  obtain ⟨ts, p, hdisp, hp, hrun⟩ := parse_entries_some hp₁ (fun e he => hplain e (List.mem_cons_of_mem _ he))
    hlocation hnew honce
  refine ⟨(location.key, entry) :: ts, p, .cons ⟨rfl, hparse⟩ hdisp, hp, ?_⟩
  rw [FilePath.all, List.map_cons, FileEntry.pair, parse_entries_cons, if_pos hkey, hadd, ok_bind, hrun]
  rfl

/-- **The paths are parsed back** from their keys and values, in their order. -/
theorem parse_entries_paths {paths : List FilePath} (hplain : ∀ path ∈ paths, ∀ e ∈ path.all, e.Plain) :
    Begins ((paths.flatMap FilePath.all).map FileEntry.pair) ∧
      ∃ ps, parse_entries none ((paths.flatMap FilePath.all).map FileEntry.pair) = .ok ps ∧
        List.Forall₂ (fun path p => ∃ ts, Dispatched path.all ts ∧ Holds p ts) paths ps := by
  induction paths with
  | nil => exact ⟨fun e he => (nomatch he), [], rfl, .nil⟩
  | cons path paths ih =>
    obtain ⟨hbegins, ps, hrun, hps⟩ := ih fun path' h => hplain path' (List.mem_cons_of_mem _ h)
    obtain ⟨ts, p, hdisp, hp, hparse⟩ := path.parse_entries (hplain path List.mem_cons_self)
    rw [List.flatMap_cons, List.map_append]
    exact ⟨(begins_of_parse hparse).append hbegins, p :: ps, parse_entries_append hparse hbegins hrun,
      .cons ⟨ts, hdisp, hp⟩ hps⟩

/-! ### The whole file -/

/-- The lines of a spaced file of written entries are lines. -/
theorem Layout.newline_lines {f : Layout} (hf : f.Spaced) (hes : ∀ e ∈ f.entries, e.Written) : ∀ l ∈ f.lines, '\n' ∉ l := by
  intro l hl
  cases List.mem_append.mp hl with
  | inl hl =>
    obtain ⟨s, hs, hl⟩ := List.mem_flatMap.mp hl
    obtain hl | hl := List.mem_append.mp hl
    · exact (hf.before s hs l hl).1
    obtain rfl | hl := List.mem_cons.mp hl
    · exact newline_not_mem_opening
    obtain hl | hl := List.mem_append.mp hl
    · obtain ⟨e, he, hl⟩ := List.mem_flatMap.mp hl
      exact (hes e (List.mem_flatMap.mpr ⟨s, hs, he⟩)).newline l hl
    · rw [List.mem_singleton.mp hl]
      exact newline_not_mem_closing
  | inr hl => exact (hf.trailing l hl).1

/-- **An `.fss` file is parsed back.** Every layout of the entries of some paths, in sections with blank lines between
them, is parsed to these paths, in their order, with the entries of each; when no continuation line starts with `@` once
it is stripped, and calls and stores have a location mark. -/
theorem file_round_trip {f : Layout} {paths : List FilePath} (h : Printed f paths) (hplain : ∀ e ∈ f.entries, e.Plain)
    (hlen : f.text.length < 2 ^ 64) : ParsesBack f paths := by
  have hpath : ∀ path ∈ paths, ∀ e ∈ path.all, e.Plain := fun path hpath e he =>
    hplain e (h.entries ▸ List.mem_flatMap.mpr ⟨path, hpath, he⟩)
  have hfeed : _feeder ⟨false, none⟩ (_dual_open f.text 0 (2 ^ 64)) = f.entries.map FileEntry.pair := by
    rw [Layout.text, feeder_text (Layout.newline_lines h.spaced h.written) hlen]
    exact feeder_layout h.spaced fun e he => ⟨h.written e he, hplain e he⟩
  obtain ⟨-, ps, hrun, hps⟩ := parse_entries_paths hpath
  refine ⟨ps, ?_, hps⟩
  rw [parse_whole, parse_file, hfeed, h.entries]
  exact hrun

/-- A file of one path. -/
def FilePath.file (path : FilePath) : Layout := ⟨[([[]], path.all)], [[]]⟩

/-- A file of one path is printed when its entries are written. -/
theorem FilePath.printed_file (path : FilePath) (h : ∀ e ∈ path.all, e.Written) : Printed path.file [path] where
  spaced := ⟨by simp [FilePath.file, Layout.Blank, Str.strip, Str.lstrip, Str.rstrip], by
    simp [FilePath.file, Layout.Blank, Str.strip, Str.lstrip, Str.rstrip]⟩
  entries := rfl
  written := by
    intro e he
    rw [FilePath.file, Layout.entries, List.flatMap_singleton] at he
    exact h e he

/-- A path with a call on two lines. -/
def wrapped : FilePath where
  location := ⟨"LOCATION".toList, "a.c:1".toList, []⟩
  entries := [⟨"LOG_CALL".toList, "f(x,".toList, ["  y) @LOCATION: a.c:2".toList]⟩]
  key := rfl
  once := by decide

/-- It is parsed back. -/
theorem file_round_trip_wrapped : ParsesBack wrapped.file [wrapped] :=
  file_round_trip (wrapped.printed_file (by decide)) (by decide) (by decide)

/-- A path with a value that is continued by an indented `@`. -/
def indented : FilePath where
  location := ⟨"LOCATION".toList, "a.c:1".toList, []⟩
  entries := [⟨"RETURN".toList, "x".toList, ["  @y".toList]⟩]
  key := rfl
  once := by decide

/-- A path with a call that has no location. -/
def unmarked : FilePath where
  location := ⟨"LOCATION".toList, "a.c:1".toList, []⟩
  entries := [⟨"LOG_CALL".toList, "f(x)".toList, []⟩]
  key := rfl
  once := by decide

/-- The indented line is skipped, and the call without a location raises. -/
theorem not_file_round_trip :
    (Printed indented.file [indented] ∧ ¬ ParsesBack indented.file [indented]) ∧
      Printed unmarked.file [unmarked] ∧ ¬ ParsesBack unmarked.file [unmarked] := by
  refine ⟨⟨indented.printed_file (by decide), ?_⟩, unmarked.printed_file (by decide), ?_⟩
  · rintro ⟨ps, hparse, hps⟩
    have hread : parse_whole indented.file.text =
        .ok [⟨[("LOCATION".toList, .one (.text "a.c:1".toList)), ("RETURN".toList, .one (.text "x".toList))], []⟩] := by
      rfl
    rw [hread] at hparse
    cases hparse
    obtain ⟨ts, hdisp, hholds⟩ := (List.forall₂_cons.mp hps).1
    obtain ⟨t, ts₁, ⟨hlocation, -⟩, hdisp₁, rfl⟩ := List.forall₂_cons_left_iff.mp hdisp
    obtain ⟨t', ts₂, ⟨hreturn, hval⟩, -, rfl⟩ := List.forall₂_cons_left_iff.mp hdisp₁
    have hindex := hholds.others "RETURN".toList (by decide)
    have hentry : Entry.text "x@y".toList = t'.2 := Except.ok.inj hval
    have hne : t.1 ≠ "RETURN".toList := by
      rw [hlocation]
      decide
    rw [List.find?_cons_of_neg (by simpa using hne), List.find?_cons_of_pos (by rw [hreturn]; rfl), Option.map_some,
      ← hentry] at hindex
    exact absurd hindex (by decide)
  · rintro ⟨ps, hparse, -⟩
    have hread : parse_whole unmarked.file.text = .error .valueError := by rfl
    rw [hread] at hparse
    cases hparse

end SEDiff.Juxta
