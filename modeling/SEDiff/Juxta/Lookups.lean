import SEDiff.Juxta.PathBin

/-!
# Looking up functions

`PathBin.__getitem__` loads the pickle of a function the first time the function is looked up. The status of a function
stands in the place of its paths; a status of `@LOADING` makes the lookup try again.

## What is proved

* `getitem_known`, `getitem_missing` — what one lookup does in a database that has no function at `@LOADING`.
* `getitem_raised` — after an exception that is not an `IOError`, it tries again forever.
* `served_iff` — all lookups of a process return what they should exactly when no pickle that they load raises such an
  exception.
-/

namespace SEDiff.Juxta

open Foundation

variable {P : Type*}

/-- What `fn_dic` has of a function. -/
inductive Status (P : Type*)
  /-- `DIC_STATUS_LOADING`. -/
  | loading
  /-- `DIC_STATUS_ERROR`. -/
  | error
  /-- Its paths. -/
  | dic (rtn_dic : FuncDic P)

/-- How opening and reading a pickle ends. -/
inductive Reading (P : Type*)
  /-- The paths. -/
  | loaded (rtn_dic : FuncDic P)
  /-- An `IOError`. -/
  | ioError
  /-- Any other exception, such as that of a truncated pickle. -/
  | raised

/-! ### The source -/

namespace PathBin

/-- `__load_from_pickle`: its `finally` returns what `fn_dic` has, whatever was raised. -/
def load_from_pickle (fn_dic : Dict Str (Status P)) (func : Str) (reading : Reading P) :
    Dict Str (Status P) × Option (Status P) :=
  let fn_dic := fn_dic.put func .loading
  let fn_dic := match reading with
    | .loaded rtn_dic => fn_dic.put func (.dic rtn_dic)
    | .ioError => fn_dic.put func .error
    | .raised => fn_dic
  (fn_dic, fn_dic.get? func)

/-- `__getitem__`, with the number of turns that its loop may take; `reading` is how the load ends, if there is one. -/
def getitem (func : Str) (reading : Reading P) : ℕ → Dict Str (Status P) →
    Option (Dict Str (Status P) × Option (FuncDic P))
  | 0, _ => none
  | turns + 1, fn_dic =>
    let (fn_dic, dic) := match fn_dic.get? func with
      | none => load_from_pickle fn_dic func reading
      | some dic => (fn_dic, some dic)
    match dic with
    | some .loading => getitem func reading turns fn_dic
    | some (.dic rtn_dic) => some (fn_dic, some rtn_dic)
    | some .error => some (fn_dic, none)
    | none => some (fn_dic, none)

/-- A database that was parsed. -/
def parsed (db : Dict Str (FuncDic P)) : Dict Str (Status P) := db.map fun e => (e.1, .dic e.2)

end PathBin

open PathBin

/-! ### One lookup -/

/-- No function is left at `@LOADING`. -/
def NoneLoading (fn_dic : Dict Str (Status P)) : Prop := ∀ func, fn_dic.get? func ≠ some .loading

/-- What a function that is in the database is answered with. -/
def Status.answer : Status P → Option (FuncDic P)
  | .dic rtn_dic => some rtn_dic
  | .error => none
  | .loading => none

/-- What a load is answered with: its paths, or nothing when it fails. -/
def Reading.answer : Reading P → Option (FuncDic P)
  | .loaded rtn_dic => some rtn_dic
  | .ioError => none
  | .raised => none

/-- What a load that is not raised leaves. -/
def Reading.status : Reading P → Status P
  | .loaded rtn_dic => .dic rtn_dic
  | .ioError => .error
  | .raised => .loading

variable {fn_dic : Dict Str (Status P)} {func : Str} {reading : Reading P}

/-- A function that is there is not loaded. -/
theorem getitem_known {s : Status P} (hget : fn_dic.get? func = some s) (hs : s ≠ .loading) (turns : ℕ) :
    getitem func reading (turns + 1) fn_dic = some (fn_dic, s.answer) := by
  rw [getitem, hget]
  cases s with
  | loading => exact absurd rfl hs
  | error => rfl
  | dic rtn_dic => rfl

/-- A function at `@LOADING` is never answered. -/
theorem getitem_loading (hget : fn_dic.get? func = some .loading) (turns : ℕ) :
    getitem func reading turns fn_dic = none := by
  induction turns with
  | zero => rfl
  | succ turns ih =>
    rw [getitem, hget]
    exact ih

/-- What a load leaves of the function is what it returns. -/
theorem load_snd : (load_from_pickle fn_dic func reading).2 = some reading.status := by
  cases reading with
  | loaded rtn_dic => exact Dict.get?_put_self _ _ _
  | ioError => exact Dict.get?_put_self _ _ _
  | raised => exact Dict.get?_put_self _ _ _

theorem load_get?_self : (load_from_pickle fn_dic func reading).1.get? func = some reading.status := load_snd

/-- A load changes nothing of other functions. -/
theorem load_get?_of_ne {func' : Str} (hne : func' ≠ func) :
    (load_from_pickle fn_dic func reading).1.get? func' = fn_dic.get? func' := by
  have hput : (fn_dic.put func .loading).get? func' = fn_dic.get? func' := Dict.get?_put_of_ne _ _ hne
  cases reading with
  | loaded rtn_dic => exact (Dict.get?_put_of_ne _ _ hne).trans hput
  | ioError => exact (Dict.get?_put_of_ne _ _ hne).trans hput
  | raised => exact hput

/-- A function that is not there is loaded. -/
theorem getitem_missing (hget : fn_dic.get? func = none) (hreading : reading ≠ .raised) (turns : ℕ) :
    getitem func reading (turns + 1) fn_dic =
      some ((load_from_pickle fn_dic func reading).1, reading.answer) := by
  rw [getitem, hget]
  dsimp only
  rw [load_snd]
  cases reading with
  | loaded rtn_dic => rfl
  | ioError => rfl
  | raised => exact absurd rfl hreading

/-- **A load that raises** anything but an `IOError` is never answered. -/
theorem getitem_raised (hget : fn_dic.get? func = none) (turns : ℕ) : getitem func .raised turns fn_dic = none := by
  cases turns with
  | zero => rfl
  | succ turns =>
    rw [getitem, hget]
    dsimp only
    rw [load_snd]
    exact getitem_loading load_get?_self turns

/-- A load that does not raise leaves no function at `@LOADING`. -/
theorem NoneLoading.load (h : NoneLoading fn_dic) (hreading : reading ≠ .raised) :
    NoneLoading (load_from_pickle fn_dic func reading).1 := by
  intro func'
  by_cases hf : func' = func
  · rw [hf, load_get?_self]
    cases reading with
    | loaded rtn_dic => exact nofun
    | ioError => exact nofun
    | raised => exact absurd rfl hreading
  · rw [load_get?_of_ne hf]
    exact h func'

theorem noneLoading_parsed (db : Dict Str (FuncDic P)) : NoneLoading (parsed db) := by
  intro func
  induction db with
  | nil =>
    intro h
    cases h
  | cons e db ih =>
    rw [parsed, List.map_cons, Dict.get?]
    split_ifs with hf
    · intro h
      cases h
    · exact ih

theorem get?_parsed_eq_none {db : Dict Str (FuncDic P)} : (parsed db).get? func = none ↔ func ∉ db.keys := by
  have hkeys : (parsed db).keys = db.keys := by simp [parsed, Dict.keys]
  rw [← hkeys, ← Dict.get?_ne_none, not_not]

/-! ### All lookups of a process -/

/-- What a lookup should answer: what is known of the function, or else what its pickle holds. -/
def answer (fn_dic : Dict Str (Status P)) (func : Str) (reading : Reading P) : Option (FuncDic P) :=
  (fn_dic.get? func).elim reading.answer Status.answer

/-- Each lookup returns the answer that it should, and leaves no function at `@LOADING`. -/
def Served : Dict Str (Status P) → List (Str × Reading P) → Prop
  | _, [] => True
  | fn_dic, (func, reading) :: lookups => ∃ turns fn_dic', getitem func reading turns fn_dic =
      some (fn_dic', answer fn_dic func reading) ∧ NoneLoading fn_dic' ∧ Served fn_dic' lookups

/-- No load of these lookups raises anything but an `IOError`: only a function that neither `known` has nor was looked up
before is loaded. -/
def NoneRaised (known : Str → Prop) (lookups : List (Str × Reading P)) : Prop :=
  ∀ before e after, lookups = before ++ e :: after → ¬ known e.1 → e.1 ∉ before.map Prod.fst → e.2 ≠ .raised

/-- The first lookup, and the ones after it. -/
theorem noneRaised_cons {known : Str → Prop} {e : Str × Reading P} {lookups : List (Str × Reading P)} :
    NoneRaised known (e :: lookups) ↔
      (¬ known e.1 → e.2 ≠ .raised) ∧ NoneRaised (fun func => known func ∨ func = e.1) lookups := by
  constructor
  · refine fun h => ⟨fun hknown => h [] e lookups rfl hknown List.not_mem_nil, ?_⟩
    rintro before e' after rfl hknown hbefore
    rw [not_or] at hknown
    refine h (e :: before) e' after rfl hknown.1 ?_
    rw [List.map_cons, List.mem_cons, not_or]
    exact ⟨hknown.2, hbefore⟩
  · rintro ⟨hfirst, hrest⟩ before e' after heq hknown hbefore
    cases before with
    | nil =>
      obtain ⟨rfl, -⟩ := List.cons.inj heq
      exact hfirst hknown
    | cons b before =>
      obtain ⟨rfl, rfl⟩ := List.cons.inj heq
      rw [List.map_cons, List.mem_cons, not_or] at hbefore
      exact hrest before e' after rfl (not_or.mpr ⟨hknown, hbefore.1⟩) hbefore.2

/-- What a lookup leaves is known: what was, and the function that was looked up. -/
theorem load_known : (fun func' => (load_from_pickle fn_dic func reading).1.get? func' ≠ none) =
    fun func' => fn_dic.get? func' ≠ none ∨ func' = func := by
  funext func'
  by_cases hf : func' = func
  · simp [hf, load_get?_self]
  · rw [load_get?_of_ne hf]
    simp [hf]

/-- **The lookups of a process**, from a database that has no function at `@LOADING`. -/
theorem served_of_noneLoading_iff (h : NoneLoading fn_dic) (lookups : List (Str × Reading P)) :
    Served fn_dic lookups ↔ NoneRaised (fun func => fn_dic.get? func ≠ none) lookups := by
  induction lookups generalizing fn_dic with
  | nil => exact iff_of_true trivial fun before _ _ heq => absurd heq (by simp)
  | cons e lookups ih =>
    obtain ⟨func, reading⟩ := e
    rw [Served, noneRaised_cons]
    cases hget : fn_dic.get? func with
    | some s =>
      have hs : s ≠ .loading := fun hs => h func (hs ▸ hget)
      have hknown : (fun func' => fn_dic.get? func' ≠ none ∨ func' = func) = fun func' => fn_dic.get? func' ≠ none := by
        funext func'
        refine propext ⟨fun hf => hf.elim id ?_, .inl⟩
        rintro rfl
        simp [hget]
      have hanswer : answer fn_dic func reading = s.answer := by rw [answer, hget]; rfl
      rw [hknown, ← ih h, hanswer]
      constructor
      · rintro ⟨turns, fn_dic', hrun, -, hserved⟩
        cases turns with
        | zero => cases hrun
        | succ turns =>
          rw [getitem_known hget hs] at hrun
          cases hrun
          exact ⟨fun hnone => absurd (by simp) hnone, hserved⟩
      · exact fun hserved => ⟨1, fn_dic, getitem_known hget hs 0, h, hserved.2⟩
    | none =>
      have hanswer : answer fn_dic func reading = reading.answer := by rw [answer, hget]; rfl
      rw [hanswer]
      by_cases hreading : reading = .raised
      · refine iff_of_false ?_ fun hserved => hserved.1 (by simp) hreading
        rintro ⟨turns, fn_dic', hrun, -⟩
        rw [hreading, getitem_raised hget] at hrun
        cases hrun
      · rw [← @load_known P fn_dic func reading, ← ih (h.load hreading)]
        constructor
        · rintro ⟨turns, fn_dic', hrun, -, hserved⟩
          cases turns with
          | zero => cases hrun
          | succ turns =>
            rw [getitem_missing hget hreading] at hrun
            cases hrun
            exact ⟨fun _ => hreading, hserved⟩
        · exact fun hserved => ⟨1, _, getitem_missing hget hreading 0, h.load hreading, hserved.2⟩

/-- **The lookups of a process** return what they should exactly when no function's first lookup ends in an exception
that is not an `IOError`. -/
theorem served_iff (db : Dict Str (FuncDic P)) (lookups : List (Str × Reading P)) :
    Served (parsed db) lookups ↔ NoneRaised (· ∈ db.keys) lookups := by
  have hknown : (fun func => (parsed db).get? func ≠ none) = (· ∈ db.keys) := by
    funext func
    rw [ne_eq, get?_parsed_eq_none, not_not]
  rw [← hknown]
  exact served_of_noneLoading_iff (noneLoading_parsed db) lookups

/-- A truncated pickle. -/
theorem not_served : ¬ ∀ (db : Dict Str (FuncDic ℕ)) (lookups : List (Str × Reading ℕ)), Served (parsed db) lookups := by
  intro h
  obtain ⟨turns, fn_dic', hrun, -⟩ := h [] [("ext4_rename".toList, .raised)]
  rw [getitem_raised rfl] at hrun
  cases hrun

end SEDiff.Juxta
