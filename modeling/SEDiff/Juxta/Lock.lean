import SEDiff.Foundation.Steps
import SEDiff.Juxta.Path

/-!
# The lock checker

`lock.py`: a path's calls of lock and unlock functions are matched with a stack of the locks held and a stack
of the effects since the first of them. Both stacks are lists with the top first.

## What is proved

* `LockState.pop_locks_cases` — what the loop over the held locks does: it skips failed trylocks.
* `LockState.reclaim_append` — the loop over the entries stops at the lock.
* `LockState.unlock_cases` — what an unlock does to a state whose stacks agree.
-/

namespace SEDiff.Juxta

open Foundation

/-- `LOCKS`. -/
def LOCKS : Dict Str Str :=
  [("spin_lock", "spin_unlock"), ("spin_trylock", "spin_unlock"), ("mutex_lock", "mutex_unlock"),
    ("mutex_trylock", "mutex_unlock"), ("lock_page", "unlock_page"),
    ("reiserfs_write_lock", "reiserfs_write_unlock")].map fun p => (p.1.toList, p.2.toList)

/-- `is_lock`. -/
def is_lock (func : Str) : Prop := func ∈ LOCKS.keys

/-- `is_unlock`. -/
def is_unlock (func : Str) : Prop := func ∈ LOCKS.map Prod.snd

instance : DecidablePred is_lock := fun func => inferInstanceAs (Decidable (func ∈ LOCKS.keys))

instance : DecidablePred is_unlock := fun func => inferInstanceAs (Decidable (func ∈ LOCKS.map Prod.snd))

/-- `"try" in func`. -/
def is_try (func : Str) : Prop := "try".toList <:+: func

instance : DecidablePred is_try := fun func => inferInstanceAs (Decidable ("try".toList <:+: func))

/-- No function is both. -/
theorem not_is_unlock_of_is_lock {func : Str} (h : is_lock func) : ¬ is_unlock func := by
  have hall : ∀ l ∈ LOCKS.keys, l ∉ LOCKS.map Prod.snd := by decide
  exact hall func h

/-- A lock function has an unlock function. -/
theorem get?_locks_ne_none {func : Str} (h : is_lock func) : LOCKS.get? func ≠ none :=
  Dict.get?_ne_none.mpr h

/-- An object: entries of a path have no `__eq__`, so that two of them are equal when they are the same object. -/
structure Obj (α : Type*) where
  /-- Where it is. -/
  addr : ℕ
  /-- What is there. -/
  val : α
  deriving DecidableEq, Repr

/-- A call in a path. -/
abbrev Call := Obj PathCall

/-- An effect of a path. -/
inductive Effect
  /-- A `PathCall`. -/
  | call (c : Call)
  /-- Any other entry. -/
  | other (o : Obj Entry)
  deriving DecidableEq, Repr

/-- The call `func(arg)`. -/
def Effect.callOf (addr : ℕ) (func arg : String) : Effect := .call ⟨addr, func.toList, [arg.toList], []⟩

/-- `PathCall.__str__`. -/
def PathCall.str (c : PathCall) : Str := c.func ++ '(' :: List.intercalate [','] c.args ++ ')' :: '@' :: c.loc

/-- The note of an error. -/
inductive Note
  /-- A call. -/
  | call (c : Call)
  /-- A text. -/
  | text (s : Str)
  deriving DecidableEq, Repr

/-- `LockState`. -/
structure LockState where
  /-- Some lock was taken. -/
  ever_locked : Bool
  /-- The locks held. -/
  locks : List Call
  /-- The effects since the first of them. -/
  entries : List Effect
  /-- The kind and the note of the first error at each location. -/
  errs : Dict Str (Str × Note)
  deriving DecidableEq, Repr

attribute [ext] LockState

/-- `_cmp_args`. -/
def _cmp_args (args1 args2 : List Str) : Prop :=
  List.Forall₂ (fun a b => a = "0".toList ∨ b = "0".toList ∨ a = b) args1 args2

instance (args1 args2 : List Str) : Decidable (_cmp_args args1 args2) :=
  inferInstanceAs (Decidable (List.Forall₂ _ args1 args2))

/-- `_cmp_func`. -/
def _cmp_func (f g : PathCall) : Prop := f.func = g.func ∧ f.args = g.args

instance (f g : PathCall) : Decidable (_cmp_func f g) := inferInstanceAs (Decidable (_ ∧ _))

/-- What `check_if_paired` checks. -/
def paired (lock unlock : PathCall) : Prop :=
  LOCKS.get? lock.func = some unlock.func ∧ _cmp_args unlock.args lock.args

instance (lock unlock : PathCall) : Decidable (paired lock unlock) := inferInstanceAs (Decidable (_ ∧ _))

namespace LockState

/-- `LockState()`. -/
def init : LockState := ⟨false, [], [], []⟩

/-- `is_locked`. -/
def is_locked (s : LockState) : Prop := s.locks ≠ []

instance (s : LockState) : Decidable s.is_locked := inferInstanceAs (Decidable (s.locks ≠ []))

/-- `err`. -/
def err (s : LockState) (kind : Str) (note : Note) (loc : Str) : LockState :=
  if loc ∈ s.errs.keys then s else { s with errs := s.errs.put loc (kind, note) }

/-- `add`. -/
def add (s : LockState) (entry : Effect) : LockState := { s with entries := entry :: s.entries }

/-- `_check_double_locks`. -/
def _check_double_locks (s : LockState) (lock : Call) : Prop := ∃ l ∈ s.locks, _cmp_func lock.val l.val

instance (s : LockState) (lock : Call) : Decidable (s._check_double_locks lock) :=
  inferInstanceAs (Decidable (∃ l ∈ s.locks, _))

/-- The check of `lock`. -/
def taken (s : LockState) (lock : Call) : LockState :=
  if s._check_double_locks lock then s.err "double locking".toList (.call lock) lock.val.loc else s

/-- `lock`. -/
def lock (s : LockState) (lock : Call) : LockState :=
  let s := { s with ever_locked := true }.taken lock
  let s := if s.is_locked then s else { s with entries := .call lock :: s.entries }
  { s with locks := lock :: s.locks }

/-- `check_if_paired`. -/
def check_if_paired (s : LockState) (lock unlock : PathCall) : Bool × LockState :=
  match LOCKS.get? lock.func with
  | none => (false, s.err "unknown lock".toList (.text lock.str) lock.loc)
  | some pair => if pair ≠ unlock.func then (false, s) else (decide (_cmp_args unlock.args lock.args), s)

/-- The loop that pops `locks`: the lock it stops at. -/
def pop_locks (unlock : Call) : List Call → LockState → Except PyErr (Call × LockState)
  | [], _ => .error .indexError
  | lock :: locks, s =>
    let checked := { s with locks := locks }.check_if_paired lock.val unlock.val
    if checked.1 then .ok (lock, checked.2)
    else if is_try lock.val.func then pop_locks unlock locks checked.2
    else .ok (lock, checked.2.err "not paired".toList
      (.text (lock.val.str ++ " <-> ".toList ++ unlock.val.str)) unlock.val.loc)

/-- The loop that pops `entries`: the entries above the lock, and those below it. -/
def reclaim (lock : Call) : List Effect → List Effect × List Effect
  | [] => ([], [])
  | e :: entries =>
    if e = .call lock then ([], entries)
    else
      let r := reclaim lock entries
      (e :: r.1, r.2)

/-- Entries that are reported when they are reclaimed. -/
def found (e : Effect) : Prop :=
  match e with
  | .call c => is_lock c.val.func ∧ ¬ is_try c.val.func
  | .other _ => False

instance : DecidablePred found := fun e =>
  match e with
  | .call c => inferInstanceAs (Decidable (is_lock c.val.func ∧ ¬ is_try c.val.func))
  | .other _ => inferInstanceAs (Decidable False)

/-- `unlock`. -/
def unlock (s : LockState) (unlock : Call) : Except PyErr (Option (Call × List Effect × Call) × LockState) :=
  if s.locks = [] ∨ s.entries = [] then
    .ok (none, s.err "uncoordinated unlock".toList (.text unlock.val.str) unlock.val.loc)
  else do
    pyAssert (some (.call unlock) = s.entries.head?)
    let (lock, s) ← pop_locks unlock s.locks { s with entries := s.entries.tail }
    let (reclaimed, entries) := reclaim lock s.entries
    let s := reclaimed.foldl (fun s e => if found e then
      s.err "found unlocked lock %s".toList (.text lock.val.str) lock.val.loc else s) { s with entries := entries }
    return (some (lock, reclaimed, unlock), s)

end LockState

/-- What `collect` is called with. -/
structure Collected where
  /-- The lock. -/
  lock : Call
  /-- The effects that it protects. -/
  reclaimed : List Effect
  /-- The unlock. -/
  unlock : Call
  deriving DecidableEq, Repr

/-- The loop of `_grep`, with `protected`. -/
def grep_loop (beg fin : Effect) : List Effect → Bool → List Effect
  | [], _ => []
  | e :: stack, inside =>
    if e = beg then grep_loop beg fin stack true
    else if e = fin then []
    else if inside then e :: grep_loop beg fin stack inside
    else grep_loop beg fin stack inside

/-- `_grep`. -/
def _grep (beg : Effect) (stack : List Effect) (fin : Effect) : List Effect := grep_loop beg fin stack false

/-- The variables of `explore_path`, with the calls of `collect`. -/
structure Exploration where
  /-- `state`. -/
  state : LockState
  /-- The calls of `collect`. -/
  collected : List Collected
  deriving DecidableEq, Repr

namespace Exploration

/-- Before the loop. -/
def init : Exploration := ⟨LockState.init, []⟩

/-- The body of the loop over `path.effects`. -/
def visit (effects : List Effect) (x : Exploration) (e : Effect) : Except PyErr Exploration :=
  let state := if x.state.is_locked then x.state.add e else x.state
  match e with
  | .other _ => .ok { x with state := state }
  | .call c =>
    if is_lock c.val.func then .ok { x with state := state.lock c }
    else if is_unlock c.val.func then do
      let (found, state) ← state.unlock c
      match found with
      | some (lock, _, unlock) =>
        return ⟨state, x.collected ++ [⟨lock, _grep (.call lock) effects (.call unlock), unlock⟩]⟩
      | none => return { x with state := state }
    else .ok { x with state := state }

/-- After the loop. -/
def not_resolved (s : LockState) : LockState :=
  if 1 < s.locks.length then
    s.locks.reverse.foldl (fun s l => if is_try l.val.func then s else
      s.err "not resolved".toList (.text l.val.str) l.val.loc) s
  else s

end Exploration

/-- `explore_path`. -/
def explore_path (effects : List Effect) : Except PyErr Exploration := do
  let x ← effects.foldlM (Exploration.visit effects) Exploration.init
  return { x with state := Exploration.not_resolved x.state }

/-! ### One unlock -/

/-- The call of a lock function that an effect is. -/
def Effect.lock? : Effect → Option Call
  | .call c => if is_lock c.val.func then some c else none
  | .other _ => none

theorem Effect.lock?_eq_some {e : Effect} {c : Call} : e.lock? = some c ↔ e = .call c ∧ is_lock c.val.func := by
  cases e with
  | call c' =>
    rw [Effect.lock?]
    split_ifs with h
    · rw [Option.some_inj, Effect.call.injEq]
      exact ⟨fun heq => ⟨heq, heq ▸ h⟩, And.left⟩
    · exact iff_of_false nofun fun ⟨heq, hc⟩ => h (Effect.call.inj heq ▸ hc)
  | other o => exact iff_of_false nofun fun ⟨heq, _⟩ => nomatch heq

theorem Effect.lock?_call {c : Call} (h : is_lock c.val.func) : (Effect.call c).lock? = some c := if_pos h

theorem Effect.lock?_of_not {c : Call} (h : ¬ is_lock c.val.func) : (Effect.call c).lock? = none := if_neg h

/-- A held lock that an unlock takes for a failed trylock. -/
def Skipped (lock unlock : Call) : Prop := ¬ paired lock.val unlock.val ∧ is_try lock.val.func

instance (lock unlock : Call) : Decidable (Skipped lock unlock) := inferInstanceAs (Decidable (_ ∧ _))

namespace LockState

@[simp] theorem err_locks (s : LockState) (kind : Str) (note : Note) (loc : Str) :
    (s.err kind note loc).locks = s.locks := by
  rw [err]
  split_ifs <;> rfl

@[simp] theorem err_entries (s : LockState) (kind : Str) (note : Note) (loc : Str) :
    (s.err kind note loc).entries = s.entries := by
  rw [err]
  split_ifs <;> rfl

/-- After an error there is an error. -/
theorem err_errs_ne_nil (s : LockState) (kind : Str) (note : Note) (loc : Str) :
    (s.err kind note loc).errs ≠ [] := by
  intro h
  have hmem : loc ∈ (s.err kind note loc).errs.keys := by
    rw [err]
    split_ifs with hloc
    · exact hloc
    · exact Dict.mem_keys_put.mpr (.inr rfl)
  rw [h] at hmem
  cases hmem

@[simp] theorem err_ever_locked (s : LockState) (kind : Str) (note : Note) (loc : Str) :
    (s.err kind note loc).ever_locked = s.ever_locked := by
  rw [err]
  split_ifs <;> rfl

/-- `err` only looks at the errors. -/
theorem err_errs {s s' : LockState} (h : s'.errs = s.errs) (kind : Str) (note : Note) (loc : Str) :
    (s'.err kind note loc).errs = (s.err kind note loc).errs := by
  rw [err, err, h]
  split_ifs
  · exact h
  · rfl

/-- A lock of the table is never unknown. -/
theorem check_if_paired_of_is_lock {lock : PathCall} (h : is_lock lock.func) (s : LockState) (unlock : PathCall) :
    s.check_if_paired lock unlock = (decide (paired lock unlock), s) := by
  rw [check_if_paired]
  cases hpair : LOCKS.get? lock.func with
  | none => exact absurd hpair (get?_locks_ne_none h)
  | some pair =>
    dsimp only
    split_ifs with hne
    · have hnot : ¬ paired lock unlock := fun hp => hne (Option.some.inj (hpair.symm.trans hp.1))
      rw [decide_eq_false hnot]
    · have hiff : paired lock unlock ↔ _cmp_args unlock.args lock.args := by
        rw [paired, hpair, not_ne_iff.mp hne]
        exact and_iff_right rfl
      rw [decide_eq_decide.mpr hiff]

/-- The state when the loop over the held locks stops at `lock`. -/
def verdict (s : LockState) (lock unlock : Call) : LockState :=
  if paired lock.val unlock.val then s
  else s.err "not paired".toList (.text (lock.val.str ++ " <-> ".toList ++ unlock.val.str)) unlock.val.loc

/-- The loop over the held locks stops at the first one that is not taken for a failed trylock, and runs out of
locks when there is none. -/
theorem pop_locks_cases (unlock : Call) {locks : List Call} (hlocks : ∀ l ∈ locks, is_lock l.val.func)
    (s : LockState) :
    ((∀ l ∈ locks, Skipped l unlock) ∧ pop_locks unlock locks s = .error .indexError) ∨
      ∃ tries lock rest, locks = tries ++ lock :: rest ∧ (∀ l ∈ tries, Skipped l unlock) ∧
        ¬ Skipped lock unlock ∧
        pop_locks unlock locks s = .ok (lock, verdict { s with locks := rest } lock unlock) := by
  induction locks generalizing s with
  | nil => exact .inl ⟨nofun, rfl⟩
  | cons lock rest ih =>
    obtain ⟨hlock, hrest⟩ := List.forall_mem_cons.mp hlocks
    rw [pop_locks, check_if_paired_of_is_lock hlock]
    dsimp only
    by_cases hpaired : paired lock.val unlock.val
    · refine .inr ⟨[], lock, rest, rfl, nofun, fun h => h.1 hpaired, ?_⟩
      rw [if_pos (decide_eq_true hpaired), verdict, if_pos hpaired]
    · rw [if_neg (by simpa using hpaired)]
      by_cases htry : is_try lock.val.func
      · have hskip : Skipped lock unlock := ⟨hpaired, htry⟩
        rw [if_pos htry]
        obtain ⟨hall, hpop⟩ | ⟨tries, lock', rest', rfl, htries, hstop, hpop⟩ := ih hrest { s with locks := rest }
        · exact .inl ⟨List.forall_mem_cons.mpr ⟨hskip, hall⟩, hpop⟩
        · exact .inr ⟨lock :: tries, lock', rest', rfl, List.forall_mem_cons.mpr ⟨hskip, htries⟩, hstop, hpop⟩
      · refine .inr ⟨[], lock, rest, rfl, nofun, fun h => htry h.2, ?_⟩
        rw [if_neg htry, verdict, if_neg hpaired]

/-- The loop over the entries stops at the lock. -/
theorem reclaim_append {lock : Call} {above below : List Effect} (h : .call lock ∉ above) :
    reclaim lock (above ++ .call lock :: below) = (above, below) := by
  induction above with
  | nil => rw [List.nil_append, reclaim, if_pos rfl]
  | cons e above ih =>
    rw [List.mem_cons, not_or] at h
    rw [List.cons_append, reclaim, if_neg (Ne.symm h.1), ih h.2]

/-- The two stacks agree: the locks held are the calls of lock functions among the entries, and the first of the
entries is one of them. -/
structure Aligned (s : LockState) : Prop where
  /-- The locks held. -/
  locks : s.entries.filterMap Effect.lock? = s.locks
  /-- The first entry. -/
  base : ∀ e ∈ s.entries.getLast?, e.lock? ≠ none

theorem Aligned.entries_eq_nil {s : LockState} (hs : s.Aligned) : s.entries = [] ↔ s.locks = [] := by
  constructor
  · intro h
    rw [← hs.locks, h, List.filterMap_nil]
  · intro h
    by_contra hne
    have hlast := hs.base _ (List.getLast?_eq_some_getLast hne)
    have hnone := List.filterMap_eq_nil_iff.mp (hs.locks.trans h) _ (List.getLast_mem hne)
    exact hlast hnone

theorem Aligned.is_lock {s : LockState} (hs : s.Aligned) {l : Call} (hl : l ∈ s.locks) : is_lock l.val.func := by
  rw [← hs.locks] at hl
  obtain ⟨e, -, he⟩ := List.mem_filterMap.mp hl
  exact (Effect.lock?_eq_some.mp he).2

/-- The locks held are among the entries, in the same order. -/
theorem Aligned.sublist {s : LockState} (hs : s.Aligned) : (s.locks.map Effect.call).Sublist s.entries := by
  have hmap (es : List Effect) : ((es.filterMap Effect.lock?).map Effect.call).Sublist es := by
    induction es with
    | nil => exact .slnil
    | cons e es ih =>
      cases he : e.lock? with
      | none =>
        rw [List.filterMap_cons_none he]
        exact ih.cons e
      | some c =>
        obtain ⟨rfl, -⟩ := Effect.lock?_eq_some.mp he
        rw [List.filterMap_cons_some he]
        exact ih.cons_cons _
  rw [← hs.locks]
  exact hmap s.entries

theorem Aligned.init : init.Aligned := ⟨rfl, nofun⟩

/-- The entries of a stack of locks, cut at one of them. -/
theorem filterMap_lock?_eq_append {entries : List Effect} {tries rest : List Call} {lock : Call}
    (h : entries.filterMap Effect.lock? = tries ++ lock :: rest) :
    ∃ above below, entries = above ++ .call lock :: below ∧ above.filterMap Effect.lock? = tries ∧
      below.filterMap Effect.lock? = rest := by
  obtain ⟨above, below', rfl, habove, hbelow'⟩ := List.filterMap_eq_append_iff.mp h
  obtain ⟨between, e, below, rfl, hbetween, he, hbelow⟩ := List.filterMap_eq_cons_iff.mp hbelow'
  obtain ⟨rfl, -⟩ := Effect.lock?_eq_some.mp he
  refine ⟨above ++ between, below, by simp, ?_, hbelow⟩
  rw [List.filterMap_append, habove, List.filterMap_eq_nil_iff.mpr hbetween, List.append_nil]

/-- Reclaimed trylocks are not reported. -/
theorem foldl_found {reclaimed : List Effect} (h : ∀ e ∈ reclaimed, ¬ found e) (s : LockState) (f : LockState → LockState) :
    reclaimed.foldl (fun s e => if found e then f s else s) s = s := by
  induction reclaimed with
  | nil => rfl
  | cons e reclaimed ih =>
    obtain ⟨he, h⟩ := List.forall_mem_cons.mp h
    rw [List.foldl_cons, if_neg he, ih h]

/-- **An unlock** while locks are held: it goes down to the first lock that is not taken for a failed trylock, and
leaves what is below it on both stacks. When there is no such lock it raises. -/
theorem unlock_cases {s : LockState} (hs : s.Aligned) (hlocked : s.is_locked) (u : Call) :
    ((∀ l ∈ s.locks, Skipped l u) ∧ (s.add (.call u)).unlock u = .error .indexError) ∨
      ∃ tries lock rest above below, s.locks = tries ++ lock :: rest ∧ (∀ l ∈ tries, Skipped l u) ∧
        ¬ Skipped lock u ∧ s.entries = above ++ .call lock :: below ∧ below.filterMap Effect.lock? = rest ∧
        (s.add (.call u)).unlock u = .ok (some (lock, above, u),
          { s.verdict lock u with locks := rest, entries := below }) := by
  have hne : ¬ ((s.add (.call u)).locks = [] ∨ (s.add (.call u)).entries = []) := not_or.mpr ⟨hlocked, nofun⟩
  have hassert : pyAssert (some (.call u) = (s.add (.call u)).entries.head?) = .ok () := pyAssert_of_true rfl
  rw [unlock, if_neg hne, hassert, ok_bind]
  change _ ∧ pop_locks u s.locks s >>= _ = _ ∨ ∃ tries lock rest above below, _ ∧ _ ∧ _ ∧ _ ∧ _ ∧
    pop_locks u s.locks s >>= _ = _
  obtain ⟨hall, hpop⟩ | ⟨tries, lock, rest, hsplit, htries, hstop, hpop⟩ :=
    pop_locks_cases u (fun l => hs.is_lock (l := l)) s
  · refine .inl ⟨hall, ?_⟩
    rw [hpop]
    rfl
  · obtain ⟨above, below, hentries, habove, hbelow⟩ := filterMap_lock?_eq_append (hs.locks.trans hsplit)
    refine .inr ⟨tries, lock, rest, above, below, hsplit, htries, hstop, hentries, hbelow, ?_⟩
    -- the lock is not above itself, and all locks above it are trylocks
    have hnot : .call lock ∉ above := by
      intro hmem
      have hlock : is_lock lock.val.func := hs.is_lock (hsplit ▸ List.mem_append_right tries List.mem_cons_self)
      have : lock ∈ tries := habove ▸ List.mem_filterMap.mpr ⟨_, hmem, Effect.lock?_call hlock⟩
      exact hstop (htries lock this)
    have hfound : ∀ e ∈ above, ¬ found e := by
      intro e he hfound
      cases e with
      | other o => exact hfound
      | call c =>
        have : c ∈ tries := habove ▸ List.mem_filterMap.mpr ⟨_, he, Effect.lock?_call hfound.1⟩
        exact hfound.2 (htries c this).2
    have hverdict : verdict { s with locks := rest } lock u = { s.verdict lock u with locks := rest } := by
      rw [verdict, verdict]
      split_ifs
      · rfl
      · ext1
        · simp
        · simp
        · simp
        · exact @err_errs s { s with locks := rest } rfl _ _ _
    have hsame : (s.verdict lock u).entries = s.entries := by
      rw [verdict]
      split_ifs
      · rfl
      · exact err_entries s _ _ _
    rw [hpop, hverdict, ok_bind]
    dsimp only
    rw [hsame, hentries, reclaim_append hnot]
    dsimp only
    rw [foldl_found hfound]
    rfl

@[simp] theorem taken_ever_locked (s : LockState) (lock : Call) : (s.taken lock).ever_locked = s.ever_locked := by
  rw [taken]
  split_ifs
  · exact err_ever_locked s _ _ _
  · rfl

@[simp] theorem taken_locks (s : LockState) (lock : Call) : (s.taken lock).locks = s.locks := by
  rw [taken]
  split_ifs
  · exact err_locks s _ _ _
  · rfl

@[simp] theorem taken_entries (s : LockState) (lock : Call) : (s.taken lock).entries = s.entries := by
  rw [taken]
  split_ifs
  · exact err_entries s _ _ _
  · rfl

/-- `taken` only looks at the locks held and the errors. -/
theorem taken_errs {s s' : LockState} (hlocks : s'.locks = s.locks) (herrs : s'.errs = s.errs) (lock : Call) :
    (s'.taken lock).errs = (s.taken lock).errs := by
  have hiff : s'._check_double_locks lock ↔ s._check_double_locks lock := by
    rw [_check_double_locks, _check_double_locks, hlocks]
  by_cases hdouble : s._check_double_locks lock
  · rw [taken, taken, if_pos hdouble, if_pos (hiff.mpr hdouble)]
    exact err_errs herrs _ _ _
  · rw [taken, taken, if_neg hdouble, if_neg (mt hiff.mp hdouble)]
    exact herrs

/-- What `lock` does to each field. -/
theorem lock_fields (s : LockState) (c : Call) :
    (s.lock c).ever_locked = true ∧ (s.lock c).locks = c :: s.locks ∧
      (s.lock c).entries = (if s.is_locked then s.entries else .call c :: s.entries) ∧
      (s.lock c).errs = (s.taken c).errs := by
  rw [lock]
  dsimp only
  have hever : ({ s with ever_locked := true }.taken c).ever_locked = true := taken_ever_locked _ c
  have hlocks : ({ s with ever_locked := true }.taken c).locks = s.locks := taken_locks _ c
  have hentries : ({ s with ever_locked := true }.taken c).entries = s.entries := taken_entries _ c
  have herrs : ({ s with ever_locked := true }.taken c).errs = (s.taken c).errs :=
    @taken_errs s { s with ever_locked := true } rfl rfl c
  generalize { s with ever_locked := true }.taken c = t at *
  have hiff : t.is_locked ↔ s.is_locked := by rw [is_locked, is_locked, hlocks]
  by_cases hlocked : s.is_locked
  · rw [if_pos (hiff.mpr hlocked), if_pos hlocked]
    exact ⟨hever, congrArg _ hlocks, hentries, herrs⟩
  · rw [if_neg (mt hiff.mp hlocked), if_neg hlocked]
    exact ⟨hever, congrArg _ hlocks, congrArg _ hentries, herrs⟩

/-- A lock that is taken is pushed on both stacks. -/
theorem lock_eq (s : LockState) (c : Call) :
    (if s.is_locked then s.add (.call c) else s).lock c =
      { s.taken c with ever_locked := true, locks := c :: s.locks, entries := .call c :: s.entries } := by
  by_cases hlocked : s.is_locked
  · obtain ⟨hever, hlocks, hentries, herrs⟩ := lock_fields (s.add (.call c)) c
    rw [if_pos hlocked]
    refine LockState.ext hever hlocks (hentries.trans (if_pos hlocked)) (herrs.trans ?_)
    exact @taken_errs s (s.add (.call c)) rfl rfl c
  · obtain ⟨hever, hlocks, hentries, herrs⟩ := lock_fields s c
    rw [if_neg hlocked]
    exact LockState.ext hever hlocks (hentries.trans (if_neg hlocked)) herrs

end LockState

/-! ### One effect -/

namespace Exploration

open LockState

variable {effects : List Effect} {x : Exploration}

/-- Effects that are neither. -/
def Plain (e : Effect) : Prop :=
  match e with
  | .call c => ¬ is_lock c.val.func ∧ ¬ is_unlock c.val.func
  | .other _ => True

theorem visit_plain {e : Effect} (he : Plain e) :
    visit effects x e = .ok { x with state := if x.state.is_locked then x.state.add e else x.state } := by
  cases e with
  | other o => rfl
  | call c => rw [visit, if_neg he.1, if_neg he.2]

theorem visit_lock {c : Call} (hc : is_lock c.val.func) :
    visit effects x (.call c) = .ok { x with
      state := { x.state.taken c with
        ever_locked := true, locks := c :: x.state.locks, entries := .call c :: x.state.entries } } := by
  rw [visit, if_pos hc, lock_eq]

theorem visit_uncoordinated {u : Call} (hu : is_unlock u.val.func) (hfree : ¬ x.state.is_locked) :
    visit effects x (.call u) = .ok { x with
      state := x.state.err "uncoordinated unlock".toList (.text u.val.str) u.val.loc } := by
  have hnot : ¬ is_lock u.val.func := fun h => not_is_unlock_of_is_lock h hu
  have hempty : x.state.locks = [] ∨ x.state.entries = [] := .inl (not_ne_iff.mp hfree)
  rw [visit, if_neg hnot, if_pos hu, if_neg hfree, unlock, if_pos hempty]
  rfl

/-- An unlock while locks are held. -/
theorem visit_unlock (effects : List Effect) {x : Exploration} (hx : x.state.Aligned) {u : Call} (hu : is_unlock u.val.func) (hlocked : x.state.is_locked) :
    ((∀ l ∈ x.state.locks, Skipped l u) ∧ visit effects x (.call u) = .error .indexError) ∨
      ∃ tries lock rest above below, x.state.locks = tries ++ lock :: rest ∧ (∀ l ∈ tries, Skipped l u) ∧
        ¬ Skipped lock u ∧ x.state.entries = above ++ .call lock :: below ∧
        below.filterMap Effect.lock? = rest ∧
        visit effects x (.call u) = .ok
          ⟨{ x.state.verdict lock u with locks := rest, entries := below },
            x.collected ++ [⟨lock, _grep (.call lock) effects (.call u), u⟩]⟩ := by
  have hnot : ¬ is_lock u.val.func := fun h => not_is_unlock_of_is_lock h hu
  rw [visit, if_neg hnot, if_pos hu, if_pos hlocked]
  obtain ⟨hall, hun⟩ | ⟨tries, lock, rest, above, below, hsplit, htries, hstop, hentries, hbelow, hun⟩ :=
    unlock_cases hx hlocked u
  · rw [hun]
    exact .inl ⟨hall, rfl⟩
  · rw [hun]
    exact .inr ⟨tries, lock, rest, above, below, hsplit, htries, hstop, hentries, hbelow, rfl⟩

/-- The three kinds of effects. -/
theorem kinds (e : Effect) :
    Plain e ∨ (∃ c, e = .call c ∧ is_lock c.val.func) ∨ ∃ u, e = .call u ∧ is_unlock u.val.func := by
  cases e with
  | other o => exact .inl trivial
  | call c =>
    by_cases hlock : is_lock c.val.func
    · exact .inr (.inl ⟨c, rfl, hlock⟩)
    · by_cases hunlock : is_unlock c.val.func
      · exact .inr (.inr ⟨c, rfl, hunlock⟩)
      · exact .inl ⟨hlock, hunlock⟩

theorem lock?_plain {e : Effect} (he : Plain e) : e.lock? = none := by
  cases e with
  | other o => rfl
  | call c => exact Effect.lock?_of_not he.1

/-- **The stacks agree after every effect.** -/
theorem visit_aligned {e : Effect} {x' : Exploration} (hx : x.state.Aligned)
    (h : visit effects x e = .ok x') : x'.state.Aligned := by
  obtain he | ⟨c, rfl, hc⟩ | ⟨u, rfl, hu⟩ := kinds e
  · rw [visit_plain he] at h
    cases h
    by_cases hlocked : x.state.is_locked
    · rw [if_pos hlocked]
      refine ⟨?_, ?_⟩
      · exact (List.filterMap_cons_none (lock?_plain he)).trans hx.locks
      · show ∀ e' ∈ (e :: x.state.entries).getLast?, e'.lock? ≠ none
        rw [List.getLast?_cons_of_ne_nil (mt hx.entries_eq_nil.mp hlocked)]
        exact hx.base
    · rw [if_neg hlocked]
      exact hx
  · rw [visit_lock hc] at h
    cases h
    refine ⟨?_, ?_⟩
    · exact (List.filterMap_cons_some (Effect.lock?_call hc)).trans (congrArg _ hx.locks)
    · show ∀ e ∈ (Effect.call c :: x.state.entries).getLast?, e.lock? ≠ none
      cases hentries : x.state.entries with
      | nil =>
        intro e he
        obtain rfl := Option.mem_some_iff.mp he
        exact ne_of_eq_of_ne (Effect.lock?_call hc) (Option.some_ne_none c)
      | cons e entries =>
        rw [List.getLast?_cons_cons, ← hentries]
        exact hx.base
  · by_cases hlocked : x.state.is_locked
    · obtain ⟨-, hraise⟩ | ⟨tries, lock, rest, above, below, -, -, -, hentries, hbelow, hvisit⟩ :=
        visit_unlock effects hx hu hlocked
      · rw [hraise] at h
        cases h
      · rw [hvisit] at h
        cases h
        refine ⟨hbelow, fun e he => hx.base e ?_⟩
        rw [hentries]
        exact List.mem_getLast?_append_of_mem_getLast? (List.mem_getLast?_cons he)
    · rw [visit_uncoordinated hu hlocked] at h
      cases h
      exact ⟨by simpa using hx.locks, by simpa using hx.base⟩

/-- The stacks agree in every state that the loop reaches. -/
theorem run_aligned {pre : List Effect} (hrun : pre.foldlM (visit effects) init = .ok x) : x.state.Aligned :=
  run_inv (I := fun _ x => x.state.Aligned) Aligned.init
    (fun _ _ _ _ _ _ _ hx hvisit => visit_aligned hx hvisit) hrun

/-- The loop is at `x` after the effects `pre`. -/
structure Reaches (effects pre : List Effect) (x : Exploration) : Prop where
  /-- The first effects. -/
  isPrefix : pre <+: effects
  /-- The run. -/
  run : pre.foldlM (visit effects) init = .ok x

theorem Reaches.aligned {pre : List Effect} (h : Reaches effects pre x) : x.state.Aligned := run_aligned h.run

end Exploration

/-- The function returns when the loop gets to the end of the path. -/
theorem explore_path_eq_ok {effects : List Effect} {x : Exploration} : explore_path effects = .ok x ↔
    ∃ x', Exploration.Reaches effects effects x' ∧ x = { x' with state := Exploration.not_resolved x'.state } := by
  rw [explore_path, bind_eq_ok]
  constructor
  · rintro ⟨x', hrun, heq⟩
    exact ⟨x', ⟨List.prefix_refl effects, hrun⟩, (Except.ok.inj heq).symm⟩
  · rintro ⟨x', hreach, rfl⟩
    exact ⟨x', hreach.run, rfl⟩

end SEDiff.Juxta
