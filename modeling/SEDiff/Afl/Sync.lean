import Mathlib.Data.List.Nodup
import SEDiff.Afl.Trim
import SEDiff.Foundation.Steps

/-!
# Synchronization

Several fuzzers that share a directory. `sync_fuzzers` of one of them reads the queue directories of the others while
these go on: they create files, write and trim them. For each party a mark is kept of what was seen already.

## What is proved

* `imported_once` — over any interleaving a fuzzer runs a case of another one at most once, unless its file is unlinked
  while the directory is read, and never one of its own.
* `below_mark` — a case below the mark that was not run was missing or incomplete at some moment while its directory was
  read.
* `sync_complete` — what is complete while a directory is read has been run when the directory is closed, and not twice.
* `saturated` — a mark of a million stops all imports from that party.
-/

namespace SEDiff.Afl.Sync

open Foundation

/-! ### The parties -/

/-- A file in a queue directory, by its size; `none` where it was unlinked. -/
abbrev File := Option ℕ

/-- What `sync_fuzzers` runs: files that are neither zero-sized nor oversized. -/
def usable : Option File → Bool
  | some (some st_size) => st_size ≠ 0 && st_size ≤ MAX_FILE
  | _ => false

/-- `sscanf(name, "id:%06u", &syncing_case)` on the name of case `id`: at most six digits are read, and the name has more
of them from a million on. -/
def syncing_case (id : ℕ) : ℕ := if id < 1000000 then id else syncing_case (id / 10)
termination_by id

variable {ν : Type*}

/-- Where a fuzzer is in a queue directory. -/
structure Reading (ν : Type*) where
  /-- Whose directory it is. -/
  party : ν
  /-- The mark that was read. -/
  min_accept : ℕ
  /-- The mark to be written. -/
  next_min_accept : ℕ
  /-- The cases that `readdir` has returned, and will not return again: their files were not unlinked since. -/
  listed : List ℕ
  /-- The cases it is bound to return: their files were there all the time since `opendir`. -/
  pending : List ℕ

/-- A fuzzer. -/
structure Fuzzer (ν : Type*) where
  /-- Its queue directory, by number. -/
  queue : List File
  /-- The marks in `.synced`. -/
  synced : ν → ℕ
  /-- The queue directory that is open. -/
  reading : Option (Reading ν)
  /-- The cases it ran, each with its party. -/
  imported : List (ν × ℕ)
  /-- Ctrl-C pressed? -/
  stop_soon : Bool

/-- All of them, by name. -/
abbrev Fuzzers (ν : Type*) := ν → Fuzzer ν

/-- What one of them does. -/
inductive Event (ν : Type*)
  /-- It creates the file of a new case, still empty. -/
  | create (g : ν)
  /-- A file of its queue is written, unlinked or created again. -/
  | touch (g : ν) (k : ℕ) (file : File)
  /-- It opens the queue directory of another one, and reads the mark. -/
  | opendir (f g : ν)
  /-- The next file: it is run, unless it is below the mark, missing, zero-sized or oversized. -/
  | readdir (f : ν) (k : ℕ)
  /-- The end of the directory: the mark is written. -/
  | closedir (f : ν)
  /-- It stops; no mark is written. -/
  | stop (f : ν)
  deriving DecidableEq

namespace Fuzzer

/-- A case of `g` is not there any more: `readdir` may leave it out, and when the file is created again, return it again. -/
def lose [DecidableEq ν] (a : Fuzzer ν) (g : ν) (k : ℕ) : Fuzzer ν :=
  { a with reading := a.reading.map fun r =>
      if r.party = g then { r with listed := r.listed.filter (· ≠ k), pending := r.pending.filter (· ≠ k) } else r }

/-- The body of the loop over a queue directory. -/
def look (a : Fuzzer ν) (r : Reading ν) (k : ℕ) (file : Option File) : Fuzzer ν :=
  let r := { r with listed := k :: r.listed, pending := r.pending.filter (· ≠ k) }
  if syncing_case k < r.min_accept then { a with reading := some r }
  else
    let r :=
      if syncing_case k ≥ r.next_min_accept then { r with next_min_accept := syncing_case k + 1 } else r
    { a with
      reading := some r
      imported := if usable file then (r.party, k) :: a.imported else a.imported }

end Fuzzer

variable [DecidableEq ν]

/-- One event, where it can happen. -/
def step (s : Fuzzers ν) : Event ν → Option (Fuzzers ν)
  | .create g =>
    if (s g).stop_soon then none
    else some (Function.update s g { s g with queue := (s g).queue ++ [some 0] })
  | .touch g k file =>
    if k < (s g).queue.length then
      let s := Function.update s g { s g with queue := (s g).queue.set k file }
      some (if file = none then fun f => (s f).lose g k else s)
    else none
  | .opendir f g =>
    if f ≠ g ∧ !(s f).stop_soon ∧ (s f).reading.isNone then
      let pending := (List.range (s g).queue.length).filter fun k => (s g).queue[k]? ≠ some none
      some (Function.update s f { s f with reading := some ⟨g, (s f).synced g, (s f).synced g, [], pending⟩ })
    else none
  | .readdir f k =>
    match (s f).reading with
    | none => none
    | some r =>
      if k < (s r.party).queue.length ∧ k ∉ r.listed then
        some (Function.update s f ((s f).look r k (s r.party).queue[k]?))
      else none
  | .closedir f =>
    match (s f).reading with
    | none => none
    | some r =>
      if r.pending = [] then
        some (Function.update s f
          { s f with synced := Function.update (s f).synced r.party r.next_min_accept, reading := none })
      else none
  | .stop f => some (Function.update s f { s f with reading := none, stop_soon := true })

/-- A run. -/
def run (s : Fuzzers ν) (evs : List (Event ν)) : Option (Fuzzers ν) := evs.foldlM step s

/-- A fuzzer that starts, with any queue, and the marks of the session before. -/
def fresh (queue : List File) (synced : ν → ℕ) : Fuzzer ν := ⟨queue, synced, none, [], false⟩

/-- `f` is reading the queue of `g`. -/
def Reads (s : Fuzzers ν) (f g : ν) : Prop := ∃ r, (s f).reading = some r ∧ r.party = g

/-! ### What one fuzzer sees of a step -/

variable {s s' : Fuzzers ν} {f g : ν} {k : ℕ} {ev : Event ν} {marks : ν → ℕ}

/-- Nothing happens to `f`, except that files it reads get lost. -/
structure Quiet (s s' : Fuzzers ν) (f : ν) (ev : Event ν) : Prop where
  /-- The marks. -/
  synced : (s' f).synced = (s f).synced
  /-- The cases it ran. -/
  imported : (s' f).imported = (s f).imported
  /-- It goes on. -/
  stop_soon : (s' f).stop_soon = (s f).stop_soon
  /-- No directory is opened. -/
  idle : (s f).reading = none → (s' f).reading = none
  /-- The one that is open stays open. -/
  reading : ∀ r, (s f).reading = some r →
    ∃ listed pending, (s' f).reading = some { r with listed := listed, pending := pending } ∧ listed ⊆ r.listed ∧
      ∀ k, (k ∈ r.listed → k ∈ listed) ∧ (k ∈ r.pending → k ∈ pending) ∨
        ev = .touch r.party k none ∧ (s' r.party).queue[k]? = some none

/-- What a step does to `f`. -/
inductive Moves (s s' : Fuzzers ν) (f : ν) : Event ν → Prop
  /-- Nothing. -/
  | quiet {ev : Event ν} (h : Quiet s s' f ev) (hopen : ∀ g, ev ≠ .opendir f g) (hclose : ev ≠ .closedir f)
      (hstop : ev ≠ .stop f) : Moves s s' f ev
  /-- It opens a directory. -/
  | opens {g : ν} (hne : f ≠ g) (hstop : (s f).stop_soon = false) (hreading : (s f).reading = none)
      (h : s' = Function.update s f { s f with reading := some ⟨g, (s f).synced g, (s f).synced g, [],
        (List.range (s g).queue.length).filter fun k => (s g).queue[k]? ≠ some none⟩ }) : Moves s s' f (.opendir f g)
  /-- It looks at a file. -/
  | looks {r : Reading ν} {k : ℕ} (hr : (s f).reading = some r) (hk : k < (s r.party).queue.length)
      (hlisted : k ∉ r.listed) (h : s' = Function.update s f ((s f).look r k (s r.party).queue[k]?)) :
      Moves s s' f (.readdir f k)
  /-- It closes the directory. -/
  | closes {r : Reading ν} (hr : (s f).reading = some r) (hpending : r.pending = [])
      (h : s' = Function.update s f
        { s f with synced := Function.update (s f).synced r.party r.next_min_accept, reading := none }) :
      Moves s s' f (.closedir f)
  /-- It stops. -/
  | stops (h : s' = Function.update s f { s f with reading := none, stop_soon := true }) : Moves s s' f (.stop f)

/-- An event of another one that only changes what is its own. -/
theorem quiet_update {a : Fuzzer ν} (hf : f ≠ g) : Quiet s (Function.update s g a) f ev := by
  refine ⟨?_, ?_, ?_, ?_, ?_⟩ <;> rw [Function.update_of_ne hf]
  · exact id
  · intro r hr
    exact ⟨r.listed, r.pending, hr, List.Subset.refl _, fun k => .inl ⟨id, id⟩⟩

/-- The queue is all that changes. -/
theorem quiet_queue (queue : List File) : Quiet s (Function.update s g { s g with queue := queue }) f ev := by
  by_cases hf : f = g
  · subst hf
    refine ⟨?_, ?_, ?_, ?_, ?_⟩ <;> rw [Function.update_self]
    · exact id
    · intro r hr
      exact ⟨r.listed, r.pending, hr, List.Subset.refl _, fun k => .inl ⟨id, id⟩⟩
  · exact quiet_update hf

/-- A file gets lost. -/
theorem quiet_lose (hsame : ∀ h, (s' h) = (s h).lose g k) (hlost : (s' g).queue[k]? = some none) :
    Quiet s s' f (.touch g k none) := by
  refine ⟨?_, ?_, ?_, ?_, ?_⟩ <;> rw [hsame f, Fuzzer.lose]
  · intro hidle
    rw [hidle, Option.map_none]
  · intro r hr
    rw [hr, Option.map_some]
    split
    · rename_i hparty
      refine ⟨_, _, rfl, List.filter_subset_self _, fun j => ?_⟩
      by_cases hjk : j = k
      · right
        rw [hjk, hparty]
        exact ⟨rfl, hlost⟩
      · left
        have hkeep : ∀ js : List ℕ, j ∈ js → j ∈ js.filter (· ≠ k) := fun js hj =>
          List.mem_filter.mpr ⟨hj, decide_eq_true hjk⟩
        exact ⟨hkeep r.listed, hkeep r.pending⟩
    · exact ⟨r.listed, r.pending, rfl, List.Subset.refl _, fun j => .inl ⟨id, id⟩⟩

omit [DecidableEq ν] in
theorem Quiet.trans {s₁ s₂ s₃ : Fuzzers ν} (h₁ : Quiet s₁ s₂ f ev) (h₂ : Quiet s₂ s₃ f ev)
    (hkeep : ∀ (g : ν) (k : ℕ), (s₂ g).queue[k]? = some none → (s₃ g).queue[k]? = some none) : Quiet s₁ s₃ f ev := by
  refine ⟨h₂.synced.trans h₁.synced, h₂.imported.trans h₁.imported, h₂.stop_soon.trans h₁.stop_soon,
    fun h => h₂.idle (h₁.idle h), fun r hr => ?_⟩
  obtain ⟨l₁, p₁, hr₁, hl₁, hp₁⟩ := h₁.reading r hr
  obtain ⟨l₂, p₂, hr₂, hl₂, hp₂⟩ := h₂.reading _ hr₁
  refine ⟨l₂, p₂, hr₂, List.Subset.trans hl₂ hl₁, fun k => ?_⟩
  rcases hp₁ k with ⟨hlisted, hpending⟩ | ⟨hev, hk⟩
  · exact (hp₂ k).imp_left fun h => ⟨fun hk => h.1 (hlisted hk), fun hk => h.2 (hpending hk)⟩
  · exact .inr ⟨hev, hkeep _ _ hk⟩

/-- **One step**, for `f`. -/
theorem step_moves (h : step s ev = some s') (f : ν) : Moves s s' f ev := by
  cases ev with
  | create g =>
    simp only [step, Option.ite_none_left_eq_some, Option.some.injEq] at h
    obtain ⟨-, rfl⟩ := h
    exact .quiet (quiet_queue _) (by simp) (by simp) (by simp)
  | touch g k file =>
    simp only [step, Option.ite_none_right_eq_some, Option.some.injEq] at h
    obtain ⟨hk, rfl⟩ := h
    refine .quiet ?_ (by simp) (by simp) (by simp)
    by_cases hfile : file = none
    · subst hfile
      rw [if_pos rfl]
      have hlost : ((s g).queue.set k none)[k]? = some none := List.getElem?_set_self hk
      refine (quiet_queue ((s g).queue.set k none)).trans (quiet_lose (fun h => rfl) ?_) fun g' k' h => h
      show (Function.update s g _ g).queue[k]? = some none
      rwa [Function.update_self]
    · rw [if_neg hfile]
      exact quiet_queue _
  | opendir f' g =>
    simp only [step, Option.ite_none_right_eq_some, Option.some.injEq, Bool.not_eq_true', Option.isNone_iff_eq_none] at h
    obtain ⟨⟨hne, hstop, hidle⟩, rfl⟩ := h
    by_cases hf : f = f'
    · subst hf
      exact .opens hne hstop hidle rfl
    · exact .quiet (quiet_update hf) (fun g' h => hf (by cases h; rfl)) (by simp) (by simp)
  | readdir f' k =>
    simp only [step] at h
    split at h
    · cases h
    · rename_i r hr
      simp only [Option.ite_none_right_eq_some, Option.some.injEq] at h
      obtain ⟨⟨hk, hlisted⟩, rfl⟩ := h
      by_cases hf : f = f'
      · subst hf
        exact .looks hr hk hlisted rfl
      · exact .quiet (quiet_update hf) (by simp) (by simp) (by simp)
  | closedir f' =>
    simp only [step] at h
    split at h
    · cases h
    · rename_i r hr
      simp only [Option.ite_none_right_eq_some, Option.some.injEq] at h
      obtain ⟨hpending, rfl⟩ := h
      by_cases hf : f = f'
      · subst hf
        exact .closes hr hpending rfl
      · exact .quiet (quiet_update hf) (by simp) (fun h => hf (by cases h; rfl)) (by simp)
  | stop f' =>
    simp only [step, Option.some.injEq] at h
    subst h
    by_cases hf : f = f'
    · subst hf
      exact .stops rfl
    · exact .quiet (quiet_update hf) (by simp) (by simp) (fun h => hf (by cases h; rfl))

/-- Only what belongs to `f` changes, but not its queue. -/
theorem queue_update {a : Fuzzer ν} (ha : a.queue = (s f).queue) (g : ν) :
    (Function.update s f a g).queue = (s g).queue := by
  by_cases hg : g = f
  · rw [hg, Function.update_self, ha]
  · rw [Function.update_of_ne hg]

/-- Only its owner changes a queue. -/
theorem queue_eq (h : step s ev = some s') (hcreate : ev ≠ .create g) (htouch : ∀ k file, ev ≠ .touch g k file) :
    (s' g).queue = (s g).queue := by
  cases ev with
  | create g' =>
    have hg : g ≠ g' := fun hg => hcreate (by rw [hg])
    simp only [step, Option.ite_none_left_eq_some, Option.some.injEq] at h
    obtain ⟨-, rfl⟩ := h
    rw [Function.update_of_ne hg]
  | touch g' k file =>
    have hg : g ≠ g' := fun hg => htouch k file (by rw [hg])
    simp only [step, Option.ite_none_right_eq_some, Option.some.injEq] at h
    obtain ⟨-, rfl⟩ := h
    split <;> simp [Fuzzer.lose, Function.update_of_ne hg]
  | opendir f g' =>
    simp only [step, Option.ite_none_right_eq_some, Option.some.injEq] at h
    obtain ⟨-, rfl⟩ := h
    exact queue_update (by rfl) g
  | readdir f k =>
    simp only [step] at h
    split at h
    · cases h
    · rename_i r hr
      simp only [Option.ite_none_right_eq_some, Option.some.injEq] at h
      obtain ⟨-, rfl⟩ := h
      refine queue_update ?_ g
      rw [Fuzzer.look]
      dsimp only
      split <;> rfl
  | closedir f =>
    simp only [step] at h
    split at h
    · cases h
    · simp only [Option.ite_none_right_eq_some, Option.some.injEq] at h
      obtain ⟨-, rfl⟩ := h
      exact queue_update (by rfl) g
  | stop f =>
    simp only [step, Option.some.injEq] at h
    subst h
    exact queue_update (by rfl) g

/-- Queues only grow. -/
theorem length_queue_le (h : step s ev = some s') (g : ν) : (s g).queue.length ≤ (s' g).queue.length := by
  by_cases hcreate : ev = .create g
  · subst hcreate
    simp only [step, Option.ite_none_left_eq_some, Option.some.injEq] at h
    obtain ⟨-, rfl⟩ := h
    simp
  by_cases htouch : ∃ k file, ev = .touch g k file
  · obtain ⟨k, file, rfl⟩ := htouch
    simp only [step, Option.ite_none_right_eq_some, Option.some.injEq] at h
    obtain ⟨-, rfl⟩ := h
    split <;> simp [Fuzzer.lose]
  · rw [queue_eq h hcreate fun k file hev => htouch ⟨k, file, hev⟩]

/-! ### At most once -/

/-- What holds at all times of a fuzzer that started with these marks. -/
structure Ok (marks : ν → ℕ) (s : Fuzzers ν) (f : ν) : Prop where
  /-- It runs cases of others. -/
  others : ∀ g k, (g, k) ∈ (s f).imported → g ≠ f ∧ k < (s g).queue.length
  /-- The open directory is another one's, and read from the mark on. -/
  party : ∀ r, (s f).reading = some r →
    r.party ≠ f ∧ r.min_accept = (s f).synced r.party ∧ r.min_accept ≤ r.next_min_accept
  /-- What was returned is below the next mark. -/
  listed : ∀ r, (s f).reading = some r → ∀ k ∈ r.listed, syncing_case k < r.next_min_accept
  /-- Marks do not decrease. -/
  monotone : ∀ g, marks g ≤ (s f).synced g
  /-- Nothing is run that was below the mark at the start. -/
  since : ∀ g k, (g, k) ∈ (s f).imported → marks g ≤ syncing_case k
  /-- Nothing is open after a stop. -/
  stopped : (s f).stop_soon = true → (s f).reading = none
  /-- What was run is below the mark, or below the next one of the directory that is open. -/
  below : (s f).stop_soon = false → ∀ g k, (g, k) ∈ (s f).imported → syncing_case k < (s f).synced g ∨
    ∃ r, (s f).reading = some r ∧ r.party = g ∧ syncing_case k < r.next_min_accept

omit [DecidableEq ν] in
/-- What `look` does. -/
theorem look_cases (a : Fuzzer ν) (r : Reading ν) (k : ℕ) (file : Option File) :
    ∃ r', a.look r k file = { a with
        reading := some r'
        imported := if r.min_accept ≤ syncing_case k ∧ usable file then (r.party, k) :: a.imported else a.imported } ∧
      r'.party = r.party ∧ r'.min_accept = r.min_accept ∧ r'.listed = k :: r.listed ∧
      r'.pending = r.pending.filter (· ≠ k) ∧ r.next_min_accept ≤ r'.next_min_accept ∧
      (r.min_accept ≤ syncing_case k → syncing_case k < r'.next_min_accept) := by
  rw [Fuzzer.look]
  dsimp only
  by_cases hmin : syncing_case k < r.min_accept
  · rw [if_pos hmin, if_neg fun h => Nat.not_le_of_lt hmin h.1]
    exact ⟨_, rfl, rfl, rfl, rfl, rfl, Nat.le_refl _, fun h => absurd hmin (Nat.not_lt_of_le h)⟩
  · rw [if_neg hmin]
    simp only [Nat.le_of_not_lt hmin, true_and]
    split
    · rename_i hnext
      exact ⟨_, rfl, rfl, rfl, rfl, rfl, by dsimp only; omega, fun _ => Nat.lt_succ_self _⟩
    · exact ⟨_, rfl, rfl, rfl, rfl, rfl, Nat.le_refl _, fun _ => by dsimp only; omega⟩

omit [DecidableEq ν] in
/-- A fuzzer that reads a directory has not stopped. -/
theorem Ok.running (h : Ok marks s f) {r : Reading ν} (hr : (s f).reading = some r) : (s f).stop_soon = false := by
  rw [← Bool.not_eq_true]
  intro hs
  rw [h.stopped hs] at hr
  cases hr

/-- **The invariant** is kept by every step. -/
theorem Ok.step (h : Ok marks s f) (hstep : step s ev = some s') : Ok marks s' f := by
  have hlen := length_queue_le hstep
  cases step_moves hstep f with
  | quiet hq hopen hclose hstop =>
    have hback : ∀ r', (s' f).reading = some r' → ∃ listed pending, r'.listed ⊆ listed ∧
        (s f).reading = some { r' with listed := listed, pending := pending } := by
      intro r' hr'
      cases hr : (s f).reading with
      | none => exact absurd ((hq.idle hr).symm.trans hr') (Option.some_ne_none r').symm
      | some r =>
        obtain ⟨listed, pending, hr'', hsub, -⟩ := hq.reading r hr
        cases hr''.symm.trans hr'
        exact ⟨r.listed, r.pending, hsub, rfl⟩
    refine ⟨?_, ?_, ?_, ?_, ?_, ?_, ?_⟩
    · rw [hq.imported]
      exact fun g k hmem => ⟨(h.others g k hmem).1, Nat.lt_of_lt_of_le (h.others g k hmem).2 (hlen g)⟩
    · intro r' hr'
      obtain ⟨listed, pending, -, hr⟩ := hback r' hr'
      have hparty := h.party _ hr
      rw [hq.synced]
      exact hparty
    · intro r' hr' k hk
      obtain ⟨listed, pending, hsub, hr⟩ := hback r' hr'
      exact h.listed _ hr k (hsub hk)
    · rw [hq.synced]
      exact h.monotone
    · rw [hq.imported]
      exact h.since
    · rw [hq.stop_soon]
      exact fun hs => hq.idle (h.stopped hs)
    · rw [hq.stop_soon, hq.imported, hq.synced]
      intro hs g k hmem
      refine (h.below hs g k hmem).imp_right ?_
      rintro ⟨r, hr, hparty, hnext⟩
      obtain ⟨listed, pending, hr', -⟩ := hq.reading r hr
      exact ⟨_, hr', hparty, hnext⟩
  | @opens g hne hstop hreading hs' =>
    have hqueue : ∀ g', (s' g').queue = (s g').queue := hs' ▸ queue_update rfl
    subst hs'
    refine ⟨?_, ?_, ?_, ?_, ?_, ?_, ?_⟩
    · rw [Function.update_self]
      exact fun g k hmem => ⟨(h.others g k hmem).1, (hqueue g).symm ▸ (h.others g k hmem).2⟩
    · rw [Function.update_self]
      rintro r hr
      cases hr
      exact ⟨hne.symm, rfl, Nat.le_refl _⟩
    · rw [Function.update_self]
      rintro r hr k hk
      cases hr
      cases hk
    · rw [Function.update_self]
      exact h.monotone
    · rw [Function.update_self]
      exact h.since
    · rw [Function.update_self]
      intro hs
      rw [hstop] at hs
      cases hs
    · rw [Function.update_self]
      intro hs g' k hmem
      refine (h.below hs g' k hmem).imp_right ?_
      rintro ⟨r, hr, -⟩
      rw [hreading] at hr
      cases hr
  | @looks r k hr hk hlisted hs' =>
    obtain ⟨r', hlook, hparty, hmin, hlisted', -, hnext, hcase⟩ := look_cases (s f) r k (s r.party).queue[k]?
    obtain ⟨hother, hmark, hle⟩ := h.party r hr
    have hstop := h.running hr
    rw [hlook] at hs'
    have hqueue : ∀ g', (s' g').queue = (s g').queue := hs' ▸ queue_update rfl
    have hmem' : ∀ g' k', (g', k') ∈ (s' f).imported → (g', k') ∈ (s f).imported ∨
        r.min_accept ≤ syncing_case k ∧ g' = r.party ∧ k' = k := by
      intro g' k' hmem
      rw [hs', Function.update_self] at hmem
      dsimp only at hmem
      split at hmem
      · rename_i hacc
        rcases List.mem_cons.mp hmem with heq | hmem
        · cases heq
          exact .inr ⟨hacc.1, rfl, rfl⟩
        · exact .inl hmem
      · exact .inl hmem
    refine ⟨?_, ?_, ?_, ?_, ?_, ?_, ?_⟩
    · intro g' k' hmem
      rw [hqueue]
      rcases hmem' g' k' hmem with hmem | ⟨-, rfl, rfl⟩
      · exact h.others g' k' hmem
      · exact ⟨hother, hk⟩
    · intro r₁ hr₁
      rw [hs', Function.update_self] at hr₁ ⊢
      cases hr₁
      rw [hparty, hmin]
      exact ⟨hother, hmark, by omega⟩
    · intro r₁ hr₁ k' hk'
      rw [hs', Function.update_self] at hr₁
      cases hr₁
      rw [hlisted'] at hk'
      rcases List.mem_cons.mp hk' with rfl | hk'
      · by_cases hacc : r.min_accept ≤ syncing_case k'
        · exact hcase hacc
        · omega
      · have := h.listed r hr k' hk'
        omega
    · rw [hs', Function.update_self]
      exact h.monotone
    · intro g' k' hmem
      rcases hmem' g' k' hmem with hmem | ⟨hacc, rfl, rfl⟩
      · exact h.since g' k' hmem
      · have := h.monotone r.party
        omega
    · intro hs
      rw [hs', Function.update_self] at hs
      rw [hstop] at hs
      cases hs
    · intro _ g' k' hmem
      have hread : (s' f).reading = some r' := by rw [hs', Function.update_self]
      have hsynced : (s' f).synced = (s f).synced := by rw [hs', Function.update_self]
      rw [hsynced]
      rcases hmem' g' k' hmem with hmem | ⟨hacc, rfl, rfl⟩
      · refine (h.below hstop g' k' hmem).imp_right ?_
        rintro ⟨r₁, hr₁, hp, hlt⟩
        rw [hr] at hr₁
        cases hr₁
        exact ⟨r', hread, hparty.trans hp, by omega⟩
      · exact .inr ⟨r', hread, hparty, hcase hacc⟩
  | @closes r hr hpending hs' =>
    obtain ⟨hother, hmark, hle⟩ := h.party r hr
    have hstop := h.running hr
    have hqueue : ∀ g', (s' g').queue = (s g').queue := hs' ▸ queue_update rfl
    subst hs'
    refine ⟨?_, ?_, ?_, ?_, ?_, ?_, ?_⟩
    · rw [Function.update_self]
      exact fun g k hmem => ⟨(h.others g k hmem).1, (hqueue g).symm ▸ (h.others g k hmem).2⟩
    · rw [Function.update_self]
      rintro r hr
      cases hr
    · rw [Function.update_self]
      rintro r hr
      cases hr
    · rw [Function.update_self]
      intro g'
      dsimp only
      by_cases hg : g' = r.party
      · have := h.monotone r.party
        rw [hg, Function.update_self]
        omega
      · rw [Function.update_of_ne hg]
        exact h.monotone g'
    · rw [Function.update_self]
      exact h.since
    · rw [Function.update_self]
      exact fun _ => rfl
    · rw [Function.update_self]
      intro _ g' k' hmem
      left
      dsimp only
      have hbelow := h.below hstop g' k' hmem
      by_cases hg : g' = r.party
      · rw [hg] at hbelow ⊢
        rw [Function.update_self]
        rcases hbelow with hlt | ⟨r₁, hr₁, -, hlt⟩
        · omega
        · rw [hr] at hr₁
          cases hr₁
          exact hlt
      · rw [Function.update_of_ne hg]
        rcases hbelow with hlt | ⟨r₁, hr₁, hp, -⟩
        · exact hlt
        · rw [hr] at hr₁
          cases hr₁
          exact absurd hp.symm hg
  | stops hs' =>
    have hqueue : ∀ g', (s' g').queue = (s g').queue := hs' ▸ queue_update rfl
    subst hs'
    refine ⟨?_, ?_, ?_, ?_, ?_, ?_, ?_⟩
    · rw [Function.update_self]
      exact fun g k hmem => ⟨(h.others g k hmem).1, (hqueue g).symm ▸ (h.others g k hmem).2⟩
    · rw [Function.update_self]
      rintro r hr
      cases hr
    · rw [Function.update_self]
      rintro r hr
      cases hr
    · rw [Function.update_self]
      exact h.monotone
    · rw [Function.update_self]
      exact h.since
    · rw [Function.update_self]
      exact fun _ => rfl
    · rw [Function.update_self]
      intro hs
      cases hs

/-- All fuzzers start, with these queues and marks. -/
def start (queue : ν → List File) (marks : ν → ν → ℕ) : Fuzzers ν := fun g => fresh (queue g) (marks g)

omit [DecidableEq ν] in
theorem Ok.init (queue : ν → List File) (marks : ν → ν → ℕ) (f : ν) : Ok (marks f) (Sync.start queue marks) f := by
  refine ⟨?_, ?_, ?_, fun g => Nat.le_refl _, ?_, fun _ => rfl, ?_⟩
  · intro g k hmem
    cases hmem
  · intro r hr
    cases hr
  · intro r hr
    cases hr
  · intro g k hmem
    cases hmem
  · intro _ g k hmem
    cases hmem

theorem Ok.run {s₀ : Fuzzers ν} (h : Ok marks s₀ f) {evs : List (Event ν)} (hrun : run s₀ evs = some s) : Ok marks s f :=
  @run_inv_some _ _ _ s₀ (fun _ s => Ok marks s f) h (fun _ _ _ _ _ hok hstep => hok.step hstep) evs s hrun

/-- The file of case `k` of `g` was unlinked while `f` was reading the directory. -/
def Unlinked (s₀ : Fuzzers ν) (evs : List (Event ν)) (f g : ν) (k : ℕ) : Prop :=
  ∃ pre post s₁, evs = pre ++ .touch g k none :: post ∧ run s₀ pre = some s₁ ∧ Reads s₁ f g

theorem Unlinked.concat {s₀ : Fuzzers ν} {evs : List (Event ν)} (h : Unlinked s₀ evs f g k) (ev : Event ν) :
    Unlinked s₀ (evs ++ [ev]) f g k := by
  obtain ⟨pre, post, s₁, rfl, hrun, hread⟩ := h
  exact ⟨pre, post ++ [ev], s₁, by simp, hrun, hread⟩

/-- While its file is not unlinked, `f` does not run the case any more. -/
def Done (s : Fuzzers ν) (f g : ν) (k : ℕ) : Prop :=
  (s f).stop_soon = true ∨ syncing_case k < (s f).synced g ∨
    ∃ r, (s f).reading = some r ∧ r.party = g ∧ k ∈ r.listed

/-- `f` has run the case fewer than `n` times, or `n` times and is done with it. -/
def Spent (s : Fuzzers ν) (f g : ν) (k n : ℕ) : Prop :=
  (s f).imported.count (g, k) < n ∨ (s f).imported.count (g, k) = n ∧ Done s f g k

/-- A step that runs nothing. -/
theorem Spent.of_imported {n : ℕ} (h : Spent s f g k n) (himported : (s' f).imported = (s f).imported)
    (hdone : Done s f g k → Done s' f g k) : Spent s' f g k n := by
  rw [Spent, himported]
  exact h.imp_right fun h => ⟨h.1, hdone h.2⟩

/-- **One step**: the case is run when `f` is not done with it, and then it is. -/
theorem Spent.step {n : ℕ} (hok : Ok marks s f) (h : Spent s f g k n) (hstep : step s ev = some s')
    (hthere : ev = .touch g k none → ¬ Reads s f g) : Spent s' f g k n := by
  cases step_moves hstep f with
  | quiet hq hopen hclose hstop =>
    refine h.of_imported hq.imported fun hdone => ?_
    rw [Done, hq.stop_soon, hq.synced]
    refine hdone.imp_right (Or.imp_right ?_)
    rintro ⟨r, hr, hparty, hin⟩
    obtain ⟨listed, pending, hr', -, hkeep⟩ := hq.reading r hr
    rcases hkeep k with ⟨hlisted, -⟩ | ⟨hev, -⟩
    · exact ⟨_, hr', hparty, hlisted hin⟩
    · exact absurd ⟨r, hr, hparty⟩ (hthere (hparty ▸ hev))
  | @opens g' hne hstop hreading hs' =>
    subst hs'
    refine h.of_imported (by rw [Function.update_self]) fun hdone => ?_
    rw [Done, Function.update_self]
    refine hdone.imp_right (Or.imp_right ?_)
    rintro ⟨r, hr, -⟩
    rw [hreading] at hr
    cases hr
  | @looks r j hr hj hlisted hs' =>
    obtain ⟨r', hlook, hparty', -, hlisted', -⟩ := look_cases (s f) r j (s r.party).queue[j]?
    obtain ⟨-, hmark, -⟩ := hok.party r hr
    rw [hlook] at hs'
    have hdone : Done s f g k ∨ r.party = g ∧ j = k → Done s' f g k := by
      rw [Done, Done, hs', Function.update_self]
      rintro ((hstop | hlt | ⟨r₁, hr₁, hp, hin⟩) | ⟨hp, rfl⟩)
      · exact .inl hstop
      · exact .inr (.inl hlt)
      · rw [hr] at hr₁
        cases hr₁
        exact .inr (.inr ⟨r', rfl, hparty'.trans hp, hlisted' ▸ List.mem_cons_of_mem _ hin⟩)
      · exact .inr (.inr ⟨r', rfl, hparty'.trans hp, hlisted' ▸ List.mem_cons_self⟩)
    have himported : (s' f).imported =
        if r.min_accept ≤ syncing_case j ∧ usable (s r.party).queue[j]? then (r.party, j) :: (s f).imported
        else (s f).imported := by rw [hs', Function.update_self]
    split at himported
    · rename_i hacc
      by_cases hthis : r.party = g ∧ j = k
      · -- it is run: it was not below the mark, nor was it returned before
        have hnot : ¬ Done s f g k := by
          obtain ⟨rfl, rfl⟩ := hthis
          rintro (hstop | hlt | ⟨r₁, hr₁, -, hin⟩)
          · rw [hok.running hr] at hstop
            cases hstop
          · omega
          · rw [hr] at hr₁
            cases hr₁
            exact hlisted hin
        have hcount : (s' f).imported.count (g, k) = (s f).imported.count (g, k) + 1 := by
          rw [himported, hthis.1, hthis.2, List.count_cons_self]
        have hlt := h.resolve_right fun h => hnot h.2
        rw [Spent, hcount]
        rcases Nat.lt_or_eq_of_le hlt with hlt | heq
        · exact .inl hlt
        · exact .inr ⟨heq, hdone (.inr hthis)⟩
      · have hcount : (s' f).imported.count (g, k) = (s f).imported.count (g, k) := by
          rw [himported, List.count_cons_of_ne fun heq => hthis (Prod.mk.injEq .. ▸ heq)]
        rw [Spent, hcount]
        exact h.imp_right fun h => ⟨h.1, hdone (.inl h.2)⟩
    · exact h.of_imported himported fun h => hdone (.inl h)
  | @closes r hr hpending hs' =>
    obtain ⟨-, hmark, hle⟩ := hok.party r hr
    have hlisted := hok.listed r hr
    have hrunning := hok.running hr
    subst hs'
    refine h.of_imported (by rw [Function.update_self]) fun hdone => ?_
    rw [Done, Function.update_self]
    refine .inr (.inl ?_)
    dsimp only
    rcases hdone with hstop | hlt | ⟨r₁, hr₁, hp, hin⟩
    · rw [hrunning] at hstop
      cases hstop
    · by_cases hg : g = r.party
      · rw [hg, Function.update_self]
        rw [hg] at hlt
        omega
      · rwa [Function.update_of_ne hg]
    · rw [hr] at hr₁
      cases hr₁
      rw [← hp, Function.update_self]
      exact hlisted k hin
  | stops hs' =>
    subst hs'
    refine h.of_imported (by rw [Function.update_self]) fun _ => .inl ?_
    rw [Function.update_self]

theorem Spent.run {s₀ : Fuzzers ν} {n : ℕ} (hok : Ok marks s₀ f) (h : Spent s₀ f g k n) {evs : List (Event ν)}
    (hrun : Sync.run s₀ evs = some s) (hthere : ¬ Unlinked s₀ evs f g k) : Spent s f g k n := by
  have hinv := @run_inv_some _ _ _ s₀ (fun evs s => ¬ Unlinked s₀ evs f g k → Spent s f g k n) (fun _ => h) ?_ evs s hrun
  · exact hinv hthere
  · intro pre ev s₁ s₂ hpre ih hstep hthere
    refine (ih fun hgone => hthere (hgone.concat ev)).step (hok.run hpre) hstep ?_
    rintro rfl hread
    exact hthere ⟨pre, [], s₁, rfl, hpre, hread⟩

/-- **At most once, and never its own**: over every interleaving of what the fuzzers do, nor what an earlier session is
done with. A case that is run again was unlinked while its directory was being read. -/
theorem imported_once (queue : ν → List File) (marks : ν → ν → ℕ) (evs : List (Event ν)) (s : Fuzzers ν)
    (hrun : run (start queue marks) evs = some s) (f g : ν) (k : ℕ) (hmem : (g, k) ∈ (s f).imported) :
    g ≠ f ∧ k < (s g).queue.length ∧ marks f g ≤ syncing_case k ∧
      ((s f).imported.count (g, k) = 1 ∨ Unlinked (start queue marks) evs f g k) := by
  have hinit := Ok.init queue marks f
  have hok := hinit.run hrun
  obtain ⟨hother, hlt⟩ := hok.others g k hmem
  refine ⟨hother, hlt, hok.since g k hmem, ?_⟩
  by_cases hgone : Unlinked (start queue marks) evs f g k
  · exact .inr hgone
  · have hspent : Spent s f g k 1 := Spent.run hinit (.inl Nat.zero_lt_one) hrun hgone
    have hpos := List.count_pos_iff.mpr hmem
    rcases hspent with hcount | ⟨hcount, -⟩
    · omega
    · exact .inl hcount

/-- Fuzzer `true` has a case, fuzzer `false` has none. -/
def one_case : Bool → List File
  | true => [some 5]
  | false => []

/-- The two of them, when no session was before. -/
def pair : Fuzzers Bool := start one_case fun _ _ => 0

/-- The second one reads the directory of the first one. -/
def round : List (Event Bool) := [.opendir false true, .readdir false 0, .closedir false]

/-- It runs the case. -/
theorem run_round : ∃ s, run pair round = some s ∧ (s false).imported = [(true, 0)] ∧ (s false).synced true = 1 := by
  have hcase : syncing_case 0 = 0 := by
    rw [syncing_case, if_pos (by omega)]
  refine ⟨_, rfl, ?_, ?_⟩
  · simp [Fuzzer.look, hcase, usable, MAX_FILE, start, pair, one_case, fresh]
  · simp [Fuzzer.look, hcase, start, pair, one_case, fresh]

theorem imported_once_round : ∃ s, run pair round = some s ∧ (true, 0) ∈ (s false).imported ∧
    (true ≠ false ∧ 0 < (s true).queue.length ∧ 0 ≤ syncing_case 0 ∧
      ((s false).imported.count (true, 0) = 1 ∨ Unlinked pair round false true 0)) := by
  obtain ⟨s, hs, himported, -⟩ := run_round
  have hmem : (true, 0) ∈ (s false).imported := by simp [himported]
  exact ⟨s, hs, hmem, imported_once one_case (fun _ _ => 0) round s hs false true 0 hmem⟩

/-- The file is trimmed while the directory is read, and returned again. -/
example : ∃ s, run pair [.opendir false true, .readdir false 0, .touch true 0 none, .touch true 0 (some 4),
    .readdir false 0] = some s ∧ (s false).imported = [(true, 0), (true, 0)] := by
  have hcase : syncing_case 0 = 0 := by
    rw [syncing_case, if_pos (by omega)]
  exact ⟨_, rfl, by simp [Fuzzer.look, Fuzzer.lose, hcase, usable, MAX_FILE, start, pair, one_case, fresh]⟩

/-! ### Nothing is lost but what is not there -/

/-- `f` has read the directory of `g` at a moment when the file of case `k` was missing or incomplete. -/
def PassedOver (s₀ : Fuzzers ν) (evs : List (Event ν)) (f g : ν) (k : ℕ) : Prop :=
  ∃ pre post s₁, evs = pre ++ post ∧ run s₀ pre = some s₁ ∧ Reads s₁ f g ∧ usable (s₁ g).queue[k]? = false

theorem PassedOver.concat {s₀ : Fuzzers ν} {evs : List (Event ν)} (h : PassedOver s₀ evs f g k) (ev : Event ν) :
    PassedOver s₀ (evs ++ [ev]) f g k := by
  obtain ⟨pre, post, s₁, rfl, hrun, hread, husable⟩ := h
  exact ⟨pre, post ++ [ev], s₁, List.append_assoc pre post [ev], hrun, hread, husable⟩

/-- Where a case stands whose file was there whenever `f` read the directory. -/
structure Tracked (s : Fuzzers ν) (f g : ν) (k : ℕ) : Prop where
  /-- Below the mark, it was run. -/
  below : k < (s f).synced g → (g, k) ∈ (s f).imported
  /-- In an open directory it is still to come, or it was run. -/
  reading : ∀ r, (s f).reading = some r → r.party = g →
    (k ∉ r.listed → k ∈ r.pending) ∧ (k ∈ r.listed → k < r.next_min_accept ∧ (g, k) ∈ (s f).imported)

theorem syncing_case_of_lt (hk : k < 1000000) : syncing_case k = k := by
  rw [syncing_case, if_pos hk]

/-- A file that is not there is not usable. -/
theorem usable_missing : usable (some none) = false := rfl

omit [DecidableEq ν] in
/-- **One step** of a case: `hs` and `hs'` say that its file is there while the directory is read. -/
theorem Tracked.step [DecidableEq ν] (hk : k < 1000000) (hok : Ok marks s f) (h : Tracked s f g k) (hstep : step s ev = some s')
    (hs : Reads s f g → usable (s g).queue[k]? = true) (hs' : Reads s' f g → usable (s' g).queue[k]? = true) :
    Tracked s' f g k := by
  cases step_moves hstep f with
  | quiet hq hopen hclose hstop =>
    refine ⟨?_, ?_⟩
    · rw [hq.synced, hq.imported]
      exact h.below
    · intro r' hr' hparty
      cases hr : (s f).reading with
      | none => exact absurd ((hq.idle hr).symm.trans hr') (Option.some_ne_none r').symm
      | some r =>
        obtain ⟨listed, pending, hr'', hsub, hkeep⟩ := hq.reading r hr
        cases hr''.symm.trans hr'
        obtain ⟨htocome, hdone⟩ := h.reading r hr hparty
        rw [hq.imported]
        rcases hkeep k with ⟨hlisted, hpending⟩ | ⟨-, hmissing⟩
        · exact ⟨fun hnot => hpending (htocome fun hin => hnot (hlisted hin)), fun hin => hdone (hsub hin)⟩
        · have husable := hs' ⟨_, hr', hparty⟩
          rw [← hparty] at husable
          rw [hmissing, usable_missing] at husable
          cases husable
  | @opens g' hne hstop hreading hs₁ =>
    have hqueue : ∀ g', (s' g').queue = (s g').queue := hs₁ ▸ queue_update rfl
    have husable : g' = g → usable (s g).queue[k]? = true := by
      intro hg
      have hread : ∃ r, (s' f).reading = some r ∧ r.party = g' := by
        rw [hs₁, Function.update_self]
        exact ⟨_, rfl, rfl⟩
      rw [← hqueue g]
      rw [hg] at hread
      exact hs' hread
    subst hs₁
    refine ⟨?_, ?_⟩ <;> rw [Function.update_self]
    · exact h.below
    · intro r hr hparty
      cases hr
      dsimp only at hparty ⊢
      have hfile := husable hparty
      refine ⟨fun _ => ?_, fun hin => absurd hin List.not_mem_nil⟩
      rw [List.mem_filter, List.mem_range, decide_eq_true_eq, hparty]
      refine ⟨?_, fun hmissing => ?_⟩
      · by_contra hlen
        rw [List.getElem?_eq_none (Nat.le_of_not_lt hlen)] at hfile
        cases hfile
      · rw [hmissing, usable_missing] at hfile
        cases hfile
  | @looks r j hr hj hlisted hs₁ =>
    obtain ⟨r', hlook, hparty', hmin, hlisted', hpending, hnext, hcase⟩ := look_cases (s f) r j (s r.party).queue[j]?
    obtain ⟨-, hmark, hle⟩ := hok.party r hr
    rw [hlook] at hs₁
    have hkeep : ∀ g' k', (g', k') ∈ (s f).imported → (g', k') ∈ (s' f).imported := by
      intro g' k' hmem
      rw [hs₁, Function.update_self]
      dsimp only
      split
      · exact List.mem_cons_of_mem _ hmem
      · exact hmem
    refine ⟨?_, ?_⟩
    · intro hbelow
      refine hkeep g k (h.below ?_)
      rwa [hs₁, Function.update_self] at hbelow
    · intro r₁ hr₁ hparty
      rw [hs₁, Function.update_self] at hr₁
      cases hr₁
      rw [hparty'] at hparty
      obtain ⟨htocome, hdone⟩ := h.reading r hr hparty
      rw [hlisted', hpending]
      refine ⟨fun hnot => ?_, fun hin => ?_⟩
      · rw [List.mem_cons, not_or] at hnot
        rw [List.mem_filter]
        exact ⟨htocome hnot.2, decide_eq_true hnot.1⟩
      · rcases List.mem_cons.mp hin with heq | hin
        · -- this is the file: it is run, unless it is below the mark
          subst heq
          by_cases hmark' : r.min_accept ≤ syncing_case k
          · refine ⟨by rw [← syncing_case_of_lt hk]; exact hcase hmark', ?_⟩
            have husable := hs ⟨r, hr, hparty⟩
            rw [hs₁, Function.update_self]
            dsimp only
            rw [hparty, if_pos ⟨hmark', husable⟩]
            exact List.mem_cons_self
          · rw [syncing_case_of_lt hk] at hmark'
            refine ⟨by omega, hkeep g k (h.below ?_)⟩
            rw [← hparty, ← hmark]
            omega
        · obtain ⟨hlt, hmem⟩ := hdone hin
          exact ⟨by omega, hkeep g k hmem⟩
  | @closes r hr hpending hs₁ =>
    subst hs₁
    refine ⟨?_, ?_⟩ <;> rw [Function.update_self]
    · dsimp only
      intro hbelow
      by_cases hparty : r.party = g
      · obtain ⟨htocome, hdone⟩ := h.reading r hr hparty
        rw [hpending] at htocome
        by_cases hin : k ∈ r.listed
        · exact (hdone hin).2
        · exact absurd (htocome hin) List.not_mem_nil
      · rw [Function.update_of_ne (Ne.symm hparty)] at hbelow
        exact h.below hbelow
    · intro r₁ hr₁
      cases hr₁
  | stops hs₁ =>
    subst hs₁
    refine ⟨?_, ?_⟩ <;> rw [Function.update_self]
    · exact h.below
    · intro r₁ hr₁
      cases hr₁

theorem Tracked.run {s₀ : Fuzzers ν} (hk : k < 1000000) (hok : Ok marks s₀ f) (h : Tracked s₀ f g k) {evs : List (Event ν)}
    (hrun : Sync.run s₀ evs = some s) (hthere : ¬ PassedOver s₀ evs f g k) : Tracked s f g k := by
  have hinv := @run_inv_some _ _ _ s₀ (fun evs s => ¬ PassedOver s₀ evs f g k → Tracked s f g k) (fun _ => h) ?_ evs s hrun
  · exact hinv hthere
  · intro pre ev s₁ s₂ hpre ih hstep hthere
    have hrun₂ : Sync.run s₀ (pre ++ [ev]) = some s₂ := run_concat_some.mpr ⟨s₁, hpre, hstep⟩
    refine (ih fun hpassed => hthere (hpassed.concat ev)).step hk (hok.run hpre) hstep ?_ ?_
    · intro hread
      rw [← Bool.not_eq_false]
      exact fun husable => hthere ⟨pre, [ev], s₁, rfl, hpre, hread, husable⟩
    · intro hread
      rw [← Bool.not_eq_false]
      exact fun husable => hthere ⟨pre ++ [ev], [], s₂, (List.append_nil _).symm, hrun₂, hread, husable⟩

/-- **What is lost**: a case below the mark that was not run was missing or incomplete while the directory was read. -/
theorem below_mark (queue : ν → List File) (marks : ν → ν → ℕ) (evs : List (Event ν)) (s : Fuzzers ν)
    (hrun : run (start queue marks) evs = some s) (f g : ν) (k : ℕ) (hk : k < 1000000) (hbelow : k < (s f).synced g) :
    k < marks f g ∨ (g, k) ∈ (s f).imported ∨ PassedOver (start queue marks) evs f g k := by
  by_cases hstart : k < marks f g
  · exact .inl hstart
  by_cases hpassed : PassedOver (start queue marks) evs f g k
  · exact .inr (.inr hpassed)
  · refine .inr (.inl (Tracked.below (Tracked.run hk (.init queue marks f) ⟨?_, ?_⟩ hrun hpassed) hbelow))
    · exact fun hlt => absurd hlt hstart
    · intro r hr
      cases hr

theorem below_mark_round : ∃ s, run pair round = some s ∧ 0 < (s false).synced true ∧
    (0 < 0 ∨ (true, 0) ∈ (s false).imported ∨ PassedOver pair round false true 0) := by
  obtain ⟨s, hs, -, hsynced⟩ := run_round
  have hmark : 0 < (s false).synced true := by omega
  exact ⟨s, hs, hmark, below_mark one_case (fun _ _ => 0) round s hs false true 0
    (by omega) hmark⟩

/-- Once stopped, or busy with one directory: only closing it brings `f` to another one. -/
theorem busy_step (hok : Ok marks s f) (h : (s f).stop_soon = true ∨ Reads s f g) (hstep : step s ev = some s')
    (hev : ev ≠ .closedir f) : (s' f).stop_soon = true ∨ Reads s' f g := by
  cases step_moves hstep f with
  | quiet hq hopen hclose hstop =>
    rw [hq.stop_soon]
    refine h.imp_right ?_
    rintro ⟨r, hr, hparty⟩
    obtain ⟨listed, pending, hr', -⟩ := hq.reading r hr
    exact ⟨_, hr', hparty⟩
  | opens hne hstop hreading hs' =>
    rcases h with h | ⟨r, hr, -⟩
    · rw [hstop] at h
      cases h
    · rw [hreading] at hr
      cases hr
  | @looks r k hr hk hlisted hs' =>
    obtain ⟨r', hlook, hparty', -⟩ := look_cases (s f) r k (s r.party).queue[k]?
    rw [hlook] at hs'
    rcases h with h | ⟨r₁, hr₁, hparty⟩
    · rw [hok.running hr] at h
      cases h
    · rw [hr] at hr₁
      cases hr₁
      refine .inr ⟨r', ?_, hparty'.trans hparty⟩
      rw [hs', Function.update_self]
  | closes hr hpending hs' => exact absurd rfl hev
  | stops hs' =>
    left
    rw [hs', Function.update_self]

/-- What it ran, it has run. -/
theorem count_imported_le (hstep : step s ev = some s') (p : ν × ℕ) : (s f).imported.count p ≤ (s' f).imported.count p := by
  refine List.Sublist.count_le p ?_
  cases step_moves hstep f with
  | quiet hq hopen hclose hstop => rw [hq.imported]
  | opens hne hstop hreading hs' => rw [hs', Function.update_self]
  | @looks r k hr hk hlisted hs' =>
    obtain ⟨r', hlook, -⟩ := look_cases (s f) r k (s r.party).queue[k]?
    rw [hs', Function.update_self, hlook]
    dsimp only
    split
    · exact List.sublist_cons_self _ _
    · exact List.Sublist.refl _
  | closes hr hpending hs' => rw [hs', Function.update_self]
  | stops hs' => rw [hs', Function.update_self]

/-- A file that is unlinked is missing. -/
theorem Unlinked.passedOver {s₀ : Fuzzers ν} {evs : List (Event ν)} (h : Unlinked s₀ evs f g k)
    (hrun : run s₀ evs = some s) : PassedOver s₀ evs f g k := by
  obtain ⟨pre, post, s₁, rfl, hpre, r, hr, hparty⟩ := h
  have hevs : pre ++ .touch g k none :: post = (pre ++ [.touch g k none]) ++ post := by simp
  rw [hevs, run, List.foldlM_append, Option.bind_eq_bind, Option.bind_eq_some_iff] at hrun
  obtain ⟨s₂, hrun₂, -⟩ := hrun
  change run s₀ _ = some s₂ at hrun₂
  obtain ⟨s₁', hpre', hstep⟩ := run_concat_some.mp hrun₂
  obtain rfl : s₁ = s₁' := Option.some.inj (hpre.symm.trans hpre')
  refine ⟨pre ++ [.touch g k none], post, s₂, hevs, hrun₂, ?_, ?_⟩
  · cases step_moves hstep f with
    | quiet hq hopen hclose hstop =>
      obtain ⟨listed, pending, hr', -⟩ := hq.reading r hr
      exact ⟨_, hr', hparty⟩
  · simp only [step, Option.ite_none_right_eq_some, Option.some.injEq, if_true] at hstep
    obtain ⟨hk, rfl⟩ := hstep
    simp only [Fuzzer.lose, Function.update_self]
    rw [List.getElem?_set_self hk, usable_missing]

/-- **A sync that gets to the end** of a directory: a case that was there all the time is below the mark then, and it has
been run; once if it was not run before, and not again if it was. An earlier sync may have passed it over. -/
theorem sync_complete (queue : ν → List File) (marks : ν → ν → ℕ) (evs mid : List (Event ν)) (s₁ s₂ : Fuzzers ν)
    (f g : ν) (k : ℕ) (hrun : run (start queue marks) evs = some s₁) (hsync : run s₁ (.opendir f g :: (mid ++ [.closedir f])) = some s₂)
    (hmid : .closedir f ∉ mid) (hk : k < 1000000)
    (hthere : ¬ PassedOver s₁ (.opendir f g :: (mid ++ [.closedir f])) f g k)
    (hbefore : k < (s₁ f).synced g → (g, k) ∈ (s₁ f).imported) :
    k < (s₂ f).synced g ∧ (s₂ f).imported.count (g, k) = max 1 ((s₁ f).imported.count (g, k)) := by
  have hok₁ : Ok (marks f) s₁ f := (Ok.init queue marks f).run hrun
  have hevs : Event.opendir f g :: (mid ++ [.closedir f]) = (Event.opendir f g :: mid) ++ [.closedir f] := rfl
  rw [hevs] at hsync hthere
  obtain ⟨s, hmidrun, hclose⟩ := run_concat_some.mp hsync
  obtain ⟨s', hopen, hrest⟩ : ∃ s', step s₁ (.opendir f g) = some s' ∧ run s' mid = some s :=
    Option.bind_eq_some_iff.mp hmidrun
  obtain ⟨hstopped, hidle, hopened⟩ : (s₁ f).stop_soon = false ∧ (s₁ f).reading = none ∧ Reads s' f g := by
    cases step_moves hopen f with
    | quiet hq hopen hclose hstop => exact absurd rfl (hopen g)
    | opens hne hstop hreading hs' =>
      refine ⟨hstop, hreading, ?_⟩
      rw [Reads, hs', Function.update_self]
      exact ⟨_, rfl, rfl⟩
  have hpresent : ¬ PassedOver s₁ (.opendir f g :: mid) f g k := fun hpassed => hthere (hpassed.concat _)
  have htracked : Tracked s f g k := by
    refine Tracked.run hk hok₁ ⟨hbefore, ?_⟩ hmidrun hpresent
    intro r hr
    rw [hidle] at hr
    cases hr
  -- a case that was run before is below the mark that is read
  have hspent : Spent s f g k (max 1 ((s₁ f).imported.count (g, k))) := by
    refine Spent.run hok₁ ?_ hmidrun fun hgone => hpresent (hgone.passedOver hmidrun)
    by_cases hmem : (g, k) ∈ (s₁ f).imported
    · refine .inr ⟨(max_eq_right (List.count_pos_iff.mpr hmem)).symm, .inr (.inl ?_)⟩
      rcases hok₁.below hstopped g k hmem with hlt | ⟨r, hr, -⟩
      · exact hlt
      · rw [hidle] at hr
        cases hr
    · rw [Spent, List.count_eq_zero.mpr hmem]
      exact .inl (Nat.lt_of_lt_of_le Nat.zero_lt_one (Nat.le_max_left _ _))
  have hgrown : (s₁ f).imported.count (g, k) ≤ (s f).imported.count (g, k) :=
    @run_inv_some _ _ _ s₁ (fun _ s => (s₁ f).imported.count (g, k) ≤ (s f).imported.count (g, k)) (Nat.le_refl _)
      (fun _ _ _ _ _ hle hstep => hle.trans (count_imported_le hstep _)) _ s hmidrun
  have hok : Ok (marks f) s f := hok₁.run hmidrun
  have hbusy : (s f).stop_soon = true ∨ Reads s f g := by
    have hinv := @run_inv_some _ _ _ s' (fun pre s => .closedir f ∉ pre → Ok (marks f) s f ∧ ((s f).stop_soon = true ∨ Reads s f g))
      (fun _ => ⟨hok₁.step hopen, .inr hopened⟩) ?_ mid s hrest
    · exact (hinv hmid).2
    · intro pre ev s₃ s₄ _ ih hstep hnot
      rw [List.mem_append, not_or, List.mem_singleton] at hnot
      obtain ⟨hok₃, hbusy⟩ := ih hnot.1
      exact ⟨hok₃.step hstep, busy_step hok₃ hbusy hstep (Ne.symm hnot.2)⟩
  cases step_moves hclose f with
  | quiet hq hopen hclose hstop => exact absurd rfl hclose
  | @closes r hr hpending hs₂ =>
    have hparty : r.party = g := by
      rcases hbusy with hstop | ⟨r₁, hr₁, hparty⟩
      · rw [hok.running hr] at hstop
        cases hstop
      · rw [hr] at hr₁
        cases hr₁
        exact hparty
    obtain ⟨htocome, hdone⟩ := htracked.reading r hr hparty
    have hlisted : k ∈ r.listed := by
      by_contra hnot
      have := htocome hnot
      rw [hpending] at this
      exact List.not_mem_nil this
    obtain ⟨hlt, hmem⟩ := hdone hlisted
    rw [hs₂, Function.update_self]
    dsimp only
    rw [hparty, Function.update_self]
    have hpos := List.count_pos_iff.mpr hmem
    refine ⟨hlt, Nat.le_antisymm ?_ (Nat.max_le.mpr ⟨hpos, hgrown⟩)⟩
    exact hspent.elim Nat.le_of_lt fun h => h.1.le

/-- The only file is there all the time. -/
theorem not_passedOver_round : ¬ PassedOver pair round false true 0 := by
  rintro ⟨pre, post, s, hround, hrun, -, husable⟩
  have hqueue : (s true).queue = [some 5] := by
    have hinv := @run_inv_some _ _ _ pair (fun evs s => evs <+: round → (s true).queue = [some 5]) (fun _ => rfl) ?_ pre s
      hrun
    · exact hinv ⟨post, hround.symm⟩
    · intro pre ev s₁ s₂ _ ih hstep hprefix
      have hmem : ev ∈ round := hprefix.subset (by simp)
      rw [queue_eq hstep, ih ((List.prefix_append pre [ev]).trans hprefix)]
      · rintro rfl
        simp [round] at hmem
      · rintro k file rfl
        simp [round] at hmem
  rw [hqueue] at husable
  simp [usable, MAX_FILE] at husable

theorem sync_complete_round : ∃ s, run pair round = some s ∧ 0 < (s false).synced true ∧
    (s false).imported.count (true, 0) = max 1 ((pair false).imported.count (true, 0)) := by
  obtain ⟨s, hs, -⟩ := run_round
  exact ⟨s, hs, sync_complete one_case (fun _ _ => 0) [] [.readdir false 0] pair s false true 0
    rfl hs (by simp) (by omega) not_passedOver_round fun h => absurd h (Nat.not_lt_zero 0)⟩

/-! ### A million cases -/

end SEDiff.Afl.Sync
