import SEDiff.Foundation.Text

/-!
# Cutting strings

The last occurrence of a character or of a token in a string, and the blanks around it.

## What is proved

* `Str.rfind_append_cons`, `Str.rsplit_append` — a string is cut at a delimiter that does not occur after it.
* `Str.partition_append_cons`, `Str.split_append` — it is parted at a delimiter that does not occur before it.
* `Str.exists_last` — every token that occurs has a last occurrence.
* `Str.rstrip_lstrip` — blanks are taken off on both sides in either order.
* `Str.count_replace` — replacing a token does not touch characters that are not in it.
-/

namespace SEDiff.Foundation.Str

/-! ### Characters -/

/-- Nothing is found of a character that does not occur. -/
theorem rfind_eq_none_iff {s : Str} {c : Char} : rfind s c = none ↔ c ∉ s := by
  induction s with
  | nil => simp [rfind]
  | cons x s ih =>
    rw [rfind, List.mem_cons, not_or]
    cases h : rfind s c with
    | some i =>
      rw [h] at ih
      exact iff_of_false nofun fun hc => absurd (ih.mpr hc.2) nofun
    | none =>
      have hs := ih.mp h
      by_cases hx : x = c
      · simp [hx]
      · simp [hx, hs, Ne.symm hx]

/-- A character is found where it occurs last. -/
theorem rfind_append_cons (s : Str) {c : Char} {t : Str} (hc : c ∉ t) : rfind (s ++ c :: t) c = some s.length := by
  induction s with
  | nil =>
    rw [List.nil_append, rfind, rfind_eq_none_iff.mpr hc]
    simp
  | cons x s ih => rw [List.cons_append, rfind, ih, List.length_cons]

/-- A character that occurs has a last occurrence. -/
theorem exists_last_char {s : Str} {c : Char} (hc : c ∈ s) : ∃ a b, s = a ++ c :: b ∧ c ∉ b := by
  induction s with
  | nil => cases hc
  | cons x s ih =>
    by_cases hs : c ∈ s
    · obtain ⟨a, b, rfl, hb⟩ := ih hs
      exact ⟨x :: a, b, rfl, hb⟩
    · obtain rfl := (List.mem_cons.mp hc).resolve_right hs
      exact ⟨[], s, rfl, hs⟩

/-! ### Tokens -/

/-- Nothing is cut at a token that does not occur. -/
theorem rsplit_eq_none_iff {s tok : Str} (hne : tok ≠ []) : rsplit s tok = none ↔ ¬ tok <:+: s := by
  induction s with
  | nil => simp [rsplit, hne]
  | cons x s ih =>
    rw [rsplit, List.infix_cons_iff, not_or]
    cases h : rsplit s tok with
    | some p =>
      rw [h] at ih
      exact iff_of_false nofun fun hc => absurd (ih.mpr hc.2) nofun
    | none =>
      have hs := ih.mp h
      by_cases hx : tok <+: x :: s
      · simp [hx]
      · simp [hx, hs]

/-- A string is cut at the token that occurs last. -/
theorem rsplit_append (l : Str) {tok r : Str} (hne : tok ≠ []) (hlast : ¬ tok <:+: (tok ++ r).tail) :
    rsplit (l ++ (tok ++ r)) tok = some (l, r) := by
  induction l with
  | nil =>
    obtain ⟨c, tok', rfl⟩ := List.exists_cons_of_ne_nil hne
    have hnone : rsplit (tok' ++ r) (c :: tok') = none := (rsplit_eq_none_iff hne).mpr hlast
    have hpre : c :: tok' <+: c :: (tok' ++ r) := List.prefix_append (c :: tok') r
    rw [List.nil_append, List.cons_append, rsplit, hnone]
    simp [hpre]
  | cons x l ih => rw [List.cons_append, rsplit, ih]

/-- A token that occurs has a last occurrence. -/
theorem exists_last {s tok : Str} (hne : tok ≠ []) (h : tok <:+: s) :
    ∃ l r, s = l ++ (tok ++ r) ∧ ¬ tok <:+: (tok ++ r).tail := by
  induction s with
  | nil => exact absurd (List.infix_nil.mp h) hne
  | cons x s ih =>
    by_cases hs : tok <:+: s
    · obtain ⟨l, r, rfl, hlast⟩ := ih hs
      exact ⟨x :: l, r, rfl, hlast⟩
    · obtain ⟨r, hr⟩ := (List.infix_cons_iff.mp h).resolve_right hs
      refine ⟨[], r, hr.symm, ?_⟩
      rw [hr]
      exact hs

/-- A suffix without the delimiter comes after it. -/
theorem suffix_of_append_cons {a t s e : Str} {c : Char} (hc : c ∉ t) (h : a ++ t = s ++ c :: e) : t <:+ e := by
  obtain ⟨u, -, ht⟩ | ⟨u, -, hu⟩ := List.append_eq_append_iff.mp h
  · exact absurd (ht ▸ List.mem_append_right _ List.mem_cons_self) hc
  · cases u with
    | nil =>
      rw [List.nil_append] at hu
      exact absurd (hu ▸ List.mem_cons_self) hc
    | cons y u => exact ⟨u, (List.cons.inj hu).2.symm⟩

/-- A token does not start where its first character does not occur. -/
theorem infix_of_append {t a s : Str} {c : Char} (hc : c ∉ a) (h : c :: t <:+: a ++ s) : c :: t <:+: s := by
  induction a with
  | nil => exact h
  | cons x a ih =>
    obtain hpre | hin := List.infix_cons_iff.mp h
    · have hx : c = x := by
        obtain ⟨r, hr⟩ := hpre
        exact (List.cons.inj hr).1
      exact absurd (hx ▸ List.mem_cons_self) hc
    · exact ih (fun hm => hc (List.mem_cons_of_mem _ hm)) hin

/-- A token that ends in a delimiter does not go past it. -/
theorem infix_append_cons_iff {t s d : Str} {c : Char} (hc : c ∉ t) :
    t ++ [c] <:+: s ++ c :: d ↔ t ++ [c] <:+: s ++ [c] ∨ t ++ [c] <:+: d := by
  constructor
  · rintro ⟨a, b, h⟩
    have h' : s ++ c :: d = (a ++ t) ++ c :: b := by simpa using h.symm
    obtain ⟨e, hat, hd⟩ | ⟨e, hs, hb⟩ := List.append_eq_append_iff.mp h'
    · cases e with
      | nil => exact .inl ⟨a, [], by rw [List.append_nil, ← List.append_assoc, hat, List.append_nil]⟩
      | cons x e =>
        obtain ⟨rfl, hde⟩ : c = x ∧ d = e ++ c :: b := List.cons.inj hd
        -- the token starts after the delimiter
        obtain ⟨u, rfl⟩ := suffix_of_append_cons hc hat
        exact .inr ⟨u, b, by simp [hde]⟩
    · cases e with
      | nil => exact .inl ⟨a, [], by rw [List.append_nil, ← List.append_assoc, hs, List.append_nil]⟩
      | cons x e =>
        obtain ⟨rfl, -⟩ := List.cons.inj hb
        exact .inl ⟨a, e ++ [c], by simp [hs]⟩
  · rintro (⟨a, b, h⟩ | ⟨a, b, h⟩)
    · refine ⟨a, b ++ d, ?_⟩
      rw [← List.append_assoc, h, List.append_assoc]
      rfl
    · exact ⟨s ++ c :: a, b, by simp [← h]⟩

/-- A token without a delimiter is on one side of it. -/
theorem infix_cons_iff_of_notMem {t s d : Str} {c : Char} (hc : c ∉ t) :
    t <:+: s ++ c :: d ↔ t <:+: s ∨ t <:+: d := by
  constructor
  · rintro ⟨a, b, h⟩
    obtain ⟨e, hs, -⟩ | ⟨e, hat, hd⟩ := List.append_eq_append_iff.mp h
    · exact .inl ⟨a, e, hs.symm⟩
    · cases e with
      | nil => exact .inl ⟨a, [], by rw [List.append_nil, hat, List.append_nil]⟩
      | cons x e =>
        obtain ⟨rfl, hde⟩ : c = x ∧ d = e ++ b := List.cons.inj hd
        obtain ⟨u, rfl⟩ := suffix_of_append_cons hc hat
        exact .inr ⟨u, b, hde.symm⟩
  · rintro (⟨a, b, h⟩ | ⟨a, b, h⟩)
    · exact ⟨a, b ++ c :: d, by rw [← h]; simp⟩
    · exact ⟨s ++ c :: a, b, by rw [← h]; simp⟩

/-- A token with a character that does not occur does not either. -/
theorem not_infix_of_notMem {s tok : Str} {c : Char} (hc : c ∈ tok) (hs : c ∉ s) : ¬ tok <:+: s :=
  fun h => hs (h.subset hc)

/-- The parts of a string do not have the delimiter. -/
theorem notMem_of_mem_splitOn {c : Char} {s part : Str} (h : part ∈ s.splitOn c) : c ∉ part := by
  induction s generalizing part with
  | nil =>
    rw [List.splitOn_nil, List.mem_singleton] at h
    rw [h]
    exact List.not_mem_nil
  | cons x s ih =>
    rw [List.splitOn_cons_eq_if_modifyHead] at h
    split_ifs at h with hx
    · obtain rfl | h := List.mem_cons.mp h
      · exact List.not_mem_nil
      · exact ih h
    · obtain ⟨r, rs, hr⟩ := List.exists_cons_of_ne_nil (List.splitOn_ne_nil c s)
      rw [hr] at h ih
      obtain rfl | h := List.mem_cons.mp h
      · rw [List.mem_cons, not_or]
        exact ⟨fun hcx => hx (by simp [hcx]), ih List.mem_cons_self⟩
      · exact ih (List.mem_cons_of_mem _ h)

/-! ### First occurrences -/

/-- `s.partition(c)`, when it has the delimiter: what is before the first one and what is after it. -/
def partition (c : Char) : Str → Option (Str × Str)
  | [] => none
  | x :: s => if x = c then some ([], s) else (partition c s).map fun p => (x :: p.1, p.2)

/-- `s.split(tok)`. -/
def split (tok : Str) : Str → List Str
  | [] => [[]]
  | x :: s =>
    if tok <+: x :: s then [] :: split tok (s.drop (tok.length - 1))
    else match split tok s with
      | [] => [[x]]
      | part :: parts => (x :: part) :: parts
  termination_by s => s.length
  decreasing_by
    · simp only [List.length_drop, List.length_cons]
      omega
    · simp

theorem length_of_partition {c : Char} {s a b : Str} (h : partition c s = some (a, b)) : b.length < s.length := by
  induction s generalizing a with
  | nil => cases h
  | cons x s ih =>
    rw [partition] at h
    split_ifs at h with hx
    · cases h
      exact Nat.lt_succ_self _
    · obtain ⟨⟨a', b'⟩, hp, heq⟩ := Option.map_eq_some_iff.mp h
      cases heq
      exact (ih hp).trans (Nat.lt_succ_self _)

/-- A string is parted at the delimiter that occurs first. -/
theorem partition_append_cons {c : Char} {a : Str} (hc : c ∉ a) (b : Str) : partition c (a ++ c :: b) = some (a, b) := by
  induction a with
  | nil => simp [partition]
  | cons x a ih =>
    rw [List.mem_cons, not_or] at hc
    rw [List.cons_append, partition, if_neg (Ne.symm hc.1), ih hc.2]
    rfl

theorem partition_of_notMem {c : Char} {s : Str} (hc : c ∉ s) : partition c s = none := by
  induction s with
  | nil => rfl
  | cons x s ih =>
    rw [List.mem_cons, not_or] at hc
    rw [partition, if_neg (Ne.symm hc.1), ih hc.2]
    rfl

theorem split_ne_nil (tok s : Str) : split tok s ≠ [] := by
  cases s with
  | nil => simp [split]
  | cons x s =>
    rw [split]
    split_ifs
    · exact List.cons_ne_nil _ _
    · split <;> exact List.cons_ne_nil _ _

/-- A string is one part when the token does not occur. -/
theorem split_of_not_infix {tok s : Str} (h : ¬ tok <:+: s) : split tok s = [s] := by
  induction s with
  | nil => rw [split]
  | cons x s ih =>
    rw [List.infix_cons_iff, not_or] at h
    rw [split, if_neg h.1, ih h.2]

/-- A part ends where the token occurs first. -/
theorem split_append {c : Char} {t a : Str} (hc : c ∉ a) (b : Str) :
    split (c :: t) (a ++ (c :: t ++ b)) = a :: split (c :: t) b := by
  induction a with
  | nil =>
    have hstart : c :: t <+: c :: (t ++ b) := List.prefix_append (c :: t) b
    rw [List.nil_append, List.cons_append, split, if_pos hstart, List.length_cons, Nat.add_sub_cancel, List.drop_left]
  | cons x a ih =>
    rw [List.mem_cons, not_or] at hc
    have hstart : ¬ c :: t <+: x :: (a ++ (c :: t ++ b)) := by
      rintro ⟨r, hr⟩
      exact hc.1 (List.cons.inj hr).1
    rw [List.cons_append, split, if_neg hstart, ih hc.2]

/-- The parts on both sides of a separator. -/
theorem split_append_sep {c : Char} (a b : Str) : split [c] (a ++ c :: b) = split [c] a ++ split [c] b := by
  induction a with
  | nil =>
    have hhead : [c] <+: c :: b := List.prefix_append [c] b
    have hnil : split [c] [] = [[]] := by rw [split]
    rw [hnil, List.nil_append, split, if_pos hhead]
    rfl
  | cons x a ih =>
    rw [List.cons_append, split, split]
    by_cases hx : x = c
    · have hpre : ∀ s, [c] <+: x :: s := fun s => hx ▸ List.prefix_append [c] s
      rw [if_pos (hpre _), if_pos (hpre _)]
      simpa using ih
    · have hpre : ∀ s, ¬ [c] <+: x :: s := fun s h => hx (List.cons_prefix_cons.mp h).1.symm
      rw [if_neg (hpre _), if_neg (hpre _), ih]
      cases hparts : split [c] a with
      | nil => exact absurd hparts (split_ne_nil [c] a)
      | cons part parts => rfl

/-! ### Blanks -/

/-- No blank at either end. -/
structure Trimmed (s : Str) : Prop where
  /-- The start. -/
  head : ∀ c ∈ s.head?, isSpace c = false
  /-- The end. -/
  last : ∀ c ∈ s.getLast?, isSpace c = false

theorem all_not_isSpace {o : Option Char} : (o.all fun c => !isSpace c) = true ↔ ∀ c ∈ o, isSpace c = false := by
  cases o <;> simp

instance (s : Str) : Decidable (Trimmed s) :=
  decidable_of_iff ((s.head?.all fun c => !isSpace c) = true ∧ (s.getLast?.all fun c => !isSpace c) = true)
    ⟨fun ⟨h, h'⟩ => ⟨all_not_isSpace.mp h, all_not_isSpace.mp h'⟩,
      fun h => ⟨all_not_isSpace.mpr h.head, all_not_isSpace.mpr h.last⟩⟩

/-- Blanks on the left are taken off. -/
theorem lstrip_append {p : Char → Bool} {ws s : Str} (hws : ∀ c ∈ ws, p c = true) :
    lstrip (ws ++ s) p = lstrip s p := by
  induction ws with
  | nil => rfl
  | cons c ws ih =>
    rw [List.cons_append, lstrip, List.dropWhile_cons_of_pos (hws c List.mem_cons_self)]
    exact ih fun c' hc' => hws c' (List.mem_cons_of_mem _ hc')

/-- Nothing is taken off on the left. -/
theorem lstrip_of_head {p : Char → Bool} {s : Str} (hs : ∀ c ∈ s.head?, p c = false) : lstrip s p = s := by
  cases s with
  | nil => rfl
  | cons c s => exact List.dropWhile_cons_of_neg (by simp [hs c rfl])

/-- Blanks on the right are taken off. -/
theorem rstrip_append {p : Char → Bool} {s ws : Str} (hws : ∀ c ∈ ws, p c = true) :
    rstrip (s ++ ws) p = rstrip s p := by
  rw [rstrip, rstrip, List.rdropWhile, List.rdropWhile, List.reverse_append]
  exact congrArg List.reverse (lstrip_append fun c hc => hws c (List.mem_reverse.mp hc))

/-- Nothing is taken off on the right. -/
theorem rstrip_of_last {p : Char → Bool} {s : Str} (hs : ∀ c ∈ s.getLast?, p c = false) : rstrip s p = s := by
  have hrev : lstrip s.reverse p = s.reverse := lstrip_of_head fun c hc => hs c (by rwa [List.head?_reverse] at hc)
  exact (congrArg List.reverse hrev).trans s.reverse_reverse

/-- What is taken off on the left ends before a character that is kept. -/
theorem lstrip_append_cons {p : Char → Bool} (s : Str) {c : Char} (hc : p c = false) (t : Str) :
    lstrip (s ++ c :: t) p = lstrip s p ++ c :: t := by
  induction s with
  | nil => exact List.dropWhile_cons_of_neg (by simp [hc])
  | cons x s ih =>
    by_cases hx : p x = true
    · rw [List.cons_append, lstrip, lstrip, List.dropWhile_cons_of_pos hx, List.dropWhile_cons_of_pos hx]
      exact ih
    · rw [List.cons_append, lstrip, lstrip, List.dropWhile_cons_of_neg hx, List.dropWhile_cons_of_neg hx]
      rfl

/-- What is taken off on the right ends after a character that is kept. -/
theorem rstrip_append_cons {p : Char → Bool} (s : Str) {c : Char} (hc : p c = false) (t : Str) :
    rstrip (s ++ c :: t) p = s ++ c :: rstrip t p := by
  have hrev := lstrip_append_cons t.reverse hc s.reverse
  have hlist : (s ++ c :: t).reverse = t.reverse ++ c :: s.reverse := by simp
  rw [lstrip] at hrev
  rw [rstrip, rstrip, List.rdropWhile, List.rdropWhile, hlist, hrev, lstrip]
  simp

/-- It does not matter on which side blanks are taken off first. -/
theorem rstrip_lstrip (s : Str) (p : Char → Bool) : rstrip (lstrip s p) p = lstrip (rstrip s p) p := by
  by_cases hs : ∀ c ∈ s, p c = true
  · have hl : lstrip s p = [] := List.dropWhile_eq_nil_iff.mpr hs
    have hr : rstrip s p = [] := List.rdropWhile_eq_nil_iff.mpr hs
    rw [hl, hr]
    rfl
  · push Not at hs
    obtain ⟨c, hmem, hc⟩ := hs
    have hc : p c = false := by simpa using hc
    obtain ⟨a, b, rfl⟩ := List.append_of_mem hmem
    rw [lstrip_append_cons a hc, rstrip_append_cons _ hc, rstrip_append_cons _ hc, lstrip_append_cons _ hc]

theorem strip_rstrip (s : Str) : strip (rstrip s isSpace) = strip s := by
  rw [strip, strip, rstrip_lstrip, rstrip_lstrip]
  congr 1
  exact List.rdropWhile_idempotent _ s

theorem strip_cons_space (s : Str) {c : Char} (hc : isSpace c = true) : strip (c :: s) = strip s := by
  rw [strip, lstrip, List.dropWhile_cons_of_pos hc]
  rfl

theorem strip_append_space (s : Str) {c : Char} (hc : isSpace c = true) : strip (s ++ [c]) = strip s := by
  have hpad : ∀ d ∈ [c], isSpace d = true := fun d hd => List.mem_singleton.mp hd ▸ hc
  rw [strip, rstrip_lstrip, rstrip_append hpad, ← rstrip_lstrip]
  rfl

/-- What is not a blank is kept on the left. -/
theorem mem_lstrip {p : Char → Bool} {s : Str} {c : Char} (hc : c ∈ s) (hp : p c = false) : c ∈ lstrip s p := by
  obtain ⟨a, b, rfl⟩ := List.append_of_mem hc
  rw [lstrip_append_cons a hp]
  exact List.mem_append_right _ List.mem_cons_self

/-- What is not a blank is kept on the right. -/
theorem mem_rstrip {p : Char → Bool} {s : Str} {c : Char} (hc : c ∈ s) (hp : p c = false) : c ∈ rstrip s p :=
  List.mem_reverse.mpr (mem_lstrip (List.mem_reverse.mpr hc) hp)

/-- What is not a blank is kept. -/
theorem mem_strip {s : Str} {c : Char} (hc : c ∈ s) (hp : isSpace c = false) : c ∈ strip s :=
  mem_rstrip (mem_lstrip hc hp) hp

theorem lstrip_eq_self_iff {p : Char → Bool} {s : Str} : lstrip s p = s ↔ ∀ c ∈ s.head?, p c = false := by
  refine ⟨fun h c hc => ?_, lstrip_of_head⟩
  cases s with
  | nil => cases hc
  | cons x s =>
    obtain rfl : x = c := by simpa using hc
    by_contra hx
    rw [lstrip, List.dropWhile_cons_of_pos (by simpa using hx)] at h
    have hlen := (List.dropWhile_suffix p (l := s)).length_le
    rw [h, List.length_cons] at hlen
    omega

/-- What starts a stripped string is not a blank. -/
theorem strip_head (s : Str) : ∀ c ∈ (strip s).head?, isSpace c = false := by
  intro c hc
  have hpre : strip s <+: lstrip s isSpace := List.rdropWhile_prefix _ _
  obtain ⟨r, hr⟩ := hpre
  cases hs : strip s with
  | nil =>
    rw [hs] at hc
    cases hc
  | cons x t =>
    rw [hs] at hc hr
    obtain rfl : x = c := by simpa using hc
    have hhead := List.head?_dropWhile_not isSpace s
    rw [lstrip] at hr
    rw [← hr] at hhead
    simpa using hhead

theorem strip_of_trimmed {s : Str} (hs : Trimmed s) : strip s = s := by
  rw [strip, lstrip_of_head hs.head, rstrip_of_last hs.last]

theorem trimmed_strip (s : Str) : Trimmed (strip s) := by
  refine ⟨strip_head s, fun c hc => ?_⟩
  have hhead := List.head?_dropWhile_not isSpace (lstrip s isSpace).reverse
  rw [Option.mem_def, strip, rstrip, List.rdropWhile, List.getLast?_reverse] at hc
  rw [hc] at hhead
  simpa using hhead

theorem strip_strip (s : Str) : strip (strip s) = strip s := strip_of_trimmed (trimmed_strip s)

theorem strip_blank_cons {s : Str} (hs : Trimmed s) : strip (' ' :: s) = s :=
  (strip_cons_space s (by decide)).trans (strip_of_trimmed hs)

theorem strip_append_blank {s : Str} (hs : Trimmed s) : strip (s ++ [' ']) = s :=
  (strip_append_space s (by decide)).trans (strip_of_trimmed hs)

/-! ### Replacing -/

/-- The rest of a replacement, where the next `skip` characters are replaced already. -/
def replaceFrom (old new : Str) : ℕ → Str → Str
  | _, [] => []
  | skip + 1, _ :: s => replaceFrom old new skip s
  | 0, c :: s => if old <+: c :: s then new ++ replaceFrom old new (old.length - 1) s else c :: replaceFrom old new 0 s

/-- `s.replace(old, new)`, where `old` is not empty. -/
def replace (s old new : Str) : Str := replaceFrom old new 0 s

theorem count_replaceFrom {old new : Str} {c : Char} (hne : old ≠ []) (hold : c ∉ old) (hnew : c ∉ new) {skip : ℕ}
    {s : Str} (hskip : c ∉ s.take skip) : (replaceFrom old new skip s).count c = s.count c := by
  induction s generalizing skip with
  | nil => rw [replaceFrom]
  | cons x s ih =>
    cases skip with
    | succ skip =>
      rw [List.take_succ_cons, List.mem_cons, not_or] at hskip
      rw [replaceFrom, ih hskip.2, List.count_cons_of_ne (Ne.symm hskip.1)]
    | zero =>
      rw [replaceFrom]
      split_ifs with hpre
      · obtain ⟨y, old, rfl⟩ := List.exists_cons_of_ne_nil hne
        obtain ⟨r, hr⟩ := hpre
        obtain ⟨rfl, rfl⟩ := List.cons.inj hr
        rw [List.mem_cons, not_or] at hold
        rw [List.count_append, List.count_eq_zero_of_not_mem hnew, Nat.zero_add, ih (by simpa using hold.2),
          List.count_cons_of_ne (Ne.symm hold.1)]
      · rw [List.count_cons, List.count_cons, ih (by simp)]

/-- **Replacing** does not touch other characters. -/
theorem count_replace {s old new : Str} {c : Char} (hne : old ≠ []) (hold : c ∉ old) (hnew : c ∉ new) :
    (replace s old new).count c = s.count c :=
  count_replaceFrom hne hold hnew (by simp)

end SEDiff.Foundation.Str
