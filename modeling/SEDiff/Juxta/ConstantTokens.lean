import SEDiff.Juxta.StringConstants

/-!
# Constants for literals

How `convert` goes over one line. It replaces the text of a literal wherever it occurs on the line, so also
at the quotes inside and at the end of another literal.

## What is proved

* `scan_ne_outOfFuel` — the scan of a line ends, whatever the line is.
* `Emits.scan`, `emits_of_scan` — the cursor does not matter: it never passes a quote.
* `replaces` — a literal is replaced part by part, unless its text occurs at a quote of another literal.
* `Separate.emits` — a line whose literals do not disturb each other is emitted as it should be.
-/

namespace SEDiff.Juxta.NavexConvert

open Foundation Str

/-! ### Closing quotes -/

theorem close_char {c : Char} (hquote : c ≠ '"') (hslash : c ≠ '\\') (s : Str) : close (c :: s) = (close s).map (· + 1) := by
  rw [close]
  · exact fun s h => absurd h hslash
  · exact fun s h => absurd h hslash
  · exact hquote

theorem close_escaped (c : Char) (s : Str) : close ('\\' :: c :: s) = (close s).map (· + 2) := by
  by_cases hquote : c = '"'
  · rw [hquote, close]
  by_cases hslash : c = '\\'
  · rw [hslash, close]
  · rw [close, close_char hquote hslash, Option.map_map]
    · rfl
    · exact fun s _ h => hquote (List.cons.inj h).1
    · exact fun s _ h => hslash (List.cons.inj h).1
    · decide

/-- A literal is closed by the quote behind it. -/
theorem close_body {b : Str} (hb : Body b) (s : Str) : close (b ++ '"' :: s) = some b.length := by
  induction hb with
  | nil => rfl
  | char hquote hslash _ ih => rw [List.cons_append, close_char hquote hslash, ih]; rfl
  | escaped _ ih => rw [List.cons_append, List.cons_append, close_escaped, ih]; rfl

/-- What the closing quote closes. -/
theorem body_of_close {t : Str} {n : ℕ} (h : close t = some n) : ∃ b s, t = b ++ '"' :: s ∧ Body b ∧ b.length = n := by
  fun_induction close t generalizing n with
  | case1 s ih =>
    obtain ⟨m, hm, rfl⟩ := Option.map_eq_some_iff.mp h
    obtain ⟨b, s, rfl, hb, rfl⟩ := ih hm
    exact ⟨'\\' :: '"' :: b, s, rfl, .escaped hb, rfl⟩
  | case2 s ih =>
    obtain ⟨m, hm, rfl⟩ := Option.map_eq_some_iff.mp h
    obtain ⟨b, s, rfl, hb, rfl⟩ := ih hm
    exact ⟨'\\' :: '\\' :: b, s, rfl, .escaped hb, rfl⟩
  | case3 s =>
    obtain rfl := Option.some.inj h
    exact ⟨[], s, rfl, .nil, rfl⟩
  | case4 c s hescaped hslash hquote ih =>
    obtain ⟨m, hm, rfl⟩ := Option.map_eq_some_iff.mp h
    obtain ⟨b, s, rfl, hb, rfl⟩ := ih hm
    refine ⟨c :: b, s, rfl, ?_, rfl⟩
    by_cases hc : c = '\\'
    · -- the backslash takes a character with it that is neither a quote nor a backslash
      cases hb with
      | nil => exact absurd rfl (hescaped s hc)
      | char _ _ hb => exact hc ▸ .escaped hb
      | escaped hb => exact absurd rfl (hslash _ hc)
    · exact .char (fun h => hquote h) hc hb
  | case5 => cases h

/-- A text has at most one body in front of it. -/
theorem body_unique {b b' s s' : Str} (hb : Body b) (hb' : Body b') (h : b ++ '"' :: s = b' ++ '"' :: s') :
    b = b' ∧ s = s' := by
  have hlen : b.length = b'.length := by
    have hclose := close_body hb s
    rw [h, close_body hb' s'] at hclose
    exact (Option.some.inj hclose).symm
  obtain ⟨rfl, hrest⟩ := List.append_inj h hlen
  exact ⟨rfl, (List.cons.inj hrest).2⟩

/-! ### Names -/

theorem get?_encodeDict {c : Char} (hc : c.toNat < 256) : encodeDict.get? c = some (code c) := by
  have hkeys : encodeDict.keys.Nodup := by
    rw [encodeDict, Dict.keys, List.map_map]
    refine List.Nodup.map_on (fun n hn m hm h => ?_) List.nodup_range
    have hnat := congrArg Char.toNat h
    simpa [toNat_ofNat_byte (List.mem_range.mp hn), toNat_ofNat_byte (List.mem_range.mp hm)] using hnat
  have hmem : (c, code c) ∈ encodeDict := List.mem_map.mpr ⟨c.toNat, List.mem_range.mpr hc, by rw [Char.ofNat_toNat]⟩
  exact Dict.get?_of_mem hkeys hmem

theorem code_of_get? {c : Char} {cc : Str} (h : encodeDict.get? c = some cc) : cc = code c := by
  obtain ⟨n, _, hn⟩ := List.mem_map.mp (Dict.mem_of_get? h)
  obtain ⟨rfl, rfl⟩ := Prod.mk.inj hn
  rfl

theorem mapM_encodeDict {s : Str} (hs : ∀ c ∈ s, c.toNat < 256) : s.mapM encodeDict.get? = some (s.map code) := by
  induction s with
  | nil => rfl
  | cons c s ih =>
    obtain ⟨hc, hs⟩ := List.forall_mem_cons.mp hs
    simp [List.mapM_cons, get?_encodeDict hc, ih hs]

theorem eq_of_mapM_encodeDict {s : Str} {ccs : List Str} (h : s.mapM encodeDict.get? = some ccs) : ccs = s.map code := by
  induction s generalizing ccs with
  | nil => exact (Option.some.inj h).symm
  | cons c s ih =>
    rw [List.mapM_cons] at h
    obtain ⟨cc, hcc, hrest⟩ := Option.bind_eq_some_iff.mp h
    obtain ⟨ccs', hccs', heq⟩ := Option.bind_eq_some_iff.mp hrest
    rw [← Option.some.inj heq, code_of_get? hcc, ih hccs', List.map_cons]

/-- A text of bytes is encoded as their name. -/
theorem encodeConstStr_of_decode {b d : Str} (hd : decode b = some d) (hbytes : ∀ c ∈ d, c.toNat < 256) :
    encodeConstStr b = .ok (nameOf d) := by
  rw [encodeConstStr, hd]
  simp only [mapM_encodeDict hbytes]
  rfl

/-- What is encoded is a name. -/
theorem decode_of_encodeConstStr {b e : Str} (h : encodeConstStr b = .ok e) : ∃ d, decode b = some d ∧ e = nameOf d := by
  rw [encodeConstStr] at h
  cases hd : decode b with
  | none => rw [hd] at h; cases h
  | some d =>
    rw [hd] at h
    dsimp only at h
    cases hccs : d.mapM encodeDict.get? with
    | none => rw [hccs] at h; cases h
    | some ccs =>
      rw [hccs] at h
      obtain rfl := Except.ok.inj h
      exact ⟨d, rfl, by rw [nameOf, List.flatMap_def, eq_of_mapM_encodeDict hccs]⟩

theorem Literal.encodeConstStr_body (l : Literal) : encodeConstStr l.body = .ok l.name :=
  encodeConstStr_of_decode l.decodes (byte_of_mem_decode l.decodes l.bytes)

theorem length_flatMap_code (s : Str) : (s.flatMap code).length = 4 * s.length := by
  have hcode : ∀ c, (code c).length = 4 := fun c => rfl
  simp only [List.length_flatMap, hcode, List.map_const', List.sum_replicate_nat]
  rw [Nat.mul_comm]

theorem length_nameOf (s : Str) : (nameOf s).length = 11 + 4 * s.length := by
  have hmark : mark.length = 11 := rfl
  rw [nameOf, List.length_append, hmark, length_flatMap_code]

/-- The name of a literal is at least as long as its text. -/
theorem length_le_encodeConstStr {b e : Str} (h : encodeConstStr b = .ok e) (hline : '\n' ∉ b) : b.length + 2 ≤ e.length := by
  obtain ⟨d, hd, he⟩ := decode_of_encodeConstStr h
  have := length_le_decode hd hline
  rw [he, length_nameOf]
  omega

theorem quote_notMem_encodeConstStr {b e : Str} (h : encodeConstStr b = .ok e) : '"' ∉ e := by
  obtain ⟨d, _, he⟩ := decode_of_encodeConstStr h
  exact he ▸ quote_notMem_nameOf d

theorem newline_notMem_encodeConstStr {b e : Str} (h : encodeConstStr b = .ok e) : '\n' ∉ e := by
  obtain ⟨d, _, he⟩ := decode_of_encodeConstStr h
  exact he ▸ newline_notMem_nameOf d

/-! ### The scan -/

theorem find_append {pre s : Str} {start : ℕ} (hstart : start ≤ pre.length) (hpre : '"' ∉ pre) (hs : '"' ∉ s) (u : Str) :
    find (pre ++ (s ++ '"' :: u)) '"' start = some (pre ++ s).length := by
  have hdrop : '"' ∉ pre.drop start ++ s := by
    rw [List.mem_append, not_or]
    exact ⟨fun h => hpre (List.mem_of_mem_drop h), hs⟩
  rw [find, List.drop_append_of_le_length hstart, ← List.append_assoc, partition_append_cons hdrop]
  simp only [Option.map_some, List.length_append, List.length_drop]
  rw [← Nat.add_assoc, Nat.add_sub_cancel' hstart]

theorem find_of_notMem {line : Str} (hline : '"' ∉ line) (start : ℕ) : find line '"' start = none := by
  rw [find, partition_of_notMem fun h => hline (List.mem_of_mem_drop h)]
  rfl

/-- A quote that is found is in the line. -/
theorem find_spec {line : Str} {start p : ℕ} (h : find line '"' start = some p) :
    ∃ a u, line = a ++ '"' :: u ∧ a.length = p := by
  obtain ⟨⟨x, u⟩, hxu, rfl⟩ := Option.map_eq_some_iff.mp h
  have hmem : '"' ∈ line.drop start := by
    by_contra hmem
    rw [partition_of_notMem hmem] at hxu
    cases hxu
  obtain ⟨x', u', heq, hx'⟩ := List.eq_append_cons_of_mem hmem
  rw [heq, partition_append_cons hx'] at hxu
  obtain ⟨rfl, rfl⟩ := Prod.mk.inj (Option.some.inj hxu)
  have hstart : start ≤ line.length := by
    by_contra hlt
    rw [List.drop_eq_nil_of_le (Nat.le_of_not_le hlt)] at hmem
    exact List.not_mem_nil hmem
  refine ⟨line.take start ++ x', u', ?_, ?_⟩
  · rw [List.append_assoc, ← heq, List.take_append_drop]
  · rw [List.length_append, List.length_take_of_le hstart]

/-- A round of the scan at a literal. -/
theorem scan_literal {a b R : Str} {start : ℕ} (hfind : find (a ++ '"' :: (b ++ '"' :: R)) '"' start = some a.length)
    (hb : Body b) (fuel : ℕ) (consts : List Str) :
    scan (fuel + 1) (a ++ '"' :: (b ++ '"' :: R)) start consts = match encodeConstStr b with
      | .error e => .error e
      | .ok e => scan fuel (replace (a ++ '"' :: (b ++ '"' :: R)) ('"' :: (b ++ ['"'])) e) (a.length + b.length + 2)
          (declare consts e) := by
  have hdrop : (a ++ '"' :: (b ++ '"' :: R)).drop (a.length + 1) = b ++ '"' :: R := by
    rw [← List.drop_drop, List.drop_left]
    rfl
  have hold : ((a ++ '"' :: (b ++ '"' :: R)).take (a.length + 1 + b.length + 1)).drop a.length = '"' :: (b ++ ['"']) := by
    have hlen : a.length + 1 + b.length + 1 - a.length = ('"' :: (b ++ ['"'])).length := by
      simp only [List.length_cons, List.length_append, List.length_nil]
      omega
    have hsplit : '"' :: (b ++ '"' :: R) = '"' :: (b ++ ['"']) ++ R := by simp
    rw [List.drop_take, List.drop_left, hlen, hsplit, List.take_left]
  have hbody : ((('"' :: (b ++ ['"'])).take (('"' :: (b ++ ['"'])).length - 1)).drop 1) = b := by simp
  have hnext : a.length + 1 + b.length + 1 = a.length + b.length + 2 := by omega
  rw [scan, hfind]
  dsimp only
  rw [hdrop, close_body hb]
  dsimp only
  rw [hold, hbody]
  cases encodeConstStr b with
  | error e => rfl
  | ok e => exact congrArg (fun next => scan fuel _ next _) hnext

/-- The scan ends at a literal that is not closed. -/
theorem scan_open {a u : Str} {start : ℕ} (hfind : find (a ++ '"' :: u) '"' start = some a.length) (hu : close u = none)
    (fuel : ℕ) (consts : List Str) : scan (fuel + 1) (a ++ '"' :: u) start consts = .error .inputFormat := by
  have hdrop : (a ++ '"' :: u).drop (a.length + 1) = u := by
    rw [← List.drop_drop, List.drop_left]
    rfl
  rw [scan, hfind]
  dsimp only
  rw [hdrop, hu]

theorem scan_done {line : Str} (hline : '"' ∉ line) (fuel start : ℕ) (consts : List Str) :
    scan (fuel + 1) line start consts = .ok (line, consts) := by
  rw [scan, find_of_notMem hline]

theorem encodeConstStr_ne_outOfFuel (b : Str) : encodeConstStr b ≠ .error .outOfFuel := by
  rw [encodeConstStr]
  split
  · exact fun h => nomatch h
  · split <;> exact fun h => nomatch h

/-- **The scan ends**, for each round takes two quotes at least. -/
theorem scan_ne_outOfFuel {line : Str} {fuel : ℕ} (hfuel : line.count '"' < fuel) (start : ℕ) (consts : List Str) :
    scan fuel line start consts ≠ .error .outOfFuel := by
  induction fuel generalizing line start consts with
  | zero => exact absurd hfuel (Nat.not_lt_zero _)
  | succ fuel ih =>
    cases hfind : find line '"' start with
    | none =>
      rw [scan, hfind]
      exact fun h => nomatch h
    | some p =>
      obtain ⟨a, u, rfl, rfl⟩ := find_spec hfind
      cases hclose : close u with
      | none =>
        rw [scan_open hfind hclose]
        exact fun h => nomatch h
      | some n =>
        obtain ⟨b, R, rfl, hb, -⟩ := body_of_close hclose
        rw [scan_literal hfind hb]
        cases hcode : encodeConstStr b with
        | error e => exact fun h => encodeConstStr_ne_outOfFuel b (hcode.trans (congrArg _ (Except.error.inj h)))
        | ok e =>
          have hold : '"' :: (b ++ ['"']) <:+: a ++ '"' :: (b ++ '"' :: R) := ⟨a, R, by simp⟩
          have hlt := count_replace_lt List.mem_cons_self (quote_notMem_encodeConstStr hcode) hold
          exact ih (Nat.lt_of_lt_of_le hlt (Nat.le_of_lt_succ hfuel)) _ _

/-! ### The scan without its cursor -/

/-- **What is emitted** for a text, and the names of its literals: the first literal is replaced wherever its text occurs. -/
inductive Emits : Str → Str → List Str → Prop
  /-- No literal. -/
  | done {s : Str} (hs : '"' ∉ s) : Emits s s []
  /-- A literal. -/
  | literal {s b e R t : Str} {names : List Str} (hs : '"' ∉ s) (hb : Body b) (hcode : encodeConstStr b = .ok e)
      (hrest : Emits (replace R (quoted b) e) t names) : Emits (s ++ (quoted b ++ R)) (s ++ (e ++ t)) (e :: names)

theorem quoted_append (b R : Str) : quoted b ++ R = '"' :: (b ++ '"' :: R) := by simp [quoted]

theorem quoted_ne_nil (b : Str) : quoted b ≠ [] := List.cons_ne_nil _ _

theorem newline_notMem_replace {R b e : Str} (hline : '\n' ∉ R) (he : '\n' ∉ e) : '\n' ∉ replace R (quoted b) e := fun h => by
  have hle := count_replace_le (quoted_ne_nil b) he R
  have := List.count_pos_iff.mpr h
  rw [List.count_eq_zero_of_not_mem hline] at hle
  omega

/-- The cursor stands behind text without quotes, on one line. -/
structure Cursor (pre rest : Str) (start : ℕ) : Prop where
  /-- It has not passed the text. -/
  le : start ≤ pre.length
  /-- The text before it is done. -/
  quote : '"' ∉ pre
  /-- The rest is text of a line. -/
  line : '\n' ∉ rest

section Cursor

variable {pre s b e R : Str} {start : ℕ}

/-- **The text before the cursor is done**: a name is not shorter than its literal. -/
theorem Cursor.next (h : Cursor pre (s ++ (quoted b ++ R)) start) (hs : '"' ∉ s) (hcode : encodeConstStr b = .ok e) :
    Cursor (pre ++ (s ++ e)) (replace R (quoted b) e) ((pre ++ s).length + b.length + 2) := by
  have hR : '\n' ∉ R := fun hmem => h.line (by simp [hmem])
  have hbody : '\n' ∉ b := fun hmem => h.line (by simp [quoted, hmem])
  have hlen := length_le_encodeConstStr hcode hbody
  refine ⟨?_, ?_, newline_notMem_replace hR (newline_notMem_encodeConstStr hcode)⟩
  · simp only [List.length_append]
    omega
  · simp [h.quote, hs, quote_notMem_encodeConstStr hcode]

/-- A round of the scan. -/
theorem Cursor.scan_succ (h : Cursor pre (s ++ (quoted b ++ R)) start) (hs : '"' ∉ s) (hb : Body b)
    (hcode : encodeConstStr b = .ok e) (fuel : ℕ) (consts : List Str) :
    scan (fuel + 1) (pre ++ (s ++ (quoted b ++ R))) start consts =
      scan fuel (pre ++ (s ++ e) ++ replace R (quoted b) e) ((pre ++ s).length + b.length + 2) (declare consts e) := by
  have hquote : '"' ∉ pre ++ s := fun hmem => (List.mem_append.mp hmem).elim h.quote hs
  have hfind := find_append h.le h.quote hs (b ++ '"' :: R)
  have hrep : replace (pre ++ s ++ (quoted b ++ R)) (quoted b) e = pre ++ (s ++ e) ++ replace R (quoted b) e := by
    have hskip : replace (pre ++ s ++ (quoted b ++ R)) (quoted b) e = pre ++ s ++ replace (quoted b ++ R) (quoted b) e :=
      replace_append hquote _
    rw [hskip, replace_hit (quoted_ne_nil b)]
    simp only [List.append_assoc]
  rw [← List.append_assoc] at hfind ⊢
  rw [← hrep, quoted_append, scan_literal hfind hb, hcode]
  rfl

/-- **What is emitted is what the scan makes**. -/
theorem Emits.scan {rest t : Str} {names : List Str} {fuel : ℕ} (h : Emits rest t names) (hcursor : Cursor pre rest start)
    (hfuel : rest.count '"' < fuel) (consts : List Str) :
    scan fuel (pre ++ rest) start consts = .ok (pre ++ t, names.foldl declare consts) := by
  induction h generalizing pre start fuel consts with
  | @done s hs =>
    obtain ⟨fuel, rfl⟩ := Nat.exists_eq_add_one_of_ne_zero (Nat.ne_of_gt (Nat.zero_lt_of_lt hfuel))
    exact scan_done (fun h => (List.mem_append.mp h).elim hcursor.quote hs) fuel start consts
  | @literal s b e R t names hs hb hcode hrest ih =>
    obtain ⟨fuel, rfl⟩ := Nat.exists_eq_add_one_of_ne_zero (Nat.ne_of_gt (Nat.zero_lt_of_lt hfuel))
    have hcount := count_replace_le (quoted_ne_nil b) (quote_notMem_encodeConstStr hcode) R
    have hfuel' : (replace R (quoted b) e).count '"' < fuel := by
      rw [quoted_append] at hfuel
      simp only [List.count_append, List.count_cons_self] at hfuel
      omega
    rw [hcursor.scan_succ hs hb hcode, ih (hcursor.next hs hcode) hfuel']
    simp

/-- What the scan makes is emitted. -/
theorem emits_of_scan {rest line : Str} {fuel : ℕ} {consts consts' : List Str}
    (h : NavexConvert.scan fuel (pre ++ rest) start consts = .ok (line, consts')) (hcursor : Cursor pre rest start) :
    ∃ t names, Emits rest t names ∧ line = pre ++ t ∧ consts' = names.foldl declare consts := by
  induction fuel generalizing pre rest start consts with
  | zero => cases h
  | succ fuel ih =>
    by_cases hrest : '"' ∈ rest
    · obtain ⟨s, u, rfl, hs⟩ := List.eq_append_cons_of_mem hrest
      have hfind := find_append hcursor.le hcursor.quote hs u
      cases hclose : close u with
      | none =>
        rw [← List.append_assoc] at h hfind
        rw [scan_open hfind hclose] at h
        cases h
      | some n =>
        obtain ⟨b, R, rfl, hb, -⟩ := body_of_close hclose
        cases hcode : encodeConstStr b with
        | error e =>
          rw [← List.append_assoc] at h hfind
          rw [scan_literal hfind hb, hcode] at h
          cases h
        | ok e =>
          rw [← quoted_append] at h hcursor ⊢
          rw [hcursor.scan_succ hs hb hcode] at h
          obtain ⟨t, names, ht, rfl, rfl⟩ := ih h (hcursor.next hs hcode)
          exact ⟨s ++ (e ++ t), e :: names, .literal hs hb hcode ht, by simp, rfl⟩
    · rw [scan_done fun h => (List.mem_append.mp h).elim hcursor.quote hrest] at h
      obtain ⟨rfl, rfl⟩ := Prod.mk.inj (Except.ok.inj h)
      exact ⟨rest, [], .done hrest, rfl, rfl⟩

end Cursor

/-! ### Parts of what is emitted -/

/-- Text without quotes is in front of the first quote. -/
theorem append_of_notMem {a rest s u : Str} (ha : '"' ∉ a) (h : a ++ rest = s ++ '"' :: u) :
    ∃ s', s = a ++ s' ∧ rest = s' ++ '"' :: u := by
  rcases List.append_eq_append_iff.mp h with ⟨s', hs, hrest⟩ | ⟨a', hs, hrest⟩
  · exact ⟨s', hs, hrest⟩
  · cases a' with
    | nil => exact ⟨[], by simpa using hs.symm, hrest.symm⟩
    | cons c a' =>
      obtain ⟨rfl, _⟩ := List.cons.inj hrest
      exact absurd (by simp [hs]) ha

/-- Text without quotes is emitted as it is. -/
theorem Emits.append {a rest t : Str} {names : List Str} (ha : '"' ∉ a) (h : Emits rest t names) :
    Emits (a ++ rest) (a ++ t) names := by
  have hquote : ∀ {s}, '"' ∉ s → '"' ∉ a ++ s := fun hs hmem => (List.mem_append.mp hmem).elim ha hs
  cases h with
  | done hs => exact .done (hquote hs)
  | @literal s b e R t names hs hb hcode hrest =>
    have hemits := Emits.literal (hquote hs) hb hcode hrest
    rwa [List.append_assoc, List.append_assoc] at hemits

theorem Emits.of_append {a rest t : Str} {names : List Str} (ha : '"' ∉ a) (h : Emits (a ++ rest) t names) :
    ∃ t', t = a ++ t' ∧ Emits rest t' names := by
  generalize hx : a ++ rest = x at h
  cases h with
  | done hs =>
    subst hx
    exact ⟨rest, rfl, .done fun hmem => hs (List.mem_append_right a hmem)⟩
  | @literal s b e R t names hs hb hcode hrest =>
    rw [quoted_append] at hx
    obtain ⟨s', rfl, rfl⟩ := append_of_notMem ha hx
    refine ⟨s' ++ (e ++ t), by simp, ?_⟩
    rw [← quoted_append]
    exact .literal (fun hmem => hs (List.mem_append_right a hmem)) hb hcode hrest

/-- What is emitted at a quote. -/
theorem Emits.of_quote {u t : Str} {names : List Str} (h : Emits ('"' :: u) t names) :
    ∃ b R e t' names', u = b ++ '"' :: R ∧ Body b ∧ encodeConstStr b = .ok e ∧ t = e ++ t' ∧
      Emits (replace R (quoted b) e) t' names' := by
  generalize hx : '"' :: u = x at h
  cases h with
  | done hs => exact absurd (hx ▸ List.mem_cons_self) hs
  | @literal s b e R t names hs hb hcode hrest =>
    rw [quoted_append] at hx
    cases s with
    | nil => exact ⟨b, R, e, t, names, (List.cons.inj hx).2, hb, hcode, rfl, hrest⟩
    | cons c s => exact absurd ((List.cons.inj hx).1 ▸ List.mem_cons_self) hs

theorem Emits.of_literal {l : Literal} {R t : Str} {names : List Str} (h : Emits (l.text ++ R) t names) :
    ∃ t' names', t = l.name ++ t' ∧ Emits (replace R l.text l.name) t' names' := by
  rw [Literal.text, quoted_append] at h
  obtain ⟨b, R', e, t', names', heq, hb, hcode, rfl, hrest⟩ := h.of_quote
  obtain ⟨rfl, rfl⟩ := body_unique l.closed hb heq
  obtain rfl := Except.ok.inj (l.encodeConstStr_body.symm.trans hcode)
  exact ⟨t', names', rfl, hrest⟩

/-! ### Lines -/

@[simp] theorem Line.text_nil : Line.text [] = [] := rfl

@[simp] theorem Line.text_cons (seg : Segment) (segs : Line) : Line.text (seg :: segs) = seg.text ++ Line.text segs := rfl

@[simp] theorem Line.text_append (segs segs' : Line) : Line.text (segs ++ segs') = Line.text segs ++ Line.text segs' :=
  List.flatMap_append

@[simp] theorem Line.out_nil : Line.out [] = [] := rfl

@[simp] theorem Line.out_cons (seg : Segment) (segs : Line) : Line.out (seg :: segs) = seg.out ++ Line.out segs := rfl

@[simp] theorem Line.out_append (segs segs' : Line) : Line.out (segs ++ segs') = Line.out segs ++ Line.out segs' :=
  List.flatMap_append

@[simp] theorem Segment.naming_plain (l : Literal) (s : Str) (hquote : '"' ∉ s) (hline : '\n' ∉ s) :
    Segment.naming l (.plain s hquote hline) = .plain s hquote hline := rfl

theorem Segment.naming_same {l L : Literal} (h : L.body = l.body) : Segment.naming l (.lit L) =
    .plain l.name (quote_notMem_nameOf _) (newline_notMem_nameOf _) := if_pos h

theorem Segment.naming_other {l L : Literal} (h : L.body ≠ l.body) : Segment.naming l (.lit L) = .lit L := if_neg h

/-- One text has one name. -/
theorem Literal.name_congr {l L : Literal} (h : L.body = l.body) : L.name = l.name := by
  have hdecodes := L.decodes
  rw [h, l.decodes] at hdecodes
  rw [Literal.name, Literal.name, Option.some.inj hdecodes]

/-- A line has the same output when a literal is replaced. -/
theorem out_naming (l : Literal) (segs : Line) : Line.out (segs.map (Segment.naming l)) = Line.out segs := by
  induction segs with
  | nil => rfl
  | cons seg segs ih =>
    rw [List.map_cons, Line.out_cons, Line.out_cons, ih]
    cases seg with
    | plain s hquote hline => rfl
    | lit L =>
      by_cases hL : L.body = l.body
      · rw [Segment.naming_same hL]
        exact congrArg (· ++ Line.out segs) (Literal.name_congr hL).symm
      · rw [Segment.naming_other hL]

/-! ### Replacing a literal on a line -/

theorem clear_nil (l : Literal) : Clear l [] := fun pre L post c d h => absurd h (by simp)

theorem Clear.cons_plain {l : Literal} {segs : Line} (h : Clear l segs) (s : Str) (hquote : '"' ∉ s) (hline : '\n' ∉ s) :
    Clear l (.plain s hquote hline :: segs) := by
  intro pre L post c d heq
  cases pre with
  | nil => exact absurd (List.cons.inj heq).1 (fun h => nomatch h)
  | cons seg pre => exact h pre L post c d (List.cons.inj heq).2

/-- One more literal, at whose quotes the text does not occur. -/
theorem Clear.cons_lit {l L : Literal} {segs : Line} (h : Clear l segs) (hL : L.body ≠ l.body →
    ∀ c d, L.body ++ ['"'] = c ++ '"' :: d → ¬ l.body ++ ['"'] <+: d ++ Line.text segs) : Clear l (.lit L :: segs) := by
  intro pre L' post c d heq
  cases pre with
  | nil =>
    obtain ⟨hhead, rfl⟩ := List.cons.inj heq
    obtain rfl := Segment.lit.inj hhead
    exact fun hne => hL hne c d
  | cons seg pre => exact h pre L' post c d (List.cons.inj heq).2

/-- **A literal's text occurs** at a quote of another literal, and is replaced there. -/
structure Hit (l : Literal) (segs : Line) (Z : Str) (pre : Line) (L : Literal) (post : Line) (c d Y : Str) : Prop where
  /-- The other literal. -/
  parts : segs = pre ++ .lit L :: post
  /-- It is another one. -/
  ne : L.body ≠ l.body
  /-- The quote, inside of it or at its end. -/
  quote : L.body ++ ['"'] = c ++ '"' :: d
  /-- The text starts there. -/
  occurs : l.body ++ ['"'] <+: d ++ (Line.text post ++ Z)
  /-- It is replaced, and so are the occurrences before it. -/
  replaced : replace (Line.text segs ++ Z) l.text l.name =
    Line.text (pre.map (Segment.naming l)) ++ '"' :: (c ++ (l.name ++ Y))

/-- One more part in front. -/
theorem Hit.cons {l L : Literal} {segs pre post : Line} {Z c d Y : Str} (h : Hit l segs Z pre L post c d Y) {seg : Segment}
    (hseg : replace (seg.text ++ (Line.text segs ++ Z)) l.text l.name =
      (seg.naming l).text ++ replace (Line.text segs ++ Z) l.text l.name) : Hit l (seg :: segs) Z (seg :: pre) L post c d Y := by
  refine ⟨by rw [h.parts, List.cons_append], h.ne, h.quote, h.occurs, ?_⟩
  rw [Line.text_cons, List.append_assoc, hseg, h.replaced, List.map_cons, Line.text_cons, List.append_assoc]

/-- A literal does not start where another one does. -/
theorem not_isPrefix_body {l L : Literal} (hne : L.body ≠ l.body) (s : Str) : ¬ l.body ++ ['"'] <+: L.body ++ '"' :: s := by
  rintro ⟨r, hr⟩
  rw [List.append_assoc] at hr
  exact hne (body_unique l.closed L.closed hr).1.symm

/-- The literal is replaced on the line part by part, or there is a hit. -/
def Replaces (l : Literal) (segs : Line) (Z : Str) : Prop :=
  ((Z = [] → Clear l segs) ∧ replace (Line.text segs ++ Z) l.text l.name =
      Line.text (segs.map (Segment.naming l)) ++ replace Z l.text l.name) ∨
    ∃ pre L post c d Y, Hit l segs Z pre L post c d Y

/-- One more part in front, which is copied or is the literal. -/
theorem Replaces.cons {l : Literal} {segs : Line} {Z : Str} (h : Replaces l segs Z) {seg : Segment}
    (hclear : Z = [] → Clear l segs → Clear l (seg :: segs))
    (hseg : replace (seg.text ++ (Line.text segs ++ Z)) l.text l.name =
      (seg.naming l).text ++ replace (Line.text segs ++ Z) l.text l.name) : Replaces l (seg :: segs) Z := by
  rcases h with ⟨hclear', hrep⟩ | ⟨pre, L, post, c, d, Y, hit⟩
  · refine .inl ⟨fun hZ => hclear hZ (hclear' hZ), ?_⟩
    rw [Line.text_cons, List.append_assoc, hseg, hrep, List.map_cons, Line.text_cons, List.append_assoc]
  · exact .inr ⟨_, L, post, c, d, Y, hit.cons hseg⟩

/-- **Replacing a literal** replaces it on the rest of the line part by part, or at a quote of another literal. -/
theorem replaces (l : Literal) (segs : Line) (Z : Str) : Replaces l segs Z := by
  induction segs with
  | nil => exact .inl ⟨fun _ => clear_nil l, rfl⟩
  | cons seg segs ih =>
    cases seg with
    | plain s hquote hline => exact ih.cons (fun _ hclear => hclear.cons_plain s hquote hline) (replace_append hquote _)
    | lit L =>
      by_cases hL : L.body = l.body
      · refine ih.cons (fun _ hclear => hclear.cons_lit fun hne => absurd hL hne) ?_
        rw [Segment.naming_same hL, Segment.text, Literal.text, hL]
        exact replace_hit (quoted_ne_nil l.body) _
      rcases replace_cases '"' (l.body ++ ['"']) l.name L.text (Line.text segs ++ Z) with
        ⟨hmiss, hrep⟩ | ⟨a, b, y, hsplit, hpre, hrep⟩
      · refine ih.cons (fun hZ hclear => hclear.cons_lit fun _ c d hcd => ?_) ?_
        · have := hmiss ('"' :: c) d (congrArg ('"' :: ·) hcd)
          rwa [hZ, List.append_nil] at this
        · rw [Segment.naming_other hL]
          exact hrep
      · cases a with
        | nil =>
          obtain rfl := (List.cons.inj hsplit).2
          rw [List.append_assoc] at hpre
          exact absurd hpre (not_isPrefix_body hL _)
        | cons q c =>
          obtain ⟨rfl, hquote⟩ := List.cons.inj hsplit
          refine .inr ⟨[], L, segs, c, b, y, rfl, hL, hquote, hpre, ?_⟩
          rw [Line.text_cons, List.append_assoc]
          exact hrep

/-- A line on which the literal is clear. -/
theorem replace_of_clear {l : Literal} {segs : Line} (h : Clear l segs) :
    replace (Line.text segs) l.text l.name = Line.text (segs.map (Segment.naming l)) := by
  rcases replaces l segs [] with ⟨_, hrep⟩ | ⟨pre, L, post, c, d, Y, hit⟩
  · simpa using hrep
  · refine absurd hit.occurs ?_
    rw [List.append_nil]
    exact h pre L post c d hit.parts hit.ne hit.quote

/-- The literals that are left when one is replaced. -/
theorem lit_mem_naming {l L : Literal} {segs : Line} :
    .lit L ∈ segs.map (Segment.naming l) ↔ .lit L ∈ segs ∧ L.body ≠ l.body := by
  rw [List.mem_map]
  constructor
  · rintro ⟨seg, hseg, heq⟩
    cases seg with
    | plain s hquote hline => cases heq
    | lit L' =>
      by_cases hL : L'.body = l.body
      · rw [Segment.naming_same hL] at heq
        cases heq
      · rw [Segment.naming_other hL] at heq
        obtain rfl := Segment.lit.inj heq
        exact ⟨hseg, hL⟩
  · exact fun h => ⟨.lit L, h.1, Segment.naming_other h.2⟩

/-- **A line whose literals do not disturb each other** is emitted as it should be. -/
theorem Separate.emits {segs : Line} (h : Separate segs) : ∃ names, Emits (Line.text segs) (Line.out segs) names ∧
    ∀ name, name ∈ names ↔ ∃ l, .lit l ∈ segs ∧ name = l.name := by
  induction h with
  | nil => exact ⟨[], .done List.not_mem_nil, by simp⟩
  | @plain s hquote hline segs hsegs ih =>
    obtain ⟨names, hemits, hnames⟩ := ih
    refine ⟨names, hemits.append hquote, fun name => (hnames name).trans ?_⟩
    simp
  | @lit l segs hclear hsegs ih =>
    obtain ⟨names, hemits, hnames⟩ := ih
    rw [← replace_of_clear hclear, out_naming] at hemits
    refine ⟨l.name :: names, .literal (s := []) List.not_mem_nil l.closed l.encodeConstStr_body hemits, fun name => ?_⟩
    simp only [List.mem_cons, hnames, lit_mem_naming]
    constructor
    · rintro (rfl | ⟨L, ⟨hL, _⟩, rfl⟩)
      · exact ⟨l, .inl rfl, rfl⟩
      · exact ⟨L, .inr hL, rfl⟩
    · rintro ⟨L, hL | hL, rfl⟩
      · exact .inl (congrArg Literal.name (Segment.lit.inj hL))
      · by_cases hbody : L.body = l.body
        · exact .inl (Literal.name_congr hbody)
        · exact .inr ⟨L, ⟨hL, hbody⟩, rfl⟩

end SEDiff.Juxta.NavexConvert
