import SEDiff.Juxta.Parser

/-!
# Path sections

An `.fss` file is a sequence of sections, each between a line `@@<<` and a line `@@>>`.

## What is proved

* `feeder_chunk` — parsing such a file from any offset to any other yields the entries of the
  sections that the chunk owns.
* `parse_entries_flatMap` — the entries of whole sections are parsed to the paths of the sections.
-/

namespace SEDiff.Juxta

open Foundation SEDiff.Juxta.Parser

/-- The lines of a section. -/
def sectionLines (body : List Str) : List Str := opening :: (body ++ [closing])

/-- A path section. -/
structure Section where
  /-- The lines between the markers. -/
  body : List Str
  /-- They are lines. -/
  newline : ∀ l ∈ body, '\n' ∉ l
  /-- Each `@@<<` is on a line of its own. -/
  opens : ∀ l ∈ body, ¬ opening <:+: l
  /-- Each `@@>>` is on a line of its own. -/
  closes : ∀ l ∈ body, ¬ closing <:+: l
  /-- The paths in the section. -/
  paths : List RetPath
  /-- The section is parsed to them on its own. -/
  parses : parse_whole (unlines '\n' (sectionLines body)) = .ok paths

/-- The text of a section. -/
def Section.text (s : Section) : Str := unlines '\n' (sectionLines s.body)

/-- A file of sections. -/
def content (ss : List Section) : Str := ss.flatMap Section.text

/-- The lines of a file of sections. -/
def contentLines (ss : List Section) : List Str := ss.flatMap fun s => sectionLines s.body

theorem content_eq_unlines (ss : List Section) : content ss = unlines '\n' (contentLines ss) := by
  induction ss with
  | nil => rfl
  | cons s ss ih =>
    rw [contentLines, List.flatMap_cons, unlines_append]
    exact congrArg (s.text ++ ·) ih

theorem newline_not_mem_opening : '\n' ∉ opening := by decide

theorem newline_not_mem_closing : '\n' ∉ closing := by decide

theorem Section.newline_lines (s : Section) : ∀ l ∈ sectionLines s.body, '\n' ∉ l := by
  intro l hl
  rcases List.mem_cons.mp hl with rfl | hl
  · exact newline_not_mem_opening
  rcases List.mem_append.mp hl with hl | hl
  · exact s.newline l hl
  · rw [List.mem_singleton.mp hl]
    exact newline_not_mem_closing

theorem newline_contentLines (ss : List Section) : ∀ l ∈ contentLines ss, '\n' ∉ l := by
  intro l hl
  obtain ⟨s, -, hs⟩ := List.mem_flatMap.mp hl
  exact s.newline_lines l hs

/-! ### The lookahead -/

/-- The lines with their lookahead, up to the line that closes the section. -/
def bodyPairs : Str → List Str → List (Str × Option Str)
  | p, [] => [(p, some closing)]
  | p, n :: ns => (p, some (Str.strip (line '\n' n))) :: bodyPairs (Str.strip (line '\n' n)) ns

theorem strip_opening : Str.strip (line '\n' opening) = opening := by decide

theorem strip_closing : Str.strip (line '\n' closing) = closing := by decide

theorem ends_closing : ends (some closing) = true := by decide

/-- What is left of a line without a marker has no marker. -/
theorem not_prefix_strip {m l : Str} (hm : ¬ m <:+: l) (hn : '\n' ∉ m) (hm0 : m ≠ []) :
    ¬ m <+: Str.strip (line '\n' l) := by
  intro h
  have hin : m <:+: l ++ ['\n'] := h.isInfix.trans (Str.strip_infix _)
  obtain ⟨a, b, hab⟩ := hin
  rcases List.eq_nil_or_concat b with rfl | ⟨b', c, rfl⟩
  · rw [List.append_nil] at hab
    obtain ⟨m', c, rfl⟩ := (List.eq_nil_or_concat m).resolve_left hm0
    rw [List.concat_eq_append, ← List.append_assoc] at hab
    have hc := List.append_inj_right' hab rfl
    exact hn (by rw [List.concat_eq_append]; simp [List.singleton_inj.mp hc])
  · rw [List.concat_eq_append, ← List.append_assoc] at hab
    exact hm ⟨a, b', List.append_inj_left' hab rfl⟩

variable {end_ : ℕ}

/-- After a lookahead that ends an entry, no entry is open. -/
theorem feed_ends (st : Feeder) (l : Str) {n : Option Str} (hn : ends n = true) :
    (feed st l n).2.entry = none := by
  obtain ⟨en, e⟩ := st
  cases e with
  | some kv => simp [feed, hn]
  | none =>
    unfold feed
    simp only
    split_ifs <;> rfl

/-- A line that closes a section. -/
theorem feed_closing {st : Feeder} (hst : st.entry = none) (n : Option Str) :
    feed st closing n = ([], ⟨false, none⟩) := by
  obtain ⟨en, e⟩ := st
  subst hst
  cases en <;> rfl

/-- Reading on inside a section up to its end, from any state. -/
theorem feeder_body {p : Str} (st : Feeder) {body : List Str} (hp : ¬ closing <+: p)
    (hbody : ∀ l ∈ body, ¬ closing <:+: l) (offset : ℕ) (ls : List Str) :
    _feeder st (dual end_ p offset (body.map (line '\n') ++ line '\n' closing :: ls)) =
      _feeder st (bodyPairs p body) ++ _feeder ⟨false, none⟩
        (dual end_ closing (offset + (unlines '\n' body).length + closing.length + 1) ls) := by
  induction body generalizing p st offset with
  | nil =>
    have hend := feed_ends st p ends_closing
    have hdual : dual end_ p offset (line '\n' closing :: ls) =
        (p, some closing) :: dual end_ closing (offset + closing.length + 1) ls := by
      rw [dual, if_neg fun h => hp h.2, strip_closing, length_line, Nat.add_assoc]
    have hrest : ∀ fd, _feeder (feed st p (some closing)).2 (dual end_ closing fd ls) =
        _feeder ⟨false, none⟩ (dual end_ closing fd ls) := by
      intro fd
      have hhead : ∃ n ns, dual end_ closing fd ls = (closing, n) :: ns := by
        cases ls with
        | nil => exact ⟨none, [], rfl⟩
        | cons n ns =>
          rw [dual]
          split_ifs
          · exact ⟨none, [], rfl⟩
          · exact ⟨_, _, rfl⟩
      obtain ⟨n, ns, hhead⟩ := hhead
      rw [hhead, _feeder, _feeder, feed_closing hend, feed_closing rfl]
    rw [List.map_nil, List.nil_append, hdual, _feeder, hrest, bodyPairs, _feeder, _feeder, hend]
    simp
  | cons n ns ih =>
    have hn : ¬ closing <+: Str.strip (line '\n' n) :=
      not_prefix_strip (hbody n List.mem_cons_self) newline_not_mem_closing (by decide)
    have hstep := ih (feed st p (some (Str.strip (line '\n' n)))).2 hn
      (fun l hl => hbody l (List.mem_cons_of_mem _ hl)) (offset + (line '\n' n).length)
    rw [List.map_cons, List.cons_append, dual, if_neg fun h => hp h.2, _feeder, hstep, bodyPairs, _feeder,
      List.append_assoc, unlines_cons, List.length_append, Nat.add_assoc offset]

/-- Outside a section the rest of its lines is skipped. -/
theorem feeder_bodyPairs {p : Str} {body : List Str} (hp : ¬ opening <+: p) (hp' : ¬ closing <+: p)
    (hopens : ∀ l ∈ body, ¬ opening <:+: l) (hcloses : ∀ l ∈ body, ¬ closing <:+: l) :
    _feeder ⟨false, none⟩ (bodyPairs p body) = [] := by
  have hfeed : ∀ {p : Str} (n : Option Str), ¬ opening <+: p → ¬ closing <+: p →
      feed ⟨false, none⟩ p n = ([], ⟨false, none⟩) := by
    intro p n ho hc
    simp [feed, ho, hc]
  induction body generalizing p with
  | nil =>
    rw [bodyPairs, _feeder, hfeed _ hp hp']
    rfl
  | cons n ns ih =>
    have ho := not_prefix_strip (hopens n List.mem_cons_self) newline_not_mem_opening (by decide)
    have hc := not_prefix_strip (hcloses n List.mem_cons_self) newline_not_mem_closing (by decide)
    rw [bodyPairs, _feeder, hfeed _ hp hp']
    exact ih ho hc (fun l hl => hopens l (List.mem_cons_of_mem _ hl)) fun l hl =>
      hcloses l (List.mem_cons_of_mem _ hl)

/-! ### The entries of a section -/

namespace Section

/-- The entries of a section. -/
def entries (s : Section) : List (Str × Str) := _feeder ⟨false, none⟩ (bodyPairs opening s.body)

/-- The length of a section. -/
theorem length_text (s : Section) : s.text.length = 5 + (unlines '\n' s.body).length + 5 := by
  rw [text, sectionLines, unlines_cons, unlines_append]
  simp only [List.length_append, length_line, unlines_cons, unlines_nil, List.append_nil]
  rfl

/-- Reading a section from its first line. -/
theorem feeder_opening (s : Section) (a : ℕ) (ls : List Str) :
    _feeder ⟨false, none⟩ (dual end_ opening (a + 5) (s.body.map (line '\n') ++ line '\n' closing :: ls)) =
      s.entries ++ _feeder ⟨false, none⟩ (dual end_ closing (a + s.text.length) ls) := by
  have hlen : a + s.text.length = a + 5 + (unlines '\n' s.body).length + closing.length + 1 := by
    rw [length_text]
    show _ = a + 5 + _ + 4 + 1
    omega
  rw [hlen]
  exact feeder_body ⟨false, none⟩ (by decide) s.closes (a + 5) ls

end Section

/-- The sections with their offsets, from offset `a` on. -/
def located : ℕ → List Section → List (ℕ × Section)
  | _, [] => []
  | a, s :: ss => (a, s) :: located (a + s.text.length) ss

theorem le_of_mem_located {a : ℕ} {ss : List Section} {x : ℕ × Section} (hx : x ∈ located a ss) :
    a ≤ x.1 := by
  induction ss generalizing a with
  | nil => exact absurd hx List.not_mem_nil
  | cons s ss ih =>
    cases List.mem_cons.mp hx with
    | inl h => rw [h]
    | inr h => exact (Nat.le_add_right _ _).trans (ih h)

/-- The physical lines of sections. -/
def physical (ss : List Section) : List Str := (contentLines ss).map (line '\n')

theorem physical_cons (s : Section) (ss : List Section) :
    physical (s :: ss) = line '\n' opening :: (s.body.map (line '\n') ++ line '\n' closing :: physical ss) := by
  simp [physical, contentLines, sectionLines]

/-- Reading on from the end of a section, the sections are parsed whose first line ends before the
chunk does. -/
theorem feeder_closing (a : ℕ) (ss : List Section) :
    _feeder ⟨false, none⟩ (dual end_ closing a (physical ss)) =
      ((located a ss).filter fun x => x.1 + 5 < end_).flatMap fun x => x.2.entries := by
  induction ss generalizing a with
  | nil => rfl
  | cons s ss ih =>
    have hlen : (line '\n' opening).length = 5 := rfl
    rw [physical_cons, dual, strip_opening, located, hlen]
    by_cases hend : a + 5 ≥ end_
    · rw [if_pos ⟨hend, List.prefix_refl _⟩, List.filter_eq_nil_iff.mpr]
      · rfl
      · intro x hx
        have hle : a ≤ x.1 := by
          cases List.mem_cons.mp hx with
          | inl h => rw [h]
          | inr h => exact (Nat.le_add_right _ _).trans (le_of_mem_located h)
        simp only [decide_eq_true_eq]
        omega
    · rw [if_neg fun h => hend h.1, List.filter_cons_of_pos (by simpa using hend), List.flatMap_cons, ← ih,
        _feeder, feed_closing rfl, List.nil_append]
      exact s.feeder_opening a (physical ss)

/-! ### Chunks -/

/-- A chunk owns a section when it starts in the line before it or in its first line's first byte, or
when it starts earlier and ends after its first line. -/
def Owned (start end_ a : ℕ) : Prop := (a < start + 5 ∧ start ≤ a) ∨ (start + 5 ≤ a ∧ a + 5 < end_)

instance (start end_ a : ℕ) : Decidable (Owned start end_ a) :=
  inferInstanceAs (Decidable (_ ∨ _))

/-- The entries of the sections that a chunk owns. -/
def ownedEntries (start end_ a : ℕ) (ss : List Section) : List (Str × Str) :=
  ((located a ss).filter fun x => Owned start end_ x.1).flatMap fun x => x.2.entries

variable {start a : ℕ}

/-- From the end of a section on, the chunk owns what its end leaves it. -/
theorem feeder_closing_owned (start : ℕ) (h : start + 5 ≤ a) (ss : List Section) :
    _feeder ⟨false, none⟩ (dual end_ closing a (physical ss)) = ownedEntries start end_ a ss := by
  rw [feeder_closing, ownedEntries]
  congr 1
  refine List.filter_congr fun x hx => ?_
  have hle := le_of_mem_located hx
  refine decide_eq_decide.mpr ?_
  unfold Owned
  omega

/-- Skipping the rest of a section. -/
theorem feeder_skip {p : Str} {body : List Str} (hp : ¬ opening <+: p) (hp' : ¬ closing <+: p)
    (hopens : ∀ l ∈ body, ¬ opening <:+: l) (hcloses : ∀ l ∈ body, ¬ closing <:+: l) (offset : ℕ)
    (ls : List Str) :
    _feeder ⟨false, none⟩ (dual end_ p offset (body.map (line '\n') ++ line '\n' closing :: ls)) =
      _feeder ⟨false, none⟩ (dual end_ closing (offset + (unlines '\n' body).length + 5) ls) := by
  rw [feeder_body _ hp' hcloses, feeder_bodyPairs hp hp' hopens hcloses]
  rfl

/-- A chunk that starts inside the line before a section owns it. -/
theorem feeder_partial {p : Str} (hp : ¬ opening <+: p) (hp' : ¬ closing <+: p) (h : a < start + 5)
    (h' : start ≤ a) (ss : List Section) :
    _feeder ⟨false, none⟩ (dual end_ p a (physical ss)) = ownedEntries start end_ a ss := by
  have hfeed : ∀ n, feed ⟨false, none⟩ p n = ([], ⟨false, none⟩) := by
    intro n
    simp [feed, hp, hp']
  cases ss with
  | nil =>
    rw [physical, contentLines, List.flatMap_nil, List.map_nil, dual, _feeder, hfeed]
    rfl
  | cons s ss =>
    have hlen : 5 ≤ s.text.length := by
      rw [s.length_text]
      omega
    have hown : Owned start end_ a := .inl ⟨h, h'⟩
    rw [physical_cons, dual, strip_opening, if_neg fun hc => hp' hc.2, _feeder, hfeed, List.nil_append,
      ownedEntries, located, List.filter_cons_of_pos (by simpa using hown), List.flatMap_cons]
    refine (s.feeder_opening a (physical ss)).trans ?_
    rw [feeder_closing_owned start (by omega)]
    rfl

/-- Reading a chunk, from the text after its start. -/
def scan (start end_ : ℕ) (cs : Str) : List (Str × Option Str) :=
  match lines '\n' cs with
  | [] => [([], none)]
  | p :: ns => dual end_ (Str.strip p) (start + p.length) ns

theorem _dual_open_eq (cs : Str) : _dual_open cs start end_ = scan start end_ (cs.drop start) := rfl

/-- A chunk that starts inside a section, in the line `l` and before `post`. -/
theorem scan_line {l : Str} (d : ℕ) {post : List Str} (hl : '\n' ∉ l) (hpost : ∀ l ∈ post, '\n' ∉ l)
    (ss : List Section) :
    scan start end_ (line '\n' (l.drop d) ++ (unlines '\n' post ++ content ss)) =
      dual end_ (Str.strip (line '\n' (l.drop d))) (start + (l.length - d + 1))
        (post.map (line '\n') ++ physical ss) := by
  have hrest : lines '\n' (unlines '\n' post ++ content ss) = post.map (line '\n') ++ physical ss := by
    rw [content_eq_unlines, ← unlines_append, lines_unlines, List.map_append, physical]
    intro l hl
    cases List.mem_append.mp hl with
    | inl h => exact hpost l h
    | inr h => exact newline_contentLines ss l h
  unfold scan
  rw [lines_line_append fun h => hl (List.mem_of_mem_drop h), hrest]
  simp only [length_line, List.length_drop]

/-- What is left of a marker is not a marker. -/
theorem not_prefix_drop_marker {m : Str} (hm : m = opening ∨ m = closing) {d : ℕ} (hd : 0 < d)
    (hd' : d ≤ m.length) :
    ¬ opening <+: Str.strip (line '\n' (m.drop d)) ∧ ¬ closing <+: Str.strip (line '\n' (m.drop d)) := by
  have hopening : ∀ d ≤ 4, 0 < d → ¬ opening <+: Str.strip (line '\n' (opening.drop d)) ∧
      ¬ closing <+: Str.strip (line '\n' (opening.drop d)) := by decide
  have hclosing : ∀ d ≤ 4, 0 < d → ¬ opening <+: Str.strip (line '\n' (closing.drop d)) ∧
      ¬ closing <+: Str.strip (line '\n' (closing.drop d)) := by decide
  cases hm with
  | inl h =>
    subst h
    exact hopening d hd' hd
  | inr h =>
    subst h
    exact hclosing d hd' hd

/-- A chunk that starts inside a section after its first byte. -/
theorem feeder_inside (s : Section) {d : ℕ} {pre post : List Str} {l : Str}
    (hlines : sectionLines s.body = pre ++ l :: post) (hd : d ≤ l.length)
    (hstart : start = a + (unlines '\n' pre).length + d) (hne : a ≠ start) (ss : List Section) :
    _feeder ⟨false, none⟩ (scan start end_ (line '\n' (l.drop d) ++ (unlines '\n' post ++ content ss))) =
      ownedEntries start end_ (a + s.text.length) ss := by
  have hnl : ∀ l' ∈ pre ++ l :: post, '\n' ∉ l' := hlines ▸ s.newline_lines
  have hlen := s.length_text
  rw [scan_line d (hnl l (by simp)) (fun l' h => hnl l' (by simp [h]))]
  have hpart : ∀ m : Str, ¬ m <:+: l → ¬ m <:+: l.drop d := fun m hm h =>
    hm (h.trans (List.drop_suffix d l).isInfix)
  cases pre with
  | nil =>
    -- in the first line
    rw [List.nil_append, sectionLines, List.cons.injEq] at hlines
    obtain ⟨rfl, rfl⟩ := hlines
    rw [unlines_nil, List.length_nil, Nat.add_zero] at hstart
    obtain ⟨ho, hc⟩ := not_prefix_drop_marker (.inl rfl) (show 0 < d by omega) hd
    rw [List.map_append, List.append_assoc]
    refine (feeder_skip ho hc s.opens s.closes _ (physical ss)).trans ?_
    have hd4 : d ≤ 4 := hd
    have hopen : opening.length = 4 := rfl
    rw [← feeder_closing_owned start (by omega)]
    congr 2
    omega
  | cons o pre =>
    rw [List.cons_append, sectionLines, List.cons.injEq] at hlines
    obtain ⟨rfl, hlines⟩ := hlines
    have hopen : (line '\n' opening).length = 5 := rfl
    rw [unlines_cons, List.length_append, hopen] at hstart
    rcases List.eq_nil_or_concat post with rfl | ⟨post, c, rfl⟩
    · -- in the last line
      obtain ⟨hbody, hl⟩ := List.append_inj' hlines rfl
      have hl : closing = l := List.singleton_inj.mp hl
      subst hl
      rw [hbody] at hlen
      have hd4 : d ≤ 4 := hd
      have hclose : closing.length = 4 := rfl
      have hpos : start + (closing.length - d + 1) = a + s.text.length := by omega
      rw [List.map_nil, List.nil_append, hpos]
      by_cases hd0 : d = 0
      · subst hd0
        have hstrip : Str.strip (line '\n' (closing.drop 0)) = closing := by decide
        rw [hstrip]
        exact feeder_closing_owned start (by omega) ss
      · obtain ⟨ho, hc⟩ := not_prefix_drop_marker (.inr rfl) (show 0 < d by omega) hd
        exact feeder_partial ho hc (by omega) (by omega) ss
    · -- between the markers
      rw [List.concat_eq_append, ← List.cons_append, ← List.append_assoc] at hlines
      obtain ⟨hbody, hc⟩ := List.append_inj' hlines rfl
      have hc : closing = c := List.singleton_inj.mp hc
      subst hc
      have hmem : ∀ l' ∈ l :: post, l' ∈ s.body := fun l' h => hbody ▸ List.mem_append_right pre h
      have ho := not_prefix_strip (hpart _ (s.opens l (hmem l List.mem_cons_self)))
        newline_not_mem_opening (by decide)
      have hc := not_prefix_strip (hpart _ (s.closes l (hmem l List.mem_cons_self)))
        newline_not_mem_closing (by decide)
      rw [List.concat_eq_append, List.map_append, List.append_assoc]
      refine (feeder_skip ho hc (fun l' h => s.opens l' (hmem l' (List.mem_cons_of_mem _ h)))
        (fun l' h => s.closes l' (hmem l' (List.mem_cons_of_mem _ h))) _ (physical ss)).trans ?_
      rw [hbody, unlines_append, unlines_cons, List.length_append, List.length_append, length_line] at hlen
      rw [← feeder_closing_owned start (by omega)]
      congr 2
      omega

/-- **A chunk yields the entries of the sections it owns.** -/
theorem feeder_chunk (end_ : ℕ) (ha : a ≤ start) (ss : List Section) :
    _feeder ⟨false, none⟩ (scan start end_ ((content ss).drop (start - a))) =
      ownedEntries start end_ a ss := by
  induction ss generalizing a with
  | nil =>
    rw [content, List.flatMap_nil, List.drop_nil]
    rfl
  | cons s ss ih =>
    have hcontent : content (s :: ss) = s.text ++ content ss := rfl
    have hlen := s.length_text
    by_cases hS : start < a + s.text.length
    · by_cases hbegin : a = start
      · subst hbegin
        have hown : Owned a end_ a := .inl ⟨by omega, le_rfl⟩
        have htext : s.text = line '\n' (opening.drop 0) ++ unlines '\n' (s.body ++ [closing]) := rfl
        have hscan := @scan_line end_ a opening 0 (s.body ++ [closing]) newline_not_mem_opening
          (fun l hl => s.newline_lines l (List.mem_cons_of_mem _ hl)) ss
        have hopen : Str.strip (line '\n' (opening.drop 0)) = opening := by decide
        rw [hcontent, Nat.sub_self, List.drop_zero, htext, List.append_assoc, hscan, hopen, List.map_append,
          List.append_assoc, ownedEntries, located, List.filter_cons_of_pos (by simpa using hown),
          List.flatMap_cons]
        refine (s.feeder_opening a (physical ss)).trans ?_
        rw [feeder_closing_owned a (by omega)]
        rfl
      · obtain ⟨pre, l, post, d, hlines, hd, hpos, hdrop⟩ :=
          @drop_unlines _ '\n' (sectionLines s.body) (start - a) (by
            show _ < s.text.length
            omega)
        have hown : ¬ Owned start end_ a := by
          unfold Owned
          omega
        rw [ownedEntries, located, List.filter_cons_of_neg (by simpa using hown), hcontent, Section.text, hdrop]
        exact feeder_inside s hlines hd (by omega) hbegin ss
    · have hown : ¬ Owned start end_ a := by
        unfold Owned
        omega
      rw [hcontent, List.drop_append, List.drop_eq_nil_of_le (by omega), List.nil_append, Nat.sub_sub,
        ih (by omega), ownedEntries, ownedEntries, located, List.filter_cons_of_neg (by simpa using hown)]

/-! ### Paths -/

/-- Entries of which the first begins a path. -/
def Begins (es : List (Str × Str)) : Prop := ∀ e, es.head? = some e → e.1 = "LOCATION".toList

theorem Begins.append {es fs : List (Str × Str)} (he : Begins es) (hf : Begins fs) : Begins (es ++ fs) := by
  cases es with
  | nil => exact hf
  | cons e es => exact fun e' h => he e' h

theorem parse_entries_cons (state_path : Option RetPath) (key val : Str) (es : List (Str × Str)) :
    parse_entries state_path ((key, val) :: es) =
      if key = "LOCATION".toList then do
        let path ← RetPath.init.add_entry key val
        let paths ← parse_entries (some path) es
        return state_path.toList ++ paths
      else match state_path with
        | none => .error .attributeError
        | some path => path.add_entry key val >>= fun path => parse_entries (some path) es := by
  cases state_path <;> rfl

/-- What is parsed on its own begins a path. -/
theorem begins_of_parse {es : List (Str × Str)} {paths : List RetPath}
    (h : parse_entries none es = .ok paths) : Begins es := by
  cases es with
  | nil => exact fun e he => nomatch he
  | cons e es =>
    intro e' he
    obtain rfl : e = e' := Option.some_inj.mp he
    by_contra hkey
    rw [parse_entries, if_neg hkey] at h
    exact nomatch h

/-- Entries that begin a path are parsed apart from the entries before them. -/
theorem parse_entries_append {state_path : Option RetPath} {es fs : List (Str × Str)}
    {paths paths' : List RetPath} (h : parse_entries state_path es = .ok paths) (hf : Begins fs)
    (h' : parse_entries none fs = .ok paths') :
    parse_entries state_path (es ++ fs) = .ok (paths ++ paths') := by
  induction es generalizing state_path paths with
  | nil =>
    obtain rfl : state_path.toList = paths := Except.ok.inj h
    cases fs with
    | nil =>
      obtain rfl : [] = paths' := Except.ok.inj h'
      rw [List.append_nil, List.append_nil]
      exact h
    | cons f fs =>
      obtain ⟨key, val⟩ := f
      have hkey : key = "LOCATION".toList := hf _ rfl
      rw [parse_entries_cons, if_pos hkey] at h'
      obtain ⟨path, hadd, h'⟩ := bind_eq_ok.mp h'
      obtain ⟨ps, hrest, h'⟩ := bind_eq_ok.mp h'
      obtain rfl : ps = paths' := Except.ok.inj h'
      rw [List.nil_append, parse_entries_cons, if_pos hkey, hadd, ok_bind, hrest]
      rfl
  | cons e es ih =>
    obtain ⟨key, val⟩ := e
    rw [List.cons_append]
    rw [parse_entries_cons] at h ⊢
    by_cases hkey : key = "LOCATION".toList
    · rw [if_pos hkey] at h ⊢
      obtain ⟨path, hadd, h⟩ := bind_eq_ok.mp h
      obtain ⟨ps, hrest, h⟩ := bind_eq_ok.mp h
      obtain rfl : state_path.toList ++ ps = paths := Except.ok.inj h
      rw [hadd, ok_bind, ih hrest, ok_bind, List.append_assoc]
      rfl
    · rw [if_neg hkey] at h ⊢
      cases state_path with
      | none => exact nomatch h
      | some path =>
        obtain ⟨path', hadd, h⟩ := bind_eq_ok.mp h
        simp only [hadd, ok_bind]
        exact ih h

/-- Parsing a file from `start` to `end_` parses the entries of the sections in it. -/
theorem parse_file_content (start end_ : ℕ) (ss : List Section) :
    parse_file (content ss) start end_ = parse_entries none (ownedEntries start end_ 0 ss) := by
  rw [parse_file, _dual_open_eq, ← feeder_chunk end_ (Nat.zero_le start) ss, Nat.sub_zero]

/-- The entries of a section are parsed to its paths. -/
theorem Section.parse_entries (s : Section) : Parser.parse_entries none s.entries = .ok s.paths := by
  have hwhole : parse_whole (content [s]) = .ok s.paths := by
    rw [content, List.flatMap_cons, List.flatMap_nil, List.append_nil]
    exact s.parses
  rw [parse_whole, parse_file_content] at hwhole
  have hown : ownedEntries 0 (2 ^ 64) 0 [s] = s.entries := by
    rw [ownedEntries, located, located, List.filter_cons_of_pos (by simp [Owned])]
    exact List.append_nil _
  rwa [hown] at hwhole

/-- **The entries of whole sections are parsed to the paths of the sections.** -/
theorem parse_entries_flatMap (xs : List (ℕ × Section)) :
    Begins (xs.flatMap fun x => x.2.entries) ∧
      parse_entries none (xs.flatMap fun x => x.2.entries) = .ok (xs.flatMap fun x => x.2.paths) := by
  induction xs with
  | nil => exact ⟨fun e he => (nomatch he), rfl⟩
  | cons x xs ih =>
    obtain ⟨hbegins, hparse⟩ := ih
    rw [List.flatMap_cons, List.flatMap_cons]
    exact ⟨(begins_of_parse x.2.parse_entries).append hbegins,
      parse_entries_append x.2.parse_entries hbegins hparse⟩

/-- The paths of the sections that a chunk owns. -/
def ownedPaths (start end_ : ℕ) (ss : List Section) : List RetPath :=
  ((located 0 ss).filter fun x => Owned start end_ x.1).flatMap fun x => x.2.paths

/-- **A chunk is parsed to the paths of the sections it owns.** -/
theorem parse_chunk (start end_ : ℕ) (ss : List Section) :
    parse_file (content ss) start end_ = .ok (ownedPaths start end_ ss) := by
  rw [parse_file_content]
  exact (parse_entries_flatMap _).2

end SEDiff.Juxta
