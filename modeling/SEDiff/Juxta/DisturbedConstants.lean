import SEDiff.Foundation.Python
import SEDiff.Juxta.ConstantTokens

/-!
# Disturbed constants

What `convert` makes of a line where the text of a literal occurs at a quote of another one. The name is written over the
quote; the other literal is then not closed, or is closed later and has the name in it, so it never gets its own name.

## What is proved

* `not_isPrefix_name` — a literal with another's name in it has another name.
* `not_emits_of_damaged` — what is behind the damage is not emitted as it should be.
* `exists_emits_iff` — a line is emitted as it should be exactly when its literals do not disturb each other.
* `convert_faithful_iff` — so a file is converted faithfully exactly when this is so on each line.
-/

namespace SEDiff.Juxta.NavexConvert

open Foundation Str

/-! ### The part before a quote -/

theorem Body.drop {b : Str} (hb : Body b) {n : ℕ} (hdigits : ∀ x ∈ b.take n, (hexDigit x).isSome = true) :
    Body (b.drop n) := by
  induction hb generalizing n with
  | nil => exact (List.drop_nil (i := n)).symm ▸ .nil
  | @char c b hquote hslash hb ih =>
    cases n with
    | zero => exact .char hquote hslash hb
    | succ n => exact ih fun x hx => hdigits x (List.mem_cons_of_mem c hx)
  | @escaped c b hb ih =>
    cases n with
    | zero => exact .escaped hb
    | succ n => exact absurd (hdigits '\\' List.mem_cons_self) (by decide)

/-- What is behind an escape is a body again. -/
theorem Body.drop_escape {c : Char} {b : Str} {e : Str × ℕ} (hb : Body b) (h : Escape c b e) : Body ((c :: b).drop e.2) := by
  cases h with
  | lineEnd hc => exact hb
  | short hd => exact hb
  | @digits d n hpos hthree hlen hdigits hd =>
    obtain ⟨n, rfl⟩ := Nat.exists_eq_add_of_le' hpos
    exact hb.drop hdigits
  | unknown hc => exact hb

/-- A body is decoded when a text that it starts is. -/
theorem exists_decode {b s d : Str} (hb : Body b) (h : decode (b ++ '\\' :: s) = some d) : ∃ d', decode b = some d' := by
  have hbreaks : Breaks ('\\' :: s) := by
    rintro c hc
    obtain rfl := Option.some.inj hc
    decide
  refine @decode_induction (fun t _ => ∀ b, Body b → t = b ++ '\\' :: s → ∃ d', decode b = some d') ?_ ?_ ?_ _ d h b hb rfl
  · rintro b - heq
    simp at heq
  · rintro c t d hc - ih b hb heq
    cases hb with
    | nil => exact ⟨[], rfl⟩
    | @char c' b hquote hslash hb =>
      obtain ⟨-, rfl⟩ := List.cons.inj heq
      obtain ⟨d', hd'⟩ := ih b hb rfl
      exact ⟨c' :: d', by rw [decode_cons hslash, hd']; rfl⟩
    | escaped hb => exact absurd (List.cons.inj heq).1 hc
  · rintro c t e d he - - ih b hb heq
    cases hb with
    | nil => exact ⟨[], rfl⟩
    | char hquote hslash hb => exact absurd (List.cons.inj heq).1.symm hslash
    | @escaped c' b hb =>
      simp only [List.cons_append, List.cons.injEq, true_and] at heq
      obtain ⟨rfl, rfl⟩ := heq
      rw [← List.cons_append, escape_append (List.cons_ne_nil c b) hbreaks] at he
      have hdrop : ((c :: b) ++ '\\' :: s).drop e.2 = (c :: b).drop e.2 ++ '\\' :: s :=
        List.drop_append_of_le_length (escape_length he).2
      obtain ⟨d', hd'⟩ := ih _ (hb.drop_escape (escape_spec he)) hdrop
      exact ⟨e.1 ++ d', by rw [decode_backslash, he, Option.bind_some, hd']; rfl⟩

/-- Before a quote inside a body, there is a backslash. -/
theorem Body.of_quote {c d : Str} (hb : Body (c ++ '"' :: d)) : ∃ b, c = b ++ ['\\'] ∧ Body b := by
  generalize hx : c ++ '"' :: d = x at hb
  induction hb generalizing c with
  | nil => simp at hx
  | @char y x hquote hslash hb ih =>
    cases c with
    | nil => exact absurd (List.cons.inj hx).1.symm hquote
    | cons z c =>
      obtain ⟨rfl, hrest⟩ := List.cons.inj hx
      obtain ⟨b, rfl, hb⟩ := ih hrest
      exact ⟨z :: b, rfl, .char hquote hslash hb⟩
  | @escaped y x hb ih =>
    match c with
    | [] => exact absurd (List.cons.inj hx).1 (by decide)
    | [z] =>
      obtain ⟨rfl, -⟩ := List.cons.inj hx
      exact ⟨[], rfl, .nil⟩
    | z :: w :: c =>
      simp only [List.cons_append, List.cons.injEq] at hx
      obtain ⟨rfl, rfl, hrest⟩ := hx
      obtain ⟨b, rfl, hb⟩ := ih hrest
      exact ⟨'\\' :: w :: b, rfl, .escaped hb⟩

/-- What a body starts with another name behind ends behind the name: there is no quote before. -/
theorem body_append {L m c d w Y r : Str} (hL : Body L) (hcd : L ++ ['"'] = c ++ '"' :: d) (hm : Body m) (hw : '"' ∉ w)
    (hne : w ≠ []) (h : c ++ (w ++ Y) = m ++ '"' :: r) : ∃ y, m = c ++ (w ++ y) := by
  rcases List.append_eq_append_iff.mp h with ⟨x, rfl, hx⟩ | ⟨x, hc, hx⟩
  · obtain ⟨y, rfl, -⟩ := append_of_notMem hw hx
    exact ⟨y, rfl⟩
  · cases x with
    | nil =>
      obtain ⟨z, w, rfl⟩ := List.exists_cons_of_ne_nil hne
      exact absurd ((List.cons.inj hx).1 ▸ List.mem_cons_self) hw
    | cons z x =>
      obtain ⟨rfl, -⟩ := List.cons.inj hx
      have hbody : L ++ '"' :: [] = m ++ '"' :: (x ++ '"' :: d) := by rw [hcd, hc, List.append_assoc, List.cons_append]
      exact absurd (body_unique hL hm hbody).2 (by simp)

/-! ### Names with a name in them -/

/-- Codes have no two underscores in a row. -/
theorem flatMap_code_ne (s p T : Str) : s.flatMap code ≠ p ++ '_' :: '_' :: T := by
  induction s generalizing p with
  | nil => simp
  | cons c s ih =>
    have hdigit : ∀ n, Nat.digitChar n ≠ '_' := fun n => Nat.digitChar_ne '_' (by decide)
    intro h
    rw [List.flatMap_cons, code] at h
    rcases p with _ | ⟨_, _ | ⟨_, _ | ⟨_, _ | ⟨_, p⟩⟩⟩⟩
    · simp at h
    · simp at h
    · simp [hdigit] at h
    · simp [hdigit] at h
    · simp only [List.cons_append, List.cons.injEq, List.nil_append] at h
      exact ih p h.2.2.2.2

theorem isPrefix_nameOf_iff {s t R : Str} : nameOf s <+: nameOf t ++ R ↔ s.flatMap code <+: t.flatMap code ++ R := by
  rw [nameOf, nameOf, List.append_assoc, List.prefix_append_right_inj]

theorem nameOf_append_isPrefix_iff {s t t' R : Str} :
    nameOf (s ++ t') <+: nameOf (s ++ t) ++ R ↔ t'.flatMap code <+: t.flatMap code ++ R := by
  rw [isPrefix_nameOf_iff, List.flatMap_append, List.flatMap_append, List.append_assoc, List.prefix_append_right_inj]

/-- What a backslash before a name stands for is not what it stands for before a quote. -/
theorem decode_escaped_name {x y d : Str} (h : decode ('\\' :: (nameOf x ++ y)) = some d) : ∃ d', d = '\\' :: d' := by
  have hescape : escape (nameOf x ++ y) = some (['\\', '_'], 1) := rfl
  rw [decode_backslash, hescape, Option.bind_some] at h
  obtain ⟨d', -, rfl⟩ := Option.map_eq_some_iff.mp h
  exact ⟨'_' :: d', rfl⟩

theorem decode_escaped_quote {s d : Str} (h : decode ('\\' :: '"' :: s) = some d) : ∃ d', d = '"' :: d' := by
  have hescape : escape ('"' :: s) = some (['"'], 1) := rfl
  rw [decode_backslash, hescape, Option.bind_some] at h
  obtain ⟨d', -, rfl⟩ := Option.map_eq_some_iff.mp h
  exact ⟨d', rfl⟩

theorem breaks_cons {c : Char} (hc : octalDigit c = none ∧ hexDigit c = none) (s : Str) : Breaks (c :: s) := by
  rintro c' hc'
  obtain rfl := Option.some.inj hc'
  exact hc

theorem breaks_nameOf (x y : Str) : Breaks (nameOf x ++ y) := breaks_cons (by decide) _

/-- A name that is written over a closing quote is in the name of the literal, where two underscores should be. -/
theorem not_isPrefix_closed (L : Literal) {x y d p T : Str} (h : decode (L.body ++ (nameOf x ++ y)) = some d)
    (hp : p.length + 2 ≤ (nameOf x).length) : ¬ nameOf d <+: L.name ++ (p ++ '_' :: '_' :: T) := by
  have hslash : '\\' ∉ nameOf x := notMem_nameOf (by decide) x
  rw [decode_append L.decodes (breaks_nameOf x y), decode_append_plain hslash, Option.map_map] at h
  obtain ⟨d', -, rfl⟩ := Option.map_eq_some_iff.mp h
  intro hpre
  have hcodes : ((nameOf x ++ d').flatMap code) <+: p ++ '_' :: '_' :: T := by
    have := @nameOf_append_isPrefix_iff L.decoded [] (nameOf x ++ d') (p ++ '_' :: '_' :: T)
    rw [List.append_nil] at this
    exact this.mp hpre
  have hlen : (p ++ ['_', '_']).length ≤ ((nameOf x ++ d').flatMap code).length := by
    rw [length_flatMap_code]
    simp only [List.length_append, List.length_cons, List.length_nil]
    omega
  have hleft : p ++ ['_', '_'] <+: p ++ '_' :: '_' :: T := ⟨T, by simp⟩
  obtain ⟨r, hr⟩ := List.prefix_of_prefix_length_le hleft hcodes hlen
  exact flatMap_code_ne _ p r (by rw [← hr]; simp)

/-- A name that is written over an escaped quote takes the backslash with it. -/
theorem not_isPrefix_escaped (L : Literal) {c d x y s R : Str} (hL : L.body = c ++ '"' :: d)
    (h : decode (c ++ (nameOf x ++ y)) = some s) : ¬ nameOf s <+: L.name ++ R := by
  have hclosed := L.closed
  have hdecodes := L.decodes
  rw [hL] at hclosed hdecodes
  obtain ⟨b, rfl, hb⟩ := hclosed.of_quote
  rw [List.append_assoc] at h hdecodes
  obtain ⟨d₀, hd₀⟩ := exists_decode hb hdecodes
  rw [List.cons_append, List.nil_append, decode_append hd₀ (breaks_cons (by decide) _)] at h hdecodes
  obtain ⟨s', hs', rfl⟩ := Option.map_eq_some_iff.mp h
  obtain ⟨t, ht, hdecoded⟩ := Option.map_eq_some_iff.mp hdecodes
  obtain ⟨s', rfl⟩ := decode_escaped_name hs'
  obtain ⟨t, rfl⟩ := decode_escaped_quote ht
  rw [Literal.name, ← hdecoded, nameOf_append_isPrefix_iff]
  rintro ⟨r, hr⟩
  simp only [List.flatMap_cons, code, List.cons_append, List.cons.injEq] at hr
  exact absurd hr.2.2.1 (by decide)

/-! ### Damage -/

/-- **The damage** that is left where a name is written over a quote, and what should be emitted there. -/
inductive Damaged : Str → Str → Prop
  /-- A wrong name. -/
  | named {w Y G : Str} (hw : '"' ∉ w) (hG : ¬ w <+: G) (hmark : ['_', '_'] <+: G) : Damaged (w ++ Y) G
  /-- The start of a literal, up to the name that is written over one of its quotes. Is it the closing one, the line goes on
  with two underscores of a name before a name of that length ends. -/
  | cut {L : Literal} {c d x Y R : Str} (hL : L.body ++ ['"'] = c ++ '"' :: d)
      (hR : d = [] → ∃ p T, R = p ++ '_' :: '_' :: T ∧ p.length + 2 ≤ (nameOf x).length) :
    Damaged ('"' :: (c ++ (nameOf x ++ Y))) (L.name ++ R)

/-- No literal that starts there has the right name. -/
theorem not_isPrefix_name {L : Literal} {c d x m e Y r R : Str} (hL : L.body ++ ['"'] = c ++ '"' :: d)
    (hR : d = [] → ∃ p T, R = p ++ '_' :: '_' :: T ∧ p.length + 2 ≤ (nameOf x).length) (hm : Body m)
    (h : c ++ (nameOf x ++ Y) = m ++ '"' :: r) (hcode : encodeConstStr m = .ok e) : ¬ e <+: L.name ++ R := by
  have hne : nameOf x ≠ [] := List.cons_ne_nil _ _
  obtain ⟨y, rfl⟩ := body_append L.closed hL hm (quote_notMem_nameOf x) hne h
  obtain ⟨s, hs, he⟩ := decode_of_encodeConstStr hcode
  rw [he]
  rcases List.eq_nil_or_concat d with rfl | ⟨d, z, rfl⟩
  · have hbody : L.body = c := List.append_cancel_right hL
    obtain ⟨p, T, rfl, hp⟩ := hR rfl
    rw [← hbody] at hs
    exact not_isPrefix_closed L hs hp
  · have happend : L.body ++ ['"'] = (c ++ '"' :: d) ++ [z] := by simpa using hL
    have hbody : L.body = c ++ '"' :: d := (List.append_inj' happend rfl).1
    exact not_isPrefix_escaped L hbody hs

/-- It is not emitted as it should be. -/
theorem Damaged.not_emits {Z G : Str} (h : Damaged Z G) (names : List Str) : ¬ Emits Z G names := by
  intro hemits
  cases h with
  | named hw hG hmark =>
    obtain ⟨t, rfl, -⟩ := hemits.of_append hw
    exact hG (List.prefix_append _ t)
  | cut hL hR =>
    obtain ⟨b, R', e, t, names', heq, hb, hcode, hout, -⟩ := hemits.of_quote
    exact not_isPrefix_name hL hR hb heq hcode ⟨t, hout.symm⟩

theorem Damaged.mark {Z G : Str} (h : Damaged Z G) : ['_', '_'] <+: G := by
  cases h with
  | named hw hG hmark => exact hmark
  | cut hL hR => exact ⟨_, rfl⟩

/-- **Damage stays** when a literal before it is replaced. -/
theorem Damaged.replace {Z G m e : Str} (h : Damaged Z G) (hm : Body m) (hcode : encodeConstStr m = .ok e) :
    Damaged (replace Z (quoted m) e) G := by
  cases h with
  | @named w Y G hw hG hmark =>
    have hcopy : Str.replace (w ++ Y) (quoted m) e = w ++ Str.replace Y (quoted m) e := replace_append hw Y
    rw [hcopy]
    exact .named hw hG hmark
  | @cut L c d x Y R hL hR =>
    have hassoc : '"' :: (c ++ (nameOf x ++ Y)) = '"' :: (c ++ nameOf x) ++ Y := by simp
    rw [hassoc]
    rcases replace_cases '"' (m ++ ['"']) e ('"' :: (c ++ nameOf x)) Y with ⟨-, hrep⟩ | ⟨a, b, y, hsplit, hpre, hrep⟩
    · have hcut : Damaged ('"' :: (c ++ (nameOf x ++ Str.replace Y (quoted m) e))) (L.name ++ R) := .cut hL hR
      rw [quoted, hrep]
      simpa [quoted] using hcut
    rw [quoted, hrep]
    have hname := decode_of_encodeConstStr hcode
    cases a with
    | nil =>
      -- the occurrence starts with the literal that is cut
      obtain rfl := (List.cons.inj hsplit).2
      obtain ⟨r, hr⟩ := hpre
      have heq : c ++ (nameOf x ++ Y) = m ++ '"' :: r := by simpa using hr.symm
      have hquote := quote_notMem_encodeConstStr hcode
      have hnamed : Damaged (e ++ y) (L.name ++ R) := .named hquote (not_isPrefix_name hL hR hm heq hcode) ⟨_, rfl⟩
      exact hnamed
    | cons q a =>
      -- the occurrence starts at an escaped quote before the cut
      obtain ⟨rfl, hquote⟩ := List.cons.inj hsplit
      obtain ⟨d', hd', he⟩ := hname
      have hcut : ∃ u, c = a ++ '"' :: u := by
        rcases List.append_eq_append_iff.mp hquote with ⟨u, -, hu⟩ | ⟨u, rfl, hu⟩
        · exact absurd (by simp [hu]) (quote_notMem_nameOf x)
        · cases u with
          | nil => exact absurd (List.mem_of_mem_head? (congrArg List.head? hu).symm) (quote_notMem_nameOf x)
          | cons z u => exact ⟨u, by rw [(List.cons.inj hu).1]⟩
      obtain ⟨u, rfl⟩ := hcut
      have hL' : L.body ++ ['"'] = a ++ '"' :: (u ++ '"' :: d) := by simpa using hL
      rw [he]
      exact .cut hL' fun h => absurd h (by simp)

/-! ### Lines -/

/-- Where a text with a quote at its end occurs, the line goes on with two underscores of a name before the text ends. -/
theorem exists_mark {u Z G : Str} {post : Line} (hu : '"' ∈ u) (h : u <+: Line.text post ++ Z)
    (hG : Z = [] ∨ ['_', '_'] <+: G) : ∃ p T, Line.out post ++ G = p ++ '_' :: '_' :: T ∧ p.length < u.length := by
  induction post generalizing u with
  | nil =>
    rcases hG with rfl | ⟨T, rfl⟩
    · rw [List.prefix_nil.mp h] at hu
      exact absurd hu List.not_mem_nil
    · exact ⟨[], T, rfl, List.length_pos_of_mem hu⟩
  | cons seg post ih =>
    cases seg with
    | plain s hquote hline =>
      have hs : s <+: u := by
        have hpre : s <+: Line.text (.plain s hquote hline :: post) ++ Z := by
          rw [Line.text_cons, List.append_assoc]
          exact List.prefix_append s _
        rcases List.prefix_or_prefix_of_prefix h hpre with hus | hsu
        · exact absurd (hus.subset hu) hquote
        · exact hsu
      obtain ⟨u, rfl⟩ := hs
      rw [Line.text_cons, List.append_assoc] at h
      have hu' : '"' ∈ u := (List.mem_append.mp hu).resolve_left hquote
      obtain ⟨p, T, hout, hlen⟩ := ih hu' ((List.prefix_append_right_inj s).mp h)
      refine ⟨s ++ p, T, ?_, ?_⟩
      · rw [Line.out_cons, List.append_assoc, hout, List.append_assoc]
        rfl
      · simp only [List.length_append]
        omega
    | lit L => exact ⟨[], _, rfl, List.length_pos_of_mem hu⟩

/-- **A hit is damage**. -/
theorem Hit.damaged {l L : Literal} {segs pre post : Line} {Z G c d Y : Str} (h : Hit l segs Z pre L post c d Y)
    (hG : Z = [] ∨ ['_', '_'] <+: G) : Damaged ('"' :: (c ++ (l.name ++ Y))) (L.name ++ (Line.out post ++ G)) := by
  refine .cut h.quote fun hd => ?_
  have hoccurs := h.occurs
  rw [hd, List.nil_append] at hoccurs
  obtain ⟨p, T, hout, hlen⟩ := exists_mark (by simp) hoccurs hG
  have hname := length_le_encodeConstStr l.encodeConstStr_body l.line
  rw [List.length_append, List.length_singleton] at hlen
  exact ⟨p, T, hout, by rw [Literal.name] at hname; omega⟩

theorem Hit.out {l L : Literal} {segs pre post : Line} {Z G c d Y : Str} (h : Hit l segs Z pre L post c d Y) :
    Line.out segs ++ G = Line.out (pre.map (Segment.naming l)) ++ (L.name ++ (Line.out post ++ G)) := by
  rw [h.parts, out_naming, Line.out_append, Line.out_cons, List.append_assoc, List.append_assoc]
  rfl

theorem Hit.length_lt {l L : Literal} {segs pre post : Line} {Z c d Y : Str} (h : Hit l segs Z pre L post c d Y) :
    (pre.map (Segment.naming l)).length < segs.length := by
  rw [h.parts, List.length_map, List.length_append, List.length_cons]
  omega

/-- **What is behind the damage** is not emitted as it should be. -/
theorem not_emits_of_damaged {segs : Line} {Z G : Str} (h : Damaged Z G) (names : List Str) :
    ¬ Emits (Line.text segs ++ Z) (Line.out segs ++ G) names := by
  induction hlen : segs.length using Nat.strong_induction_on generalizing segs Z G names with
  | _ n ih =>
    subst hlen
    intro hemits
    cases segs with
    | nil => exact h.not_emits names hemits
    | cons seg segs =>
      rw [Line.text_cons, Line.out_cons, List.append_assoc, List.append_assoc] at hemits
      cases seg with
      | plain s hquote hline =>
        obtain ⟨t, ht, hrest⟩ := hemits.of_append hquote
        obtain rfl := List.append_cancel_left ht
        exact ih segs.length (Nat.lt_succ_self _) h names rfl hrest
      | lit l =>
        obtain ⟨t, names', ht, hrest⟩ := hemits.of_literal
        obtain rfl := List.append_cancel_left ht
        rcases replaces l segs Z with ⟨-, hrep⟩ | ⟨pre, L, post, c, d, Y, hit⟩
        · rw [hrep, ← out_naming l] at hrest
          exact ih segs.length (Nat.lt_succ_self _) (h.replace l.closed l.encodeConstStr_body) names' (List.length_map _) hrest
        · -- there is damage before the one that there was
          rw [hit.replaced, hit.out] at hrest
          exact ih _ (hit.length_lt.trans (Nat.lt_succ_self _)) (hit.damaged (.inr h.mark)) names' rfl hrest

/-- A line that is emitted as it should be has no literal that disturbs another. -/
theorem separate_of_emits {segs : Line} {names : List Str} (h : Emits (Line.text segs) (Line.out segs) names) :
    Separate segs := by
  induction hlen : segs.length using Nat.strong_induction_on generalizing segs names with
  | _ n ih =>
    subst hlen
    cases segs with
    | nil => exact .nil
    | cons seg segs =>
      rw [Line.text_cons, Line.out_cons] at h
      cases seg with
      | plain s hquote hline =>
        obtain ⟨t, ht, hrest⟩ := h.of_append hquote
        obtain rfl := List.append_cancel_left ht
        exact .plain (ih segs.length (Nat.lt_succ_self _) hrest rfl)
      | lit l =>
        obtain ⟨t, names', ht, hrest⟩ := h.of_literal
        obtain rfl := List.append_cancel_left ht
        rcases replaces l segs [] with ⟨hclear, hrep⟩ | ⟨pre, L, post, c, d, Y, hit⟩
        · have hclear := hclear rfl
          rw [replace_of_clear hclear, ← out_naming l] at hrest
          exact .lit hclear (ih segs.length (Nat.lt_succ_self _) hrest (List.length_map _))
        · have hrep := hit.replaced
          have hout := @Hit.out l L segs pre post [] [] c d Y hit
          rw [List.append_nil] at hrep hout
          rw [hrep, hout] at hrest
          exact absurd hrest (not_emits_of_damaged (hit.damaged (.inl rfl)) names')

/-- **A line is emitted as it should be** exactly when its literals do not disturb each other. -/
theorem exists_emits_iff {segs : Line} : (∃ names, Emits (Line.text segs) (Line.out segs) names) ↔ Separate segs :=
  ⟨fun ⟨_, h⟩ => separate_of_emits h, fun h => h.emits.imp fun _ hnames => hnames.1⟩

/-! ### Files -/

theorem newline_notMem_text (segs : Line) : '\n' ∉ Line.text segs := by
  induction segs with
  | nil => exact List.not_mem_nil
  | cons seg segs ih =>
    rw [Line.text_cons, List.mem_append, not_or]
    refine ⟨?_, ih⟩
    cases seg with
    | plain s hquote hline => exact hline
    | lit l =>
      have := l.line
      simp [Segment.text, Literal.text, quoted, this]

theorem newline_notMem_out (segs : Line) : '\n' ∉ Line.out segs := by
  induction segs with
  | nil => exact List.not_mem_nil
  | cons seg segs ih =>
    rw [Line.out_cons, List.mem_append, not_or]
    refine ⟨?_, ih⟩
    cases seg with
    | plain s hquote hline => exact hline
    | lit l => exact newline_notMem_nameOf l.decoded

/-- What is emitted for a line is on one line, and so are the names. -/
theorem Emits.newline_notMem {s t : Str} {names : List Str} (h : Emits s t names) (hs : '\n' ∉ s) :
    '\n' ∉ t ∧ ∀ name ∈ names, '\n' ∉ name := by
  induction h with
  | done _ => exact ⟨hs, fun name h => absurd h List.not_mem_nil⟩
  | @literal s b e R t names _ hb hcode hrest ih =>
    have he := newline_notMem_encodeConstStr hcode
    have hR : '\n' ∉ R := fun h => hs (by simp [h])
    have hs' : '\n' ∉ s := fun h => hs (by simp [h])
    obtain ⟨ht, hnames⟩ := ih (newline_notMem_replace hR he)
    exact ⟨by simp [hs', he, ht], List.forall_mem_cons.mpr ⟨he, hnames⟩⟩

/-- What a line is converted to. -/
theorem convertLine_converted {line : Str} {segs : Line} (hkind : kind (trim line) = .converted)
    (htext : trim line = Line.text segs) {st st' : Collected} : convertLine st line = .ok st' ↔
      ∃ t names, Emits (Line.text segs) t names ∧ st' = ⟨st.declared_string_var, names.foldl declare st.declared_string_const,
        st.converted_cstr ++ (t ++ ['\n'])⟩ := by
  have hcursor : Cursor [] (Line.text segs) 0 := ⟨Nat.le_refl 0, List.not_mem_nil, newline_notMem_text segs⟩
  rw [convertLine, hkind, htext]
  dsimp only
  constructor
  · intro h
    cases hscan : scan ((Line.text segs).count '"' + 1) (Line.text segs) 0 st.declared_string_const with
    | error e =>
      rw [hscan] at h
      cases h
    | ok r =>
      obtain ⟨t, consts⟩ := r
      obtain ⟨t, names, hemits, rfl, rfl⟩ := @emits_of_scan [] _ _ _ _ _ _ hscan hcursor
      rw [hscan] at h
      exact ⟨t, names, hemits, (Except.ok.inj h).symm⟩
  · rintro ⟨t, names, hemits, rfl⟩
    have hscan := hemits.scan hcursor (Nat.lt_succ_self _) st.declared_string_const
    rw [List.nil_append, List.nil_append] at hscan
    rw [hscan]

/-- What the lines are converted to, and the names of their literals. -/
inductive Results : List Line → List Str → List Str → Prop
  /-- No line. -/
  | nil : Results [] [] []
  /-- A line. -/
  | cons {segs : Line} {t : Str} {names : List Str} {lines : List Line} {ts names' : List Str}
      (hline : Emits (Line.text segs) t names) (hlines : Results lines ts names') :
    Results (segs :: lines) (t :: ts) (names ++ names')

/-- What is collected after a file. -/
def collected (st : Collected) (raw : List Str) (ts names : List Str) : Collected :=
  ⟨st.declared_string_var ++ (linesOf .declaration raw).map declaration, names.foldl declare st.declared_string_const,
    st.converted_cstr ++ unlines '\n' ts⟩

theorem linesOf_cons (k : Kind) (line : Str) (raw : List Str) :
    linesOf k (line :: raw) = if kind (trim line) = k then trim line :: linesOf k raw else linesOf k raw := by
  rw [linesOf, List.map_cons, List.filter_cons]
  simp only [decide_eq_true_eq]
  rfl

/-- A line that is not converted. -/
theorem convertLine_other {line : Str} (hkind : kind (trim line) ≠ .converted) (st : Collected) (raw : List Str) :
    ∃ st', convertLine st line = .ok st' ∧ ∀ ts names, collected st' raw ts names = collected st (line :: raw) ts names := by
  cases hk : kind (trim line) with
  | skipped =>
    refine ⟨st, by rw [convertLine, hk], fun ts names => ?_⟩
    rw [collected, collected, linesOf_cons, hk, if_neg (by decide)]
  | declaration =>
    refine ⟨{ st with declared_string_var := st.declared_string_var ++ [declaration (trim line)] }, by rw [convertLine, hk],
      fun ts names => ?_⟩
    rw [collected, collected, linesOf_cons, hk, if_pos rfl, List.map_cons]
    simp
  | converted => exact absurd hk hkind

/-- **A file is converted** line by line. -/
theorem foldlM_convertLine {raw : List Str} {lines : List Line} (hlines : linesOf .converted raw = lines.map Line.text)
    {st st' : Collected} : raw.foldlM convertLine st = .ok st' ↔
      ∃ ts names, Results lines ts names ∧ st' = collected st raw ts names := by
  induction raw generalizing lines st with
  | nil =>
    obtain rfl := List.map_eq_nil_iff.mp hlines.symm
    have hcollected : collected st [] [] [] = st := by simp [collected, linesOf]
    constructor
    · intro h
      exact ⟨[], [], .nil, (Except.ok.inj h).symm.trans hcollected.symm⟩
    · rintro ⟨_, _, ⟨⟩, rfl⟩
      exact congrArg Except.ok hcollected.symm
  | cons line raw ih =>
    rw [linesOf_cons] at hlines
    rw [List.foldlM_cons, bind_eq_ok]
    by_cases hkind : kind (trim line) = .converted
    · rw [if_pos hkind] at hlines
      obtain ⟨segs, lines, rfl, htext, htail⟩ := List.map_eq_cons_iff.mp hlines.symm
      have hcollected : ∀ t ts names names', collected ⟨st.declared_string_var, names.foldl declare st.declared_string_const,
          st.converted_cstr ++ (t ++ ['\n'])⟩ raw ts names' = collected st (line :: raw) (t :: ts) (names ++ names') := by
        intro t ts names names'
        rw [collected, collected, linesOf_cons, hkind, if_neg (by decide), List.foldl_append, unlines_cons,
          SEDiff.Foundation.line]
        simp
      simp only [convertLine_converted hkind htext.symm]
      constructor
      · rintro ⟨_, ⟨t, names, hemits, rfl⟩, hfold⟩
        obtain ⟨ts, names', hresults, rfl⟩ := (ih htail.symm).mp hfold
        exact ⟨t :: ts, names ++ names', .cons hemits hresults, hcollected t ts names names'⟩
      · rintro ⟨_, _, hresults, rfl⟩
        cases hresults with
        | @cons _ t names _ ts names' hemits hresults =>
          have hrest := (ih htail.symm).mpr ⟨ts, names', hresults, (hcollected t ts names names').symm⟩
          exact ⟨_, ⟨t, names, hemits, rfl⟩, hrest⟩
    · rw [if_neg hkind] at hlines
      obtain ⟨st₁, hst₁, hcollected⟩ := convertLine_other hkind st raw
      simp only [hst₁, Except.ok.injEq, exists_eq_left', ih hlines, hcollected]

theorem Results.newline_notMem {lines : List Line} {ts names : List Str} (h : Results lines ts names) :
    (∀ t ∈ ts, '\n' ∉ t) ∧ ∀ name ∈ names, '\n' ∉ name := by
  induction h with
  | nil => simp
  | cons hline _ ih =>
    obtain ⟨ht, hnames⟩ := hline.newline_notMem (newline_notMem_text _)
    exact ⟨List.forall_mem_cons.mpr ⟨ht, ih.1⟩, fun name hmem => (List.mem_append.mp hmem).elim (hnames name) (ih.2 name)⟩

/-- Separate lines are converted as they should be. -/
theorem exists_results {lines : List Line} (h : ∀ segs ∈ lines, Separate segs) : ∃ names,
    Results lines (lines.map Line.out) names ∧
      ∀ name, name ∈ names ↔ ∃ segs ∈ lines, ∃ l, .lit l ∈ segs ∧ name = l.name := by
  induction lines with
  | nil => exact ⟨[], .nil, by simp⟩
  | cons segs lines ih =>
    obtain ⟨hsegs, hlines⟩ := List.forall_mem_cons.mp h
    obtain ⟨names, hemits, hnames⟩ := hsegs.emits
    obtain ⟨names', hresults, hnames'⟩ := ih hlines
    refine ⟨names ++ names', .cons hemits hresults, fun name => ?_⟩
    simp only [List.mem_append, hnames, hnames', List.mem_cons, exists_eq_or_imp]

theorem separate_of_results {lines : List Line} {names : List Str} (h : Results lines (lines.map Line.out) names) :
    ∀ segs ∈ lines, Separate segs := by
  induction lines generalizing names with
  | nil => simp
  | cons segs lines ih =>
    cases h with
    | cons hline hlines => exact List.forall_mem_cons.mpr ⟨separate_of_emits hline, ih hlines⟩

/-! ### Declarations -/

theorem mem_foldl_declare {names consts : List Str} {name : Str} :
    name ∈ names.foldl declare consts ↔ name ∈ consts ∨ name ∈ names := by
  induction names generalizing consts with
  | nil => simp
  | cons n names ih =>
    have hdeclare : name ∈ declare consts n ↔ name ∈ consts ∨ name = n := by
      rw [declare]
      split_ifs with hn
      · exact ⟨.inl, fun h => h.elim id fun h => h ▸ hn⟩
      · simp
    rw [List.foldl_cons, ih, hdeclare, List.mem_cons, or_assoc]

theorem nodup_foldl_declare {consts : List Str} (h : consts.Nodup) (names : List Str) :
    (names.foldl declare consts).Nodup := by
  induction names generalizing consts with
  | nil => exact h
  | cons n names ih =>
    refine ih ?_
    rw [declare]
    split_ifs with hn
    · exact h
    · exact List.nodup_append.mpr ⟨h, List.nodup_singleton n, fun a ha b hb hab => hn (by simp_all)⟩

/-- **A code says which byte it is of**. -/
theorem code_inj {c d : Char} (hc : c.toNat < 256) (hd : d.toNat < 256) (h : code c = code d) : c = d := by
  simp only [code, List.cons.injEq, true_and, and_true] at h
  have hdigit : ∀ {m n : ℕ}, m < 16 → n < 16 → Nat.digitChar m = Nat.digitChar n → m = n := fun hm hn heq => by
    have hvalue := congrArg hexDigit heq
    rw [hexDigit_digitChar hm, hexDigit_digitChar hn] at hvalue
    exact Option.some.inj hvalue
  have hhigh := hdigit (by omega) (by omega) h.1
  have hlow := hdigit (by omega) (by omega) h.2
  exact Char.toNat_inj.mp (by omega)

/-- Codes can be told apart, for they are of one length. -/
theorem flatMap_code_inj {s t : Str} (hs : ∀ c ∈ s, c.toNat < 256) (ht : ∀ c ∈ t, c.toNat < 256)
    (h : s.flatMap code = t.flatMap code) : s = t := by
  induction s generalizing t with
  | nil =>
    have hlen := congrArg List.length h
    rw [length_flatMap_code, length_flatMap_code] at hlen
    exact (List.length_eq_zero_iff.mp (by simpa using hlen.symm)).symm
  | cons c s ih =>
    cases t with
    | nil => exact absurd h (List.cons_ne_nil _ _)
    | cons d t =>
      obtain ⟨hc, hs⟩ := List.forall_mem_cons.mp hs
      obtain ⟨hd, ht⟩ := List.forall_mem_cons.mp ht
      rw [List.flatMap_cons, List.flatMap_cons] at h
      obtain ⟨hcode, hrest⟩ := List.append_inj h rfl
      rw [code_inj hc hd hcode, ih hs ht hrest]

/-- **Different contents have different names**. -/
theorem Literal.name_inj {l l' : Literal} (h : l.name = l'.name) : l.decoded = l'.decoded :=
  flatMap_code_inj (byte_of_mem_decode l.decodes l.bytes) (byte_of_mem_decode l'.decodes l'.bytes)
    (List.append_cancel_left h)

/-! ### The file -/

theorem newline_notMem_constDeclaration {name : Str} (h : '\n' ∉ name) : '\n' ∉ constDeclaration name := by
  have hleft : '\n' ∉ "(declare-const ".toList := by decide
  have hright : '\n' ∉ " String)".toList := by decide
  intro hmem
  rcases List.mem_append.mp hmem with hmem | hmem
  · exact hleft hmem
  · exact (List.mem_append.mp hmem).elim h hright

/-- The constants of a file are known from its text, and so are the lines. -/
theorem output_str_inj {vars consts consts' : List Str} {ts ts' : List Str} (hconsts : ∀ name ∈ consts, '\n' ∉ name)
    (hconsts' : ∀ name ∈ consts', '\n' ∉ name) (hts : ∀ t ∈ ts, '\n' ∉ t) (hts' : ∀ t ∈ ts', '\n' ∉ t)
    (h : output_str ⟨vars, consts, unlines '\n' ts⟩ = output_str ⟨vars, consts', unlines '\n' ts'⟩) : ts = ts' := by
  have hdeclarations : ∀ {consts : List Str}, (∀ name ∈ consts, '\n' ∉ name) →
      ∀ l ∈ consts.map constDeclaration, '\n' ∉ l ∧ l ≠ [] := by
    intro consts hconsts l hl
    obtain ⟨name, hname, rfl⟩ := List.mem_map.mp hl
    exact ⟨newline_notMem_constDeclaration (hconsts name hname), List.cons_ne_nil _ _⟩
  have hrest := (List.cons.inj (List.append_cancel_left h)).2
  exact unlines_inj hts hts' (unlines_blank_inj (hdeclarations hconsts) (hdeclarations hconsts') hrest).2

variable {fileContent : Str} {lines : List Line}

theorem faithful_of_separate (hlines : linesOf .converted (linesInFile fileContent) = lines.map Line.text)
    (h : ∀ segs ∈ lines, Separate segs) : Faithful fileContent lines := by
  obtain ⟨names, hresults, hnames⟩ := exists_results h
  have hfold : (linesInFile fileContent).foldlM convertLine {} =
      .ok (collected {} (linesInFile fileContent) (lines.map Line.out) names) :=
    (foldlM_convertLine hlines).mpr ⟨_, names, hresults, rfl⟩
  refine ⟨⟨names.foldl declare [], ?_, nodup_foldl_declare List.nodup_nil names, fun name => ?_⟩, ?_⟩
  · rw [convert, hfold]
    rfl
  · simp only [mem_foldl_declare, List.not_mem_nil, false_or, hnames]
  · exact fun _ _ _ _ l l' _ _ hne hname => hne (Literal.name_inj hname)

theorem separate_of_faithful (hlines : linesOf .converted (linesInFile fileContent) = lines.map Line.text)
    (h : Faithful fileContent lines) : ∀ segs ∈ lines, Separate segs := by
  obtain ⟨consts, hconvert, -, hconsts⟩ := h.emitted
  obtain ⟨st, hfold, hout⟩ := map_eq_ok.mp hconvert
  obtain ⟨ts, names, hresults, rfl⟩ := (foldlM_convertLine hlines).mp hfold
  obtain ⟨hts, hnames⟩ := hresults.newline_notMem
  have hts' : ∀ t ∈ lines.map Line.out, '\n' ∉ t := List.forall_mem_map.mpr fun segs _ => newline_notMem_out segs
  have hconsts' : ∀ name ∈ consts, '\n' ∉ name := by
    intro name hname
    obtain ⟨_, _, l, _, rfl⟩ := (hconsts name).mp hname
    exact newline_notMem_nameOf _
  have hdeclared : ∀ name ∈ names.foldl declare [], '\n' ∉ name := fun name hname =>
    hnames name ((mem_foldl_declare.mp hname).resolve_left List.not_mem_nil)
  obtain rfl := output_str_inj hdeclared hconsts' hts hts' hout
  exact separate_of_results hresults

theorem separate_plain_iff {s : Str} {hquote : '"' ∉ s} {hline : '\n' ∉ s} {segs : Line} :
    Separate (.plain s hquote hline :: segs) ↔ Separate segs :=
  ⟨fun h => by cases h with | plain hsegs => exact hsegs, .plain⟩

theorem separate_lit_iff {l : Literal} {segs : Line} :
    Separate (.lit l :: segs) ↔ Clear l segs ∧ Separate (segs.map (Segment.naming l)) :=
  ⟨fun h => by cases h with | lit hclear hsegs => exact ⟨hclear, hsegs⟩, fun h => .lit h.1 h.2⟩

/-- A file of one line. -/
theorem linesOf_text {segs : Line} (htrim : trim (Line.text segs) = Line.text segs)
    (hkind : kind (Line.text segs) = .converted) :
    linesOf .converted (linesInFile (Line.text segs)) = [segs].map Line.text := by
  have hsplit : linesInFile (Line.text segs) = [Line.text segs] :=
    split_of_not_infix (not_infix_of_notMem (List.mem_singleton_self _) (newline_notMem_text segs))
  rw [hsplit, linesOf_cons, htrim, if_pos hkind]
  rfl

/-- A literal of one character. -/
def Literal.single (c : Char) (hquote : c ≠ '"') (hslash : c ≠ '\\') (hline : c ≠ '\n') (hbyte : c.toNat < 256) : Literal where
  body := [c]
  decoded := [c]
  closed := .char hquote hslash .nil
  decodes := by rw [decode_cons hslash]; rfl
  bytes := List.forall_mem_singleton.mpr hbyte
  line := fun h => hline (List.mem_singleton.mp h).symm

/-- The literal `"a"`. -/
def literalA : Literal := .single 'a' (by decide) (by decide) (by decide) (by decide)

/-- The literal `"b"`. -/
def literalB : Literal := .single 'b' (by decide) (by decide) (by decide) (by decide)

/-- The literal of a blank. -/
def literalBlank : Literal := .single ' ' (by decide) (by decide) (by decide) (by decide)

/-- **A file is converted faithfully** exactly when no literal of a line disturbs another. -/
theorem convert_faithful_iff (hlines : linesOf .converted (linesInFile fileContent) = lines.map Line.text) :
    Faithful fileContent lines ↔ ∀ segs ∈ lines, Separate segs :=
  ⟨separate_of_faithful hlines, faithful_of_separate hlines⟩

/-- `(= "a" "b")`. -/
theorem convert_faithful_iff_equation :
    let segs : Line := [.plain ['(', '=', ' '] (by decide) (by decide), .lit literalA, .plain [' '] (by decide) (by decide),
      .lit literalB, .plain [')'] (by decide) (by decide)]
    Faithful (Line.text segs) [segs] := by
  intro segs
  have hquote : ∀ c d, ['b', '"'] = c ++ '"' :: d → ¬ ['a', '"'] <+: d ++ [')'] := by
    rintro (_ | ⟨x, _ | ⟨y, c⟩⟩) d h
    · simp at h
    · obtain ⟨-, rfl⟩ : x = 'b' ∧ d = [] := by simpa using h.symm
      decide
    · simp at h
  have hlit : Clear literalA [.lit literalB, .plain [')'] (by decide) (by decide)] :=
    ((clear_nil _).cons_plain _ _ _).cons_lit fun _ => hquote
  have hclear := hlit.cons_plain [' '] (by decide) (by decide)
  have hsep : Separate segs := .plain (.lit hclear (.plain (.lit ((clear_nil _).cons_plain _ _ _) (.plain .nil))))
  exact (convert_faithful_iff (linesOf_text (by decide) (by decide))).mpr (List.forall_mem_singleton.mpr hsep)

/-- `(f " " "a" "b")`: the text of the blank is between the other two literals, too. -/
theorem not_convert_faithful : ¬ ∀ (fileContent : Str) (lines : List Line),
    linesOf .converted (linesInFile fileContent) = lines.map Line.text → Faithful fileContent lines := by
  intro h
  let segs : Line := [.plain ['(', 'f', ' '] (by decide) (by decide), .lit literalBlank, .plain [' '] (by decide) (by decide),
    .lit literalA, .plain [' '] (by decide) (by decide), .lit literalB, .plain [')'] (by decide) (by decide)]
  have hlines : linesOf .converted (linesInFile (Line.text segs)) = [segs].map Line.text :=
    linesOf_text (by decide) (by decide)
  have hsep := separate_of_faithful hlines (h _ _ hlines) segs (List.mem_singleton_self segs)
  have hclear := (separate_lit_iff.mp (separate_plain_iff.mp hsep)).1
  exact hclear [.plain [' '] (by decide) (by decide)] literalA
    [.plain [' '] (by decide) (by decide), .lit literalB, .plain [')'] (by decide) (by decide)] ['a'] [] rfl (by decide) rfl
    (by decide)

end SEDiff.Juxta.NavexConvert
