import SEDiff.Afl.Deterministic
import SEDiff.Afl.Dictionary

/-!
# Interesting words and tokens

The rest of the deterministic stages: interesting words, and the tokens of the dictionaries, over and between the bytes of
the input.

## What is proved

* `overwrite_does` — overwriting with tokens that are sorted by size, without restoring the buffer in between.
* `insertions_does` — what the insertions try.
* `deterministic_ok` — what all deterministic stages try, and that they restore the buffer.
-/

namespace SEDiff.Afl.DetExtras

open Foundation Havoc Deterministic

/-! ### The source -/

/-- `could_be_interest`. -/
def could_be_interest (old_val new_val : UInt32) (blen : ℕ) (check_le : Bool) : Bool :=
  let patched (ones : UInt32) (i : ℕ) (v : UInt32) : UInt32 :=
    (old_val &&& ~~~(ones <<< UInt32.ofNat (8 * i))) ||| v <<< UInt32.ofNat (8 * i)
  if old_val = new_val then true
  else if (List.range blen).any fun i => interesting_8.any fun v => new_val == patched 0xff i v.toUInt32 then true
  else if blen = 2 ∧ !check_le then false
  else if (List.range (blen - 1)).any fun i => interesting_16.any fun v =>
      new_val == patched 0xffff i v.toUInt32 || (blen > 2 && new_val == patched 0xffff i (SWAP16 v).toUInt32) then true
  else blen == 4 && check_le && interesting_32.any fun v => new_val == v

/-- An interesting value of `w` bytes, little-endian and then big-endian, each if it is new. -/
def int_values (w orig v : ℕ) : List (ℕ × Bool) :=
  let fresh (n : ℕ) (check_le : Bool) : Bool :=
    !could_be_bitflip (UInt32.ofNat (orig ^^^ n)) && !could_be_arith (UInt32.ofNat orig) (UInt32.ofNat n) w &&
      !could_be_interest (UInt32.ofNat orig) (UInt32.ofNat n) w check_le
  [(v, fresh v false), (SWAP w v, v != SWAP w v && fresh (SWAP w v) true)]

variable (x : Setting)

/-- The stage for a table of values. -/
def int_words (w : ℕ) (table : List ℕ) : Stage := offsets x w fun i => .ask fun s =>
  let orig := peek w i s.out_buf
  (attempts x w i (table.flatMap (int_values w orig))).andThen (tweak (poke w i orig))

/-- "interest 16/8". -/
def int16 : Stage := int_words x 2 (interesting_16.map UInt16.toNat)

/-- "interest 32/8". -/
def int32 : Stage := int_words x 4 (interesting_32.map UInt32.toNat)

/-- `MAX_DET_EXTRAS`. -/
def MAX_DET_EXTRAS : ℕ := 200

/-- `EFF_SPAN_ALEN`. -/
def EFF_SPAN_ALEN (p l : ℕ) : ℕ := EFF_APOS (p + l - 1) - EFF_APOS p + 1

/-- Is some block of the span flagged? -/
def span (s : Det) (i l : ℕ) : Bool := (List.range (EFF_SPAN_ALEN i l)).any fun k => s.eff_map (EFF_APOS i + k)

/-- The tokens over the bytes from `i` on; each one comes with the number that is drawn for it. -/
def over_at (cnt i : ℕ) (in_buf : List UInt8) : List (List UInt8 × ℕ) → ℕ → Stage
  | [], last_len => tweak (patch i ((in_buf.drop i).take last_len))
  | (data, random) :: rest, last_len => .ask fun s =>
    if (cnt > MAX_DET_EXTRAS ∧ random % cnt ≥ MAX_DET_EXTRAS) ∨ data.length > x.len - i ∨
        data = (s.out_buf.drop i).take data.length ∨ !span s i data.length then
      over_at cnt i in_buf rest last_len
    else (tweak (patch i data)).andThen ((common_fuzz_stuff x).andThen (over_at cnt i in_buf rest data.length))

/-- "user extras (over)", and "auto extras (over)", where there are too few tokens for a choice. -/
def overwrite (in_buf : List UInt8) (extras : List (List UInt8)) (random : ℕ → ℕ → ℕ) : Stage := .upTo x.len fun i =>
  over_at x extras.length i in_buf (extras.zipIdx.map fun (data, j) => (data, random i j)) 0

/-- The tokens between the bytes at `i`. -/
def insert_at (out_buf : List UInt8) (i : ℕ) (extras : List (List UInt8)) : Trial (List UInt8) (List UInt8) :=
  .each (fun data =>
    if x.len + data.length > MAX_FILE then .skip
    else (Trial.modify fun ex_tmp => patch (i + data.length) (out_buf.drop i) (patch i data ex_tmp)).andThen
      (.attempt x.bail fun ex_tmp => ex_tmp.take (x.len + data.length))) extras

/-- "user extras (insert)"; after the last byte, the byte after the buffer is copied as well. -/
def insertions (extras : List (List UInt8)) (past_end : UInt8) : Stage := .ask fun s =>
  .within (List.replicate (x.len + Dictionary.MAX_DICT_FILE) 0)
    (.upTo (x.len + 1) fun i => (insert_at x s.out_buf i extras).andThen
      (.modify fun ex_tmp => ex_tmp.set i (s.out_buf[i]?.getD past_end)))

/-- What the dictionaries are, and what is drawn for their tokens. -/
structure Tokens where
  /-- Extra tokens to fuzz with. -/
  extras : List (List UInt8)
  /-- Automatically selected extras. -/
  a_extras : List (List UInt8)
  /-- For the tokens of the user. -/
  random : ℕ → ℕ → ℕ
  /-- The byte after the buffer. -/
  past_end : UInt8
  /-- No token is empty. -/
  filled : ∀ data ∈ extras ++ a_extras, data ≠ []
  /-- The tokens of the user are small. -/
  small : ∀ data ∈ extras, data.length ≤ Dictionary.MAX_DICT_FILE
  /-- They are sorted by size. -/
  sorted : extras.Pairwise fun d e => d.length ≤ e.length
  /-- And so are the others that are used. -/
  auto_sorted : (a_extras.take Dictionary.USE_AUTO_EXTRAS).Pairwise fun d e => d.length ≤ e.length

/-- The deterministic stages. -/
def deterministic (in_buf : List UInt8) (t : Tokens) : Stage :=
  (bytes_stages x).andThen
    ((skip_if (x.no_arith ∨ x.len < 2) ((int16 x).andThen (skip_if (x.len < 4) (int32 x)))).andThen
      ((skip_if (t.extras = []) ((overwrite x in_buf t.extras t.random).andThen (insertions x t.extras t.past_end))).andThen
        (skip_if (t.a_extras = []) (overwrite x in_buf (t.a_extras.take Dictionary.USE_AUTO_EXTRAS) fun _ _ => 0))))

/-- In every session the dictionaries are such tokens. -/
def Tokens.of_session {q : Qsort Dictionary.ExtraData} {n : ℕ} {old files : Dictionary.Files} {user : List (List UInt8)}
    {autos : Dictionary.Autos} (h : Dictionary.Valid n old (Dictionary.load_extras q user) autos files)
    (huser : ∀ u ∈ user, u ≠ [] ∧ u.length ≤ Dictionary.MAX_DICT_FILE) (random : ℕ → ℕ → ℕ) (past_end : UInt8) :
    Tokens where
  extras := Dictionary.load_extras q user
  a_extras := autos.a_extras.map Dictionary.ExtraData.data
  random := random
  past_end := past_end
  filled data hdata := by
    rcases List.mem_append.mp hdata with hdata | hdata
    · exact (huser data (Dictionary.load_extras_mem hdata)).1
    · obtain ⟨e, he, rfl⟩ := List.mem_map.mp hdata
      exact List.ne_nil_of_length_pos (Nat.lt_of_lt_of_le (by decide) (h.content.tokens e he).min)
  small data hdata := (huser data (Dictionary.load_extras_mem hdata)).2
  sorted := Dictionary.load_extras_sorted fun u hu => (huser u hu).2
  auto_sorted := by
    rw [← List.map_take, List.pairwise_map]
    exact h.order.sizes

/-! ### Overwriting -/

variable {x} {s : Det} {tried : List (List UInt8)} {i cnt : ℕ}

/-- The token fits, its span is flagged, and it is not left out by chance. -/
structure Usable (x : Setting) (s : Det) (cnt i : ℕ) (d : List UInt8 × ℕ) : Prop where
  /-- There is room. -/
  fits : i + d.1.length ≤ x.len
  /-- The effector map. -/
  span : span s i d.1.length = true
  /-- The draw. -/
  drawn : ¬ (cnt > MAX_DET_EXTRAS ∧ d.2 % cnt ≥ MAX_DET_EXTRAS)

theorem patch_nil (in_buf : List UInt8) : patch i [] in_buf = in_buf := List.take_append_drop i in_buf

/-- **Tokens at one offset**, after `cur` was tried there. -/
theorem over_at_does (cnt : ℕ) (cur : List UInt8) (hlen : s.out_buf.length = x.len) (hi : i < x.len)
    {l : List (List UInt8 × ℕ)} (hsorted : l.Pairwise fun d e => d.1.length ≤ e.1.length)
    (hcur : ∀ d ∈ l, cur.length ≤ d.1.length) (hfit : i + cur.length ≤ x.len) :
    ∃ vs, (∀ tried, Does (over_at x cnt i s.out_buf l cur.length)
        ⟨{ s with out_buf := patch i cur s.out_buf }, tried⟩ ⟨s, tried ++ vs⟩) ∧
      (∀ b ∈ vs, ∃ d ∈ l, i + d.1.length ≤ x.len ∧ b = patch i d.1 s.out_buf) ∧
      ∀ d ∈ l, Usable x s cnt i d → patch i d.1 s.out_buf ∈ vs ∨ patch i d.1 s.out_buf = patch i cur s.out_buf := by
  induction l generalizing cur with
  | nil =>
    refine ⟨[], fun tried => ?_, fun b hb => absurd hb List.not_mem_nil, fun d hd => absurd hd List.not_mem_nil⟩
    have hslice : ((s.out_buf.drop i).take cur.length).length = cur.length := length_word (hlen ▸ hfit)
    have hback : patch i ((s.out_buf.drop i).take cur.length) (patch i cur s.out_buf) = s.out_buf := by
      rw [patch_patch (by rw [hslice, hlen]; exact hfit) hslice.ge, patch_self]
    rw [List.append_nil]
    exact tweak_to hback
  | cons d l ih =>
    rw [List.pairwise_cons] at hsorted
    have hlonger := hcur d List.mem_cons_self
    have hbuf : i + cur.length ≤ s.out_buf.length := hlen ▸ hfit
    by_cases hskip : (cnt > MAX_DET_EXTRAS ∧ d.2 % cnt ≥ MAX_DET_EXTRAS) ∨ d.1.length > x.len - i ∨
        d.1 = ((patch i cur s.out_buf).drop i).take d.1.length ∨
        !span { s with out_buf := patch i cur s.out_buf } i d.1.length
    · obtain ⟨vs, hdoes, honly, hall⟩ := ih cur hsorted.2 (fun e he => hcur e (List.mem_cons_of_mem d he)) hfit
      refine ⟨vs, fun tried => .ask ?_, fun b hb => ?_, fun e he huse => ?_⟩
      · dsimp only
        rw [if_pos hskip]
        exact hdoes tried
      · obtain ⟨e, he, hfits, rfl⟩ := honly b hb
        exact ⟨e, List.mem_cons_of_mem d he, hfits, rfl⟩
      · rcases List.mem_cons.mp he with rfl | he
        · right
          have hsame : e.1 = ((patch i cur s.out_buf).drop i).take e.1.length := by
            rcases hskip with hdrawn | hlong | hsame | hspan
            · exact absurd hdrawn huse.drawn
            · have hroom := huse.fits
              omega
            · exact hsame
            · change (!span s i e.1.length) = true at hspan
              rw [huse.span] at hspan
              exact absurd hspan Bool.false_ne_true
          rw [← patch_patch (hlen ▸ huse.fits) hlonger]
          conv_lhs => rw [hsame]
          exact patch_self e.1.length
        · exact hall e he huse
    · have hfits : i + d.1.length ≤ x.len := by
        by_contra hlong
        exact hskip (.inr (.inl (by omega)))
      obtain ⟨vs, hdoes, honly, hall⟩ := ih d.1 hsorted.2 hsorted.1 hfits
      refine ⟨patch i d.1 s.out_buf :: vs, fun tried => .ask ?_, fun b hb => ?_, fun e he huse => ?_⟩
      · dsimp only
        rw [if_neg hskip]
        have hrest := hdoes (tried ++ [patch i d.1 s.out_buf])
        rw [List.append_assoc] at hrest
        exact (tweak_to (patch_patch (hlen ▸ hfits) hlonger)).andThen (Does.attempt.andThen hrest)
      · rcases List.mem_cons.mp hb with rfl | hb
        · exact ⟨d, List.mem_cons_self, hfits, rfl⟩
        · obtain ⟨e, he, hfits, rfl⟩ := honly b hb
          exact ⟨e, List.mem_cons_of_mem d he, hfits, rfl⟩
      · left
        rcases List.mem_cons.mp he with rfl | he
        · exact List.mem_cons_self
        · rcases hall e he huse with hin | heq
          · exact List.mem_cons_of_mem _ hin
          · exact heq ▸ List.mem_cons_self

/-- **Overwriting** tries nothing but single tokens in the input, and all that can be used. -/
theorem overwrite_does (hlen : s.out_buf.length = x.len) {extras : List (List UInt8)}
    (hsorted : extras.Pairwise fun d e => d.length ≤ e.length) (random : ℕ → ℕ → ℕ) :
    ∃ vs, (∀ tried, Does (overwrite x s.out_buf extras random) ⟨s, tried⟩ ⟨s, tried ++ vs⟩) ∧
      (∀ b ∈ vs, ∃ i, ∃ data ∈ extras, i + data.length ≤ x.len ∧ b = patch i data s.out_buf) ∧
      ∀ i < x.len, ∀ (j : ℕ) (data), extras[j]? = some data → Usable x s extras.length i (data, random i j) →
        patch i data s.out_buf ∈ vs ∨ patch i data s.out_buf = s.out_buf := by
  have hone : ∀ i, i < x.len → ∃ vs, (∀ tried, Does
        (over_at x extras.length i s.out_buf (extras.zipIdx.map fun (data, j) => (data, random i j)) 0)
        ⟨s, tried⟩ ⟨s, tried ++ vs⟩) ∧
      (∀ b ∈ vs, ∃ data ∈ extras, i + data.length ≤ x.len ∧ b = patch i data s.out_buf) ∧
      ∀ (j : ℕ) (data), extras[j]? = some data → Usable x s extras.length i (data, random i j) →
        patch i data s.out_buf ∈ vs ∨ patch i data s.out_buf = s.out_buf := by
    intro i hi
    have hpairs : (extras.zipIdx.map fun (data, j) => (data, random i j)).Pairwise
        fun d e => d.1.length ≤ e.1.length := by
      rw [List.pairwise_map, ← List.pairwise_map (f := Prod.fst) (R := fun d e : List UInt8 => d.length ≤ e.length),
        List.zipIdx_map_fst]
      exact hsorted
    obtain ⟨vs, hdoes, honly, hall⟩ := over_at_does extras.length [] hlen hi hpairs (fun _ _ => Nat.zero_le _) hi.le
    rw [patch_nil] at hdoes hall
    refine ⟨vs, hdoes, fun b hb => ?_, fun j data hdata huse => hall _ ?_ huse⟩
    · obtain ⟨d, hd, hfits, rfl⟩ := honly b hb
      obtain ⟨⟨data, j⟩, hmem, rfl⟩ := List.mem_map.mp hd
      exact ⟨data, List.mem_of_getElem? (List.mem_zipIdx_iff_getElem?.mp hmem), hfits, rfl⟩
    · exact List.mem_map.mpr ⟨(data, j), List.mem_zipIdx_iff_getElem?.mpr hdata, rfl⟩
  choose! vs hvs using hone
  refine ⟨(List.range x.len).flatMap vs, fun tried => .upTo_restores fun i hi => (hvs i hi).1, fun b hb => ?_,
    fun i hi j data hdata huse => ?_⟩
  · obtain ⟨i, hi, hin⟩ := List.mem_flatMap.mp hb
    exact ⟨i, (hvs i (List.mem_range.mp hi)).2.1 b hin⟩
  · exact ((hvs i hi).2.2 j data hdata huse).imp_left fun hin => List.mem_flatMap.mpr ⟨i, List.mem_range.mpr hi, hin⟩

/-! ### Inserting -/

/-- The tokens that fit. -/
def inserted (x : Setting) (out_buf : List UInt8) (extras : List (List UInt8)) (i : ℕ) : List (List UInt8) :=
  (extras.filter fun data => x.len + data.length ≤ MAX_FILE).map fun data =>
    out_buf.take i ++ (data ++ out_buf.drop i)

/-- The token and the tail are copied behind the head. -/
theorem insert_once {out_buf ex_tmp data : List UInt8} (hi : i ≤ out_buf.length)
    (htmp : out_buf.length + data.length ≤ ex_tmp.length) (hhead : ex_tmp.take i = out_buf.take i) :
    ∃ rest, patch (i + data.length) (out_buf.drop i) (patch i data ex_tmp) =
      (out_buf.take i ++ (data ++ out_buf.drop i)) ++ rest ∧
      out_buf.length + data.length + rest.length = ex_tmp.length := by
  have hfront : (out_buf.take i ++ data).length = i + data.length := by
    rw [List.length_append, List.length_take, Nat.min_eq_left hi]
  have hfirst : patch i data ex_tmp = (out_buf.take i ++ data) ++ ex_tmp.drop (i + data.length) := by
    rw [patch, hhead, List.append_assoc]
  have htail : (out_buf.drop i).length = out_buf.length - i := List.length_drop
  refine ⟨ex_tmp.drop (out_buf.length + data.length), ?_, by rw [List.length_drop]; omega⟩
  rw [hfirst, patch, List.take_append_of_le_length hfront.ge, List.take_of_length_le hfront.le, ← List.drop_drop,
    List.drop_append_of_le_length hfront.ge, List.drop_of_length_le hfront.le, List.nil_append, List.drop_drop, htail,
    show i + data.length + (out_buf.length - i) = out_buf.length + data.length by omega]
  simp only [List.append_assoc]

/-- **Tokens at one offset.** -/
theorem insert_at_does {out_buf : List UInt8} (tried : List (List UInt8)) (hlen : out_buf.length = x.len) (hi : i ≤ x.len)
    {extras : List (List UInt8)} (hsize : ∀ data ∈ extras, data.length ≤ Dictionary.MAX_DICT_FILE) {ex_tmp : List UInt8}
    (htmp : ex_tmp.length = x.len + Dictionary.MAX_DICT_FILE) (hhead : ex_tmp.take i = out_buf.take i) :
    ∃ ex_tmp', (ex_tmp'.length = x.len + Dictionary.MAX_DICT_FILE ∧ ex_tmp'.take i = out_buf.take i) ∧
      Does (insert_at x out_buf i extras) ⟨ex_tmp, tried⟩ ⟨ex_tmp', tried ++ inserted x out_buf extras i⟩ := by
  have hall : ∃ e : { e : List UInt8 // e.length = x.len + Dictionary.MAX_DICT_FILE ∧ e.take i = out_buf.take i },
      Does (insert_at x out_buf i extras) ⟨ex_tmp, tried⟩ ⟨e.1, tried ++ extras.flatMap fun data =>
        if decide (x.len + data.length ≤ MAX_FILE) then [out_buf.take i ++ (data ++ out_buf.drop i)] else []⟩ := by
    refine Does.each_moves (f := Subtype.val) (fun data hdata e tried => ?_) ⟨ex_tmp, htmp, hhead⟩
    by_cases hbig : x.len + data.length > MAX_FILE
    · rw [if_pos hbig, if_neg (by simpa using hbig), List.append_nil]
      exact ⟨e, .skip⟩
    · rw [if_neg hbig, if_pos (decide_eq_true (Nat.not_lt.mp hbig))]
      have hroom : out_buf.length + data.length ≤ e.1.length := by
        rw [hlen, e.2.1]
        exact Nat.add_le_add_left (hsize data hdata) _
      obtain ⟨rest, heq, hrest⟩ := insert_once (hlen ▸ hi) hroom e.2.2
      have hhead : (out_buf.take i).length = i := by
        rw [List.length_take, hlen, Nat.min_eq_left hi]
      have hvalue : (out_buf.take i ++ (data ++ out_buf.drop i)).length = x.len + data.length := by
        rw [List.length_append, List.length_append, hhead, List.length_drop, hlen]
        omega
      refine ⟨⟨patch (i + data.length) (out_buf.drop i) (patch i data e.1), ?_, ?_⟩, Does.modify.andThen ?_⟩
      · rw [heq, List.length_append, hvalue, ← e.2.1, ← hrest, hlen]
      · rw [heq, List.append_assoc, List.take_append_of_le_length hhead.ge, List.take_of_length_le hhead.le]
      · have htaken : (patch (i + data.length) (out_buf.drop i) (patch i data e.1)).take (x.len + data.length) =
            out_buf.take i ++ (data ++ out_buf.drop i) := by
          rw [heq, List.take_append_of_le_length hvalue.ge, List.take_of_length_le hvalue.le]
        have hattempt : Does (.attempt x.bail fun ex_tmp => ex_tmp.take (x.len + data.length))
            ⟨patch (i + data.length) (out_buf.drop i) (patch i data e.1), tried⟩
            ⟨patch (i + data.length) (out_buf.drop i) (patch i data e.1),
              tried ++ [(patch (i + data.length) (out_buf.drop i) (patch i data e.1)).take (x.len + data.length)]⟩ :=
          .attempt
        rw [htaken] at hattempt
        exact hattempt
  obtain ⟨e, hdoes⟩ := hall
  rw [flatMap_if] at hdoes
  exact ⟨e.1, e.2, hdoes⟩

/-- **Insertions**: every token that fits, between all bytes. -/
theorem insertions_does (hlen : s.out_buf.length = x.len) {extras : List (List UInt8)}
    (hsize : ∀ data ∈ extras, data.length ≤ Dictionary.MAX_DICT_FILE) (past_end : UInt8) :
    Does (insertions x extras past_end) ⟨s, tried⟩
      ⟨s, tried ++ (List.range (x.len + 1)).flatMap (inserted x s.out_buf extras)⟩ := by
  -- Before the `i`th offset, the first `i` bytes have been copied.
  let I (i : ℕ) (e : List UInt8) : Prop :=
    e.length = x.len + Dictionary.MAX_DICT_FILE ∧ (i ≤ x.len → e.take i = s.out_buf.take i)
  have hone : ∀ i < x.len + 1, ∀ e tried, I i e → ∃ e', I (i + 1) e' ∧
      Does ((insert_at x s.out_buf i extras).andThen
        (.modify fun ex_tmp => ex_tmp.set i (s.out_buf[i]?.getD past_end))) ⟨e, tried⟩
        ⟨e', tried ++ inserted x s.out_buf extras i⟩ := by
    intro i hi e tried he
    obtain ⟨e', ⟨hsize', hhead⟩, hone⟩ := insert_at_does tried hlen (Nat.lt_succ_iff.mp hi) hsize he.1
      (he.2 (Nat.lt_succ_iff.mp hi))
    refine ⟨_, ⟨by rw [List.length_set, hsize'], fun hnext => ?_⟩, hone.andThen .modify⟩
    have hin : i < s.out_buf.length := by omega
    rw [List.take_add_one, List.take_add_one, List.take_set_of_le (Nat.le_refl i), hhead,
      List.getElem?_set_self (by omega), List.getElem?_eq_getElem hin]
    rfl
  obtain ⟨ex_tmp, -, hdoes⟩ := Does.upTo_inv hone
    (s := List.replicate (x.len + Dictionary.MAX_DICT_FILE) 0) ⟨List.length_replicate, fun _ => rfl⟩
  exact .ask (.within hdoes)

/-! ### All stages -/

/-- Interesting words. -/
def int_tried (w : ℕ) (table : List ℕ) (orig : ℕ) : List ℕ := chosen (table.flatMap (int_values w orig))

/-- Those of two and of four bytes. -/
def all_ints (x : Setting) (s : Det) : List (List UInt8) :=
  if x.no_arith ∨ x.len < 2 then []
  else words_tried 2 s (int_tried 2 (interesting_16.map UInt16.toNat)) ++
    if x.len < 4 then [] else words_tried 4 s (int_tried 4 (interesting_32.map UInt32.toNat))

/-- **Interesting words.** -/
theorem int_words_does {w : ℕ} (table : List ℕ) (hw : 0 < w) (hlen : s.out_buf.length = x.len) :
    Does (int_words x w table) ⟨s, tried⟩ ⟨s, tried ++ words_tried w s (int_tried w table)⟩ :=
  offsets_does hw hlen fun _ hi _ => .ask (attempts_restore hi _)

/-- What may be tried: the input with other bytes in a window of four, or with a token over it or in it. -/
inductive Variant (in_buf : List UInt8) (t : Tokens) : List UInt8 → Prop
  /-- A few other bytes. -/
  | window (i : ℕ) {b : List UInt8} (hlen : b.length = in_buf.length)
    (h : ∀ p, p < i ∨ i + 4 ≤ p → b[p]? = in_buf[p]?) : Variant in_buf t b
  /-- A token over some bytes. -/
  | overwrite (i : ℕ) {data : List UInt8} (hdata : data ∈ t.extras ∨ data ∈ t.a_extras) (h : i + data.length ≤ in_buf.length) :
    Variant in_buf t (patch i data in_buf)
  /-- A token between two bytes. -/
  | insert (i : ℕ) {data : List UInt8} (hdata : data ∈ t.extras) (hi : i ≤ in_buf.length)
    (h : in_buf.length + data.length ≤ MAX_FILE) : Variant in_buf t (in_buf.take i ++ (data ++ in_buf.drop i))

variable {in_buf b : List UInt8} {t : Tokens}

theorem variant_bits {k : ℕ} (hk : k ≤ 4) (hb : b ∈ bits_tried k in_buf) : Variant in_buf t b := by
  obtain ⟨n, hn, rfl⟩ := List.mem_map.mp hb
  refine .window (n / 8) (length_FLIP_BITS k n in_buf) fun p hp => ?_
  have hmask : mask k n p = 0 := by
    rcases hp with hbefore | hafter
    · exact mask_before hbefore
    · exact mask_after (by omega)
  rw [getElem?_FLIP_BITS, hmask]
  cases in_buf[p]? with
  | none => rfl
  | some v => exact congrArg some UInt8.xor_zero

theorem variant_invert (i : ℕ) : Variant in_buf t (invert i in_buf) := by
  refine .window i (by rw [invert, List.length_modify]) fun p hp => ?_
  rw [getElem?_invert]
  cases in_buf[p]? with
  | none => rfl
  | some v => exact congrArg some (if_neg (by omega))

theorem variant_words {w : ℕ} (hpos : 0 < w) (hw : w ≤ 4) {vs : ℕ → List ℕ} (hb : b ∈ words_tried w s vs) : Variant s.out_buf t b := by
  obtain ⟨i, hi, hin⟩ := List.mem_flatMap.mp hb
  have hlt := List.mem_range.mp hi
  split at hin
  · obtain ⟨v, -, rfl⟩ := List.mem_map.mp hin
    have hroom : i + w ≤ s.out_buf.length := by omega
    refine .window i (length_poke hroom) fun p hp => ?_
    rw [poke, getElem?_patch (by rwa [length_bytes_of]), length_bytes_of, if_neg (by omega)]
  · exact absurd hin List.not_mem_nil

theorem variant_bytes (n : ℕ) (hb : b ∈ bytes_tried x n s) : Variant s.out_buf t b := by
  have hwords : ∀ {w : ℕ} {vs : ℕ → List ℕ} {n : ℕ}, 0 < w → w ≤ 4 → b ∈ words_tried w (eff_done x n s) vs →
      Variant s.out_buf t b := fun {w vs n} hpos hw hin => by
    have hvariant := variant_words (t := t) hpos hw hin
    rwa [eff_done_out_buf] at hvariant
  rw [bytes_tried] at hb
  rcases List.mem_append.mp hb with hb | hb
  · rw [all_bits] at hb
    rcases List.mem_append.mp hb with hb | hb
    · exact variant_bits (by decide) hb
    rcases List.mem_append.mp hb with hb | hb
    · exact variant_bits (by decide) hb
    · exact variant_bits (by decide) hb
  rcases List.mem_append.mp hb with hb | hb
  · obtain ⟨i, -, rfl⟩ := List.mem_map.mp hb
    exact variant_invert i
  rcases List.mem_append.mp hb with hb | hb
  · rw [all_flips] at hb
    split at hb
    · exact absurd hb List.not_mem_nil
    rcases List.mem_append.mp hb with hb | hb
    · exact hwords (by decide) (by decide) hb
    split at hb
    · exact absurd hb List.not_mem_nil
    · exact hwords (by decide) (by decide) hb
  rcases List.mem_append.mp hb with hb | hb
  · rw [all_sums] at hb
    split at hb
    · exact absurd hb List.not_mem_nil
    rcases List.mem_append.mp hb with hb | hb
    · exact hwords (by decide) (by decide) hb
    split at hb
    · exact absurd hb List.not_mem_nil
    rcases List.mem_append.mp hb with hb | hb
    · exact hwords (by decide) (by decide) hb
    split at hb
    · exact absurd hb List.not_mem_nil
    · exact hwords (by decide) (by decide) hb
  · exact hwords (by decide) (by decide) hb

/-- The stages for interesting words. -/
theorem int_does (hlen : s.out_buf.length = x.len) (t : Tokens) :
    ∃ vs, (∀ tried, Does (skip_if (x.no_arith ∨ x.len < 2) ((int16 x).andThen (skip_if (x.len < 4) (int32 x))))
        ⟨s, tried⟩ ⟨s, tried ++ vs⟩) ∧ ∀ b ∈ vs, Variant s.out_buf t b := by
  refine ⟨all_ints x s, fun tried => skip_if_does ?_, fun b hb => ?_⟩
  · rw [← List.append_assoc]
    exact (int_words_does _ Nat.two_pos hlen).andThen (skip_if_does (int_words_does _ (Nat.succ_pos 3) hlen))
  · rw [all_ints] at hb
    split at hb
    · exact absurd hb List.not_mem_nil
    rcases List.mem_append.mp hb with hb | hb
    · exact variant_words (by decide) (by decide) hb
    split at hb
    · exact absurd hb List.not_mem_nil
    · exact variant_words (by decide) (by decide) hb

/-- The stages for the tokens of the user. -/
theorem user_does (hlen : s.out_buf.length = x.len) (t : Tokens) :
    ∃ vs, (∀ tried, Does (skip_if (t.extras = [])
        ((overwrite x s.out_buf t.extras t.random).andThen (insertions x t.extras t.past_end)))
        ⟨s, tried⟩ ⟨s, tried ++ vs⟩) ∧ (∀ b ∈ vs, Variant s.out_buf t b) ∧
      (∀ i < x.len, ∀ (j : ℕ) (data), t.extras[j]? = some data →
        Usable x s t.extras.length i (data, t.random i j) → patch i data s.out_buf ∈ vs ∨ patch i data s.out_buf = s.out_buf) ∧
      ∀ i ≤ x.len, ∀ data ∈ t.extras, x.len + data.length ≤ MAX_FILE →
        s.out_buf.take i ++ (data ++ s.out_buf.drop i) ∈ vs := by
  obtain ⟨vs, hdoes, honly, hall⟩ := overwrite_does hlen t.sorted t.random
  by_cases hnone : t.extras = []
  · refine ⟨[], fun tried => ?_, fun b hb => absurd hb List.not_mem_nil, fun i _ j data hdata => ?_,
      fun i _ data hdata => ?_⟩
    · rw [skip_if, if_pos hnone, List.append_nil]
      exact .skip
    · rw [hnone] at hdata
      exact absurd hdata (by simp)
    · rw [hnone] at hdata
      exact absurd hdata List.not_mem_nil
  · refine ⟨vs ++ (List.range (x.len + 1)).flatMap (inserted x s.out_buf t.extras), fun tried => ?_, fun b hb => ?_,
      fun i hi j data hdata huse => ?_, fun i hi data hdata hroom => ?_⟩
    · rw [skip_if, if_neg hnone, ← List.append_assoc]
      exact (hdoes tried).andThen (insertions_does hlen t.small t.past_end)
    · rcases List.mem_append.mp hb with hb | hb
      · obtain ⟨i, data, hdata, hfits, rfl⟩ := honly b hb
        exact .overwrite i (.inl hdata) (hlen ▸ hfits)
      · obtain ⟨i, hi, hin⟩ := List.mem_flatMap.mp hb
        obtain ⟨data, hdata, rfl⟩ := List.mem_map.mp hin
        obtain ⟨hmem, hfits⟩ := List.mem_filter.mp hdata
        exact .insert i hmem (hlen ▸ Nat.lt_succ_iff.mp (List.mem_range.mp hi)) (hlen ▸ of_decide_eq_true hfits)
    · exact (hall i hi j data hdata huse).imp_left (List.mem_append_left _)
    · refine List.mem_append_right _ (List.mem_flatMap.mpr ⟨i, List.mem_range.mpr (Nat.lt_succ_iff.mpr hi), ?_⟩)
      exact List.mem_map.mpr ⟨data, List.mem_filter.mpr ⟨hdata, decide_eq_true hroom⟩, rfl⟩

/-- The stage for the automatic dictionary. -/
theorem auto_does (hlen : s.out_buf.length = x.len) (t : Tokens) :
    ∃ vs, (∀ tried, Does (skip_if (t.a_extras = [])
        (overwrite x s.out_buf (t.a_extras.take Dictionary.USE_AUTO_EXTRAS) fun _ _ => 0)) ⟨s, tried⟩ ⟨s, tried ++ vs⟩) ∧
      (∀ b ∈ vs, Variant s.out_buf t b) ∧
      ∀ i < x.len, ∀ data ∈ t.a_extras.take Dictionary.USE_AUTO_EXTRAS, i + data.length ≤ x.len →
        span s i data.length = true → patch i data s.out_buf ∈ vs ∨ patch i data s.out_buf = s.out_buf := by
  obtain ⟨vs, hdoes, honly, hall⟩ := overwrite_does hlen t.auto_sorted fun _ _ => 0
  by_cases hnone : t.a_extras = []
  · refine ⟨[], fun tried => ?_, fun b hb => absurd hb List.not_mem_nil, fun i _ data hdata => ?_⟩
    · rw [skip_if, if_pos hnone, List.append_nil]
      exact .skip
    · rw [hnone, List.take_nil] at hdata
      exact absurd hdata List.not_mem_nil
  · refine ⟨vs, fun tried => ?_, fun b hb => ?_, fun i hi data hdata hfits hspan => ?_⟩
    · rw [skip_if, if_neg hnone]
      exact hdoes tried
    · obtain ⟨i, data, hdata, hfits, rfl⟩ := honly b hb
      exact .overwrite i (.inr (List.mem_of_mem_take hdata)) (hlen ▸ hfits)
    · obtain ⟨j, hj⟩ := List.mem_iff_getElem?.mp hdata
      refine hall i hi j data hj ⟨hfits, hspan, fun hdrawn => ?_⟩
      -- There are too few of them for a choice.
      have hfew := List.length_take_le Dictionary.USE_AUTO_EXTRAS t.a_extras
      have hmany := hdrawn.1
      simp only [MAX_DET_EXTRAS, Dictionary.USE_AUTO_EXTRAS] at hfew hmany
      omega

/-- **The deterministic stages** restore the buffer, and try nothing but variants of the input. Every token that can be
used is tried over the bytes at every offset, unless it is there already, and every token of the user that fits is
inserted at every offset. If the entry is abandoned, then after a part of this. -/
theorem deterministic_ok (x : Setting) (in_buf : List UInt8) (t : Tokens) (hlen : in_buf.length = x.len) :
    ∃ s tried, Does (deterministic x in_buf t) ⟨⟨in_buf, fun _ => false, 1⟩, []⟩ ⟨s, tried⟩ ∧ s.out_buf = in_buf ∧
      (∀ b ∈ tried, Variant in_buf t b) ∧
      (∀ i < x.len, ∀ (j : ℕ) (data), t.extras[j]? = some data →
        Usable x s t.extras.length i (data, t.random i j) → patch i data in_buf ∈ tried ∨ patch i data in_buf = in_buf) ∧
      (∀ i ≤ x.len, ∀ data ∈ t.extras, x.len + data.length ≤ MAX_FILE →
        in_buf.take i ++ (data ++ in_buf.drop i) ∈ tried) ∧
      ∀ i < x.len, ∀ data ∈ t.a_extras.take Dictionary.USE_AUTO_EXTRAS, i + data.length ≤ x.len →
        span s i data.length = true → patch i data in_buf ∈ tried ∨ patch i data in_buf = in_buf := by
  have hbytes := bytes_does (x := x) (s := ⟨in_buf, fun _ => false, 1⟩) [] hlen
  have hvariant := fun b => variant_bytes (x := x) (s := ⟨in_buf, fun _ => false, 1⟩) (t := t) (b := b) 0
  rw [List.length_nil, Nat.zero_add, List.nil_append] at hbytes
  have hout := eff_done_out_buf (x := x) (s := ⟨in_buf, fun _ => false, 1⟩) (all_bits in_buf).length
  generalize eff_done x (all_bits in_buf).length ⟨in_buf, fun _ => false, 1⟩ = s at hout hbytes
  dsimp only at hout
  subst hout
  obtain ⟨ints, hints, hints_variant⟩ := int_does hlen t
  obtain ⟨users, husers, husers_variant, hover, hinsert⟩ := user_does hlen t
  obtain ⟨autos, hautos, hautos_variant, hauto⟩ := auto_does hlen t
  refine ⟨s, _, hbytes.andThen ((hints _).andThen ((husers _).andThen (hautos _))), rfl, fun b hb => ?_,
    fun i hi j data hdata huse => ?_, fun i hi data hdata hroom => ?_, fun i hi data hdata hfits hspan => ?_⟩
  · rcases List.mem_append.mp hb with hb | hb
    · rcases List.mem_append.mp hb with hb | hb
      · rcases List.mem_append.mp hb with hb | hb
        · exact hvariant b hb
        · exact hints_variant b hb
      · exact husers_variant b hb
    · exact hautos_variant b hb
  · exact (hover i hi j data hdata huse).imp_left fun hin => List.mem_append_left _ (List.mem_append_right _ hin)
  · exact List.mem_append_left _ (List.mem_append_right _ (hinsert i hi data hdata hroom))
  · exact (hauto i hi data hdata hfits hspan).imp_left (List.mem_append_right _)

/-- Four bytes. -/
def four : Setting where
  bail := fun _ => false
  cksum := fun _ => 7
  exec_cksum := 7
  dumb_mode := false
  no_arith := false
  len := 4

/-- One token of each kind. -/
def verbs : Tokens where
  extras := [[71, 69, 84]]
  a_extras := [[80, 79, 83, 84]]
  random := fun _ _ => 0
  past_end := 0
  filled := by decide
  small := by decide
  sorted := List.pairwise_singleton _ _
  auto_sorted := List.pairwise_singleton _ _

theorem deterministic_ok_verbs :
    ∃ s tried, Does (deterministic four [32, 65, 66, 67] verbs) ⟨⟨[32, 65, 66, 67], fun _ => false, 1⟩, []⟩ ⟨s, tried⟩ ∧
      s.out_buf = [32, 65, 66, 67] ∧ [32, 71, 69, 84, 65, 66, 67] ∈ tried := by
  obtain ⟨s, tried, hdoes, hout, -, -, hinsert, -⟩ := deterministic_ok four [32, 65, 66, 67] verbs rfl
  exact ⟨s, tried, hdoes, hout, hinsert 1 (by decide) [71, 69, 84] List.mem_cons_self (by decide)⟩

end SEDiff.Afl.DetExtras
