import EventCatalog.Layout
import EventCatalog.Proofs.Token.Written

/-! # Counting braces along tokens

`count` reads a line character by character and knows nothing of tokens.  It passes over what the
tokens of a text are written with as the tokens say: most leave it where it is
(`Front.count_inline`), a brace is counted, and behind the mark that opens a block comment it is in
the comment until that is closed (`Front.Closes`).  Blanks at the ends of a line make no
difference (`count_trim`, `count_trimEnd`). -/

namespace EventCatalog

open Text

namespace Layout

/-! ### Single characters -/

/-- Whether a character is neither a brace nor part of a mark behind which braces do not count. -/
def isPlain (c : Char) : Bool := !(['"', '{', '}', '/', '\n'].contains c)

/-- A test that none of the others passes is passed by plain characters only. -/
theorem isPlain_of_test {p : Char → Bool} (hp : ['"', '{', '}', '/', '\n'].any p = false) {c : Char}
    (h : p c = true) : isPlain c = true := by
  unfold isPlain
  rw [Bool.not_eq_true', List.contains_eq_mem, decide_eq_false_iff_not]
  intro hc
  exact absurd (List.any_eq_true.mpr ⟨c, hc, h⟩) (by simp [hp])

theorem count_code_cons {c : Char} (hslash : c ≠ '/') (hquote : c ≠ '"') (hopen : c ≠ '{')
    (hclose : c ≠ '}') (t : Text) : count .code (c :: t) = count .code t := by
  rw [count.eq_def]
  split <;> simp_all

theorem count_plain {c : Char} (h : isPlain c = true) (t : Text) :
    count .code (c :: t) = count .code t := by
  apply count_code_cons <;> rintro rfl <;> exact absurd h (by decide)

theorem count_plain_append {s : Text} (h : ∀ c ∈ s, isPlain c = true) (t : Text) :
    count .code (s ++ t) = count .code t := by
  induction s with
  | nil => rfl
  | cons c s ih =>
    rw [List.forall_mem_cons] at h
    rw [List.cons_append, count_plain h.1, ih h.2]

theorem count_slash (t : Text) :
    count .code ('/' :: t) =
      if t.head? = some '/' then {}
      else if t.head? = some '*' then count .comment t.tail
      else count .code t := by
  cases t with
  | nil => rfl
  | cons d t =>
    by_cases hline : d = '/'
    · subst hline
      rfl
    by_cases hblock : d = '*'
    · subst hblock
      rfl
    · simp [count, hline, hblock]

theorem count_comment_cons (c : Char) (t : Text) :
    count .comment (c :: t) =
      if c = '*' ∧ t.head? = some '/' then count .code t.tail else count .comment t := by
  split
  · rename_i h
    obtain ⟨rfl, ht⟩ := h
    obtain ⟨t, rfl⟩ := List.head?_eq_some_iff.mp ht
    rfl
  · rename_i h
    rw [count.eq_def]
    split <;> simp_all

theorem count_backslash (t : Text) : count .string ('\\' :: t) = count .string t.tail := by
  cases t <;> rfl

theorem count_string_cons {c : Char} (h : c ≠ '"') (hback : c ≠ '\\') (t : Text) :
    count .string (c :: t) = count .string t := by
  rw [count.eq_def]
  split <;> simp_all

theorem count_string_append {s : Text} (h : ∀ c ∈ s, c ≠ '"' ∧ c ≠ '\\') (t : Text) :
    count .string (s ++ t) = count .string t := by
  induction s with
  | nil => rfl
  | cons c s ih =>
    rw [List.forall_mem_cons] at h
    rw [List.cons_append, count_string_cons h.1.1 h.1.2, ih h.2]

/-! ### Blanks -/

theorem count_blank {c : Char} (hc : isBlank c = true) (m : Mode) (t : Text) :
    count m (c :: t) = count m t := by
  have hne : ∀ d, isBlank d = false → c ≠ d := by
    rintro d hd rfl
    exact Bool.noConfusion (hc.symm.trans hd)
  cases m with
  | code => exact count_code_cons (hne _ rfl) (hne _ rfl) (hne _ rfl) (hne _ rfl) t
  | string => exact count_string_cons (hne _ rfl) (hne _ rfl) t
  | comment => rw [count_comment_cons, if_neg fun h => hne _ rfl h.1]

/-- Blanks in front of a line make no difference. -/
theorem count_blanks_append {a : Text} (ha : AllBlank a) (m : Mode) (t : Text) :
    count m (a ++ t) = count m t := by
  induction a with
  | nil => rfl
  | cons c a ih =>
    obtain ⟨hc, ha⟩ := allBlank_cons.mp ha
    rw [List.cons_append, count_blank hc, ih ha]

/-- Nor do blanks that end it. -/
theorem count_append_blanks {z : Text} (hz : AllBlank z) (m : Mode) (t : Text) :
    count m (t ++ z) = count m t := by
  have hnil : ∀ m, count m z = count m [] := fun m =>
    (congrArg (count m) (List.append_nil z).symm).trans (count_blanks_append hz m [])
  -- A mark of two characters is not completed by blanks.
  have hhead : ∀ d t, isBlank d = false → ((t ++ z).head? = some d ↔ t.head? = some d) := by
    intro d t hd
    cases t with
    | cons c t => rfl
    | nil => exact ⟨fun h => absurd (hz.startsBlank d h) (by simp [hd]), nofun⟩
  have hslash := hhead '/'
  have hstar := hhead '*'
  induction hn : t.length using Nat.strong_induction_on generalizing m t with
  | _ n ih =>
    subst hn
    cases t with
    | nil => exact hnil m
    | cons c t =>
      have hrest : ∀ m, count m (t ++ z) = count m t := fun m => ih _ (Nat.lt_add_one _) m t rfl
      have htail : ∀ m, count m (t ++ z).tail = count m t.tail := by
        intro m
        cases t with
        | nil =>
          cases z with
          | nil => rfl
          | cons b z =>
            obtain ⟨hb, -⟩ := allBlank_cons.mp hz
            exact (count_blank hb m z).symm.trans (hnil m)
        | cons d t => exact ih _ (by simp only [List.length_cons]; omega) m t rfl
      rw [List.cons_append]
      cases m with
      | code =>
        by_cases hc : c = '/'
        · subst hc
          rw [count_slash, count_slash]
          simp only [hslash t (by decide), hstar t (by decide), hrest, htail]
        by_cases hc' : c ∈ ['"', '{', '}']
        · simp only [List.mem_cons, List.not_mem_nil, or_false] at hc'
          rcases hc' with rfl | rfl | rfl
          · exact hrest .string
          · exact congrArg Braces.addOpen (hrest .code)
          · exact congrArg Braces.addClose (hrest .code)
        · simp only [List.mem_cons, List.not_mem_nil, or_false, not_or] at hc'
          rw [count_code_cons hc hc'.1 hc'.2.1 hc'.2.2, count_code_cons hc hc'.1 hc'.2.1 hc'.2.2,
            hrest]
      | string =>
        by_cases hquote : c = '"'
        · subst hquote
          exact hrest .code
        by_cases hback : c = '\\'
        · subst hback
          rw [count_backslash, count_backslash, htail]
        · rw [count_string_cons hquote hback, count_string_cons hquote hback, hrest]
      | comment =>
        rw [count_comment_cons, count_comment_cons]
        simp only [hslash t (by decide), hrest, htail]

theorem count_trim (t : Text) : count .code (trim t) = count .code t := by
  obtain ⟨a, z, ha, hz, ht⟩ := exists_trim t
  calc count .code (trim t) = count .code (a ++ trim t ++ z) := by
        rw [count_append_blanks hz, count_blanks_append ha]
    _ = count .code t := by rw [← ht]

theorem count_trimEnd (m : Mode) (t : Text) : count m (trimEnd t) = count m t := by
  obtain ⟨z, hz, ht⟩ := exists_trimEnd t
  calc count m (trimEnd t) = count m (trimEnd t ++ z) := (count_append_blanks hz m _).symm
    _ = count m t := by rw [← ht]

/-- A line that begins in a comment is counted from the end of the comment on. -/
theorem count_comment (t : Text) :
    count .comment t =
      match afterComment? t with
      | some rest => count .code rest
      | none => { openComment := true } := by
  fun_induction afterComment? t with
  | case1 t => rfl
  | case2 c t hend ih =>
    rw [count_comment_cons, if_neg, ih]
    rintro ⟨hc, ht⟩
    obtain ⟨t, rfl⟩ := List.head?_eq_some_iff.mp ht
    exact hend t hc rfl
  | case3 => rfl

end Layout

/-! ### String literals -/

namespace Literal

open Layout

theorem ne_of_isHexDigit {c : Char} (h : Escape.isHexDigit c = true) :
    c ≠ '"' ∧ c ≠ '\\' ∧ c ≠ '\n' := by
  refine ⟨?_, ?_, ?_⟩ <;> rintro rfl <;> exact absurd h (by decide)

theorem Item.feedless {s : Text} {c : Char} (h : Item s c) : '\n' ∉ s := by
  cases h with
  | plain _ hquote hback hfeed => simpa using Ne.symm hfeed
  | simple h =>
    simp only [List.mem_cons, List.not_mem_nil, or_false, not_or]
    refine ⟨by decide, ?_⟩
    rintro rfl
    cases h
  | unicode _ _ hdigits =>
    have hnot : ∀ d, Escape.isHexDigit d = true → '\n' ≠ d := fun d hd =>
      (ne_of_isHexDigit hd).2.2.symm
    simp only [List.mem_cons, List.mem_append, List.not_mem_nil, or_false, not_or]
    exact ⟨by decide, by decide, by decide, fun h => hnot _ (hdigits _ h) rfl, by decide⟩

theorem Item.count_string {s : Text} {c : Char} (h : Item s c) (t : Text) :
    count .string (s ++ t) = count .string t := by
  cases h with
  | plain _ hquote hback => exact count_string_cons hquote hback t
  | simple => rfl
  | @unicode digits _ _ _ hdigits =>
    -- Behind the backslash and the letter nothing is special.
    have hinner : ∀ d ∈ '{' :: (digits ++ ['}']), d ≠ '"' ∧ d ≠ '\\' := by
      intro d hd
      simp only [List.mem_cons, List.mem_append, List.not_mem_nil, or_false] at hd
      rcases hd with rfl | hd | rfl
      · decide
      · exact ⟨(ne_of_isHexDigit (hdigits d hd)).1, (ne_of_isHexDigit (hdigits d hd)).2.1⟩
      · decide
    exact count_string_append hinner t

theorem Denotes.feedless {body value : Text} (h : Denotes body value) : '\n' ∉ body := by
  induction h with
  | nil => exact List.not_mem_nil
  | cons hitem hbody ih =>
    rw [List.mem_append, not_or]
    exact ⟨hitem.feedless, ih⟩

/-- Behind a literal the rest of the line is counted. -/
theorem Denotes.count_string {body value : Text} (h : Denotes body value) (t : Text) :
    count .string (body ++ '"' :: t) = count .code t := by
  induction h with
  | nil => rfl
  | cons hitem hbody ih => rw [List.append_assoc, hitem.count_string, ih]

end Literal

/-! ### Words, marks and blanks -/

namespace Front

open Layout

variable {c : Char} {t : Text} {tok : Token} {n : Nat}

theorem isPlain_of_word? (h : word? c t = some (.token tok n)) :
    ∀ d ∈ c :: t.take n, isPlain d = true := by
  intro d hd
  rcases mem_of_word? h hd with rfl | hd | hd
  · rfl
  · exact isPlain_of_test (p := isWordChar) (by decide) hd
  · exact isPlain_of_test (p := isSelectorChar) (by decide) hd

/-- The marks that are not braces are plain. -/
theorem isPlain_of_punctuation? (h : punctuation? c t = some (.token tok n))
    (hopen : tok ≠ .leftBrace) (hclose : tok ≠ .rightBrace) :
    ∀ d ∈ c :: t.take n, isPlain d = true := by
  have hwritten := written_of_punctuation? h
  unfold punctuation? at h
  split at h
  · cases h
    rw [show c :: t.take 1 = ['-', '>'] from hwritten]
    exact List.forall_mem_cons.mpr ⟨rfl, List.forall_mem_singleton.mpr rfl⟩
  · obtain ⟨mark, hmark, hn⟩ := Option.map_eq_some_iff.mp h
    cases hn
    rw [List.take_zero]
    refine List.forall_mem_singleton.mpr ?_
    unfold mark? at hmark
    split at hmark <;> cases hmark <;> first | rfl | exact absurd rfl ‹_›

theorem isPlain_of_blank? (h : blank? c t = some (.token tok n)) (hfeed : tok ≠ .newline) :
    ∀ d ∈ c :: t.take n, isPlain d = true := by
  have hwritten := written_of_blank? h
  unfold blank? at h
  split at h
  · cases h
    exact absurd rfl hfeed
  · split at h
    · cases h
      intro d hd
      obtain ⟨hblank, hne⟩ := hwritten.2 d hd
      refine isPlain_of_test (p := fun d => isBlank d && d != '\n') (by decide) ?_
      simp [hblank, hne]
    · cases h

theorem feedless_of_isPlain {s : Text} (h : ∀ d ∈ s, isPlain d = true) : '\n' ∉ s :=
  fun hfeed => absurd (h _ hfeed) (by decide)

/-! ### Comments -/

/-- What stands behind the mark that opens a block comment, and what is left behind the comment,
which ends at its first closing mark or with the text. -/
inductive Closes : Text → Text → Prop
  | closed (rest : Text) : Closes ('*' :: '/' :: rest) rest
  | unclosed : Closes [] []
  | skip {c : Char} {t rest : Text} (hend : ¬(c = '*' ∧ t.head? = some '/')) (h : Closes t rest) :
      Closes (c :: t) rest

theorem Closes.size_le {rest : Text} (h : Closes t rest) : size rest ≤ size t := by
  induction h with
  | closed rest =>
    simp only [size_cons]
    omega
  | unclosed => exact Nat.le_refl _
  | skip hend h ih =>
    rw [size_cons]
    omega

theorem Closes.size_lt {rest : Text} (h : Closes t rest) (hne : t ≠ []) : size rest < size t := by
  cases h with
  | closed =>
    have hstar := Char.utf8Size_pos '*'
    simp only [size_cons]
    omega
  | unclosed => exact absurd rfl hne
  | @skip c t _ hend h =>
    have hc := c.utf8Size_pos
    have hle := h.size_le
    rw [size_cons]
    omega

theorem closes_of_commentLength? (t : Text) :
    Closes t (match commentLength? t with
      | some length => t.drop (length + 2)
      | none => []) := by
  induction t with
  | nil => exact .unclosed
  | cons c t ih =>
    rw [commentLength?_cons]
    by_cases hend : c = '*' ∧ t.head? = some '/'
    · rw [if_pos hend]
      obtain ⟨rfl, hhead⟩ := hend
      obtain ⟨t, rfl⟩ := List.head?_eq_some_iff.mp hhead
      exact .closed t
    · rw [if_neg hend]
      cases hlength : commentLength? t with
      | some length =>
        rw [hlength] at ih
        exact .skip hend ih
      | none =>
        rw [hlength] at ih
        exact .skip hend ih

/-- A block comment is closed where lexing goes on. -/
theorem closes_of_scan {text : String} (h : scan c t = .token (.blockComment text) n) :
    c = '/' ∧ ∃ body, t = '*' :: body ∧ Closes body (t.drop n) := by
  have hstart : c :: t.take n = '/' :: '*' :: (c :: t.take n).drop 2 := by
    rcases written_of_scan h with hwritten | ⟨hwritten, -⟩ <;> rw [hwritten] <;> rfl
  obtain ⟨rfl, htake⟩ := List.cons.inj hstart
  refine ⟨rfl, ?_⟩
  cases t with
  | nil => simp at htake
  | cons d t =>
    cases n with
    | zero => simp at htake
    | succ n =>
      rw [List.take_succ_cons] at htake
      obtain ⟨rfl, -⟩ := List.cons.inj htake
      have hcloses := closes_of_commentLength? t
      refine ⟨t, rfl, ?_⟩
      rw [List.drop_succ_cons]
      cases hlength : commentLength? t with
      | some length =>
        have hscan : scan '/' ('*' :: t) =
            .token (.blockComment (String.ofList (t.take length))) (3 + length) := by
          simp [scan, comment?, hlength]
        rw [hscan] at h
        obtain rfl : length + 2 = n := by
          injection h
          omega
        rw [hlength] at hcloses
        exact hcloses
      | none =>
        have hscan : scan '/' ('*' :: t) =
            .token (.blockComment (String.ofList t)) (1 + t.length) := by
          simp [scan, comment?, hlength]
        rw [hscan] at h
        obtain rfl : t.length = n := by
          injection h
          omega
        rw [hlength] at hcloses
        rw [List.drop_length]
        exact hcloses

/-- Behind a line comment nothing is left of the line. -/
theorem eq_nil_of_split_run {t l : Text} {ls : List Text}
    (h : split '\n' (t.drop (t.takeWhile (· != '\n')).length) = l :: ls) : l = [] := by
  induction t with
  | nil => exact (List.cons.inj h).1.symm
  | cons c t ih =>
    by_cases hc : c = '\n'
    · subst hc
      exact (List.cons.inj h).1.symm
    · rw [List.takeWhile_cons_of_pos (by simpa using hc)] at h
      exact ih h

/-- A token that is neither a brace nor a line break nor a block comment stands in one line, and
counting goes on behind it. -/
theorem count_inline (h : scan c t = .token tok n) (hopen : tok ≠ .leftBrace)
    (hclose : tok ≠ .rightBrace) (hfeed : tok ≠ .newline)
    (hblock : ∀ text, tok ≠ .blockComment text) :
    '\n' ∉ c :: t.take n ∧ ∀ l ls, split '\n' (t.drop n) = l :: ls →
      count .code (c :: t.take n ++ l) = count .code l := by
  have hplain : (∀ d ∈ c :: t.take n, isPlain d = true) → _ := fun hall =>
    (⟨feedless_of_isPlain hall, fun l ls _ => count_plain_append hall l⟩ :
      '\n' ∉ c :: t.take n ∧ ∀ l ls, split '\n' (t.drop n) = l :: ls →
        count .code (c :: t.take n ++ l) = count .code l)
  obtain hscan := scan_eq_token h
  clear h
  rcases hscan with h | ⟨-, h | ⟨-, h | h | h⟩⟩
  · unfold comment? at h
    split at h
    · rename_i t
      cases h
      -- A line comment is all that is left of its line.
      rw [Nat.add_comm 1, List.take_succ_cons, List.drop_succ_cons, take_length_takeWhile]
      refine ⟨?_, fun l ls hsplit => ?_⟩
      · simp only [List.mem_cons, not_or]
        refine ⟨by decide, by decide, fun hfeed => ?_⟩
        have hmem := List.mem_takeWhile_imp hfeed
        simp at hmem
      · obtain rfl := eq_nil_of_split_run hsplit
        rfl
    · split at h <;> cases h <;> exact absurd rfl (hblock _)
    · cases h
  · unfold literal? at h
    split at h
    · rename_i hquote
      subst hquote
      split at h
      · rename_i value length hscan
        cases h
        obtain ⟨body, hbody, hdenotes⟩ := Literal.denotes_of_scan hscan
        rw [hbody]
        refine ⟨?_, fun l ls _ => ?_⟩
        · simp only [List.mem_cons, List.mem_append, List.not_mem_nil, or_false, not_or]
          exact ⟨by decide, hdenotes.feedless, by decide⟩
        · rw [List.cons_append, List.append_assoc]
          exact hdenotes.count_string l
      · cases h
      · cases h
    · cases h
  · exact hplain (isPlain_of_word? h)
  · exact hplain (isPlain_of_punctuation? h hopen hclose)
  · exact hplain (isPlain_of_blank? h hfeed)

end Front

end EventCatalog
