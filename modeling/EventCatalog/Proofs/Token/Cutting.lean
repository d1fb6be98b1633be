import EventCatalog.Proofs.Token.Coverage

/-! # Texts cut off

A cursor divides a text, and what is written before it is lexed on its own.  If the last character
before the cursor is a blank or a brace and no token with meaning nor a comment reaches over it, the
tokens before the cursor are those of the whole text: none of them was decided by what stands
behind the cursor (`Front.scan_cut`), so the lexemes of the text begin with those before the cursor
(`Piece.cutOff_of_between`). -/

namespace EventCatalog

open Text

/-- The text is empty or ends with a blank or a brace. -/
def Text.EndsApart (t : Text) : Prop :=
  ∀ c, t.getLast? = some c → isBlank c = true ∨ c = '{' ∨ c = '}'

namespace Text

theorem EndsApart.tail {c : Char} {t : Text} (h : EndsApart (c :: t)) : EndsApart t := by
  intro d hd
  refine h d ?_
  rw [List.getLast?_cons, hd]
  rfl

theorem EndsApart.drop {t : Text} (h : t.EndsApart) (n : Nat) : EndsApart (t.drop n) := by
  intro d hd
  refine h d ?_
  rw [List.getLast?_drop] at hd
  split at hd
  · cases hd
  · exact hd

end Text

/-! ### String literals -/

namespace Escape

variable {t v : Text} {c : Char} {n : Nat}

theorem scanUnicode_cut (h : scanUnicode (t ++ v) = .char c n) (hn : n ≤ t.length + 1) :
    scanUnicode t = .char c n := by
  obtain ⟨digits, rest, heq, rfl, hne, hlength, hdigits, hscalar⟩ := exists_of_scanUnicode h
  have hwhole : '{' :: (digits ++ ['}']) <+: t ++ v := ⟨rest, by simp [heq]⟩
  have hfront : '{' :: (digits ++ ['}']) <+: t := by
    refine List.prefix_of_prefix_length_le hwhole (List.prefix_append t v) ?_
    simp
    omega
  obtain ⟨rest', rfl⟩ := hfront
  rw [List.cons_append, List.append_assoc, List.singleton_append]
  exact scanUnicode_digits hne hlength hdigits hscalar rest'

theorem scan_cut (h : scan (t ++ v) = .char c n) (hn : n ≤ t.length) : scan t = .char c n := by
  cases t with
  | nil =>
    -- An escape has a character at least.
    obtain rfl : n = 0 := Nat.le_zero.mp hn
    have hitem := Literal.item_of_scan h
    rw [List.take_zero] at hitem
    cases hitem with
    | plain _ _ hback => exact absurd rfl hback
  | cons d t =>
    rw [List.cons_append, scan] at h
    rw [scan]
    split
    · rename_i hd
      rw [if_pos hd] at h
      exact scanUnicode_cut h hn
    · rename_i hd
      rw [if_neg hd] at h
      exact h

end Escape

namespace Literal

variable {t v value : Text} {n : Nat}

theorem scan_cut (h : scan (t ++ v) = .closed value n) (hn : n ≤ t.length) :
    scan t = .closed value n := by
  induction hlength : t.length using Nat.strong_induction_on generalizing t value n with
  | _ k ih =>
    subst hlength
    cases t with
    | nil =>
      -- There is at least the closing quote.
      obtain ⟨body, hbody, -⟩ := denotes_of_scan h
      rw [Nat.le_zero.mp hn, List.take_zero] at hbody
      exact absurd hbody.symm (by simp)
    | cons c t =>
      rw [List.length_cons] at hn
      rw [List.cons_append, scan] at h
      rw [scan]
      by_cases hquote : c = '"'
      · rw [if_pos hquote] at h ⊢
        exact h
      rw [if_neg hquote] at h ⊢
      by_cases hend : c = '\n' ∨ c = '\r'
      · rw [if_pos hend] at h
        cases h
      rw [if_neg hend] at h ⊢
      by_cases hback : c = '\\'
      · rw [if_pos hback] at h ⊢
        cases hescape : Escape.scan (t ++ v) with
        | fault code length =>
          rw [hescape] at h
          cases h
        | char d length =>
          rw [hescape] at h
          obtain ⟨rest, m, hrest, rfl, rfl⟩ := eq_closed_of_after h
          have hle : length ≤ t.length := by omega
          rw [List.drop_append_of_le_length hle] at hrest
          have hcut := ih _ (by rw [List.length_drop, List.length_cons]; omega) hrest
            (by rw [List.length_drop]; omega) rfl
          rw [Escape.scan_cut hescape hle]
          simp only [hcut, after]
      · rw [if_neg hback] at h ⊢
        obtain ⟨rest, m, hrest, rfl, rfl⟩ := eq_closed_of_after h
        rw [ih _ (Nat.lt_add_one _) hrest (by omega) rfl, after]

end Literal

namespace Front

variable {c : Char} {t v : Text} {tok : Token} {n : Nat}

/-! ### Runs -/

theorem takeWhile_cut {p : Char → Bool} (h : ((t ++ v).takeWhile p).length ≤ t.length) :
    t.takeWhile p = (t ++ v).takeWhile p := by
  rw [List.takeWhile_append] at h ⊢
  split
  · rename_i hall
    rw [if_pos hall, List.length_append] at h
    have hnil : v.takeWhile p = [] := List.eq_nil_of_length_eq_zero (by omega)
    rw [hnil, List.append_nil]
    exact (List.takeWhile_prefix p).eq_of_length hall
  · rfl

theorem commentLength?_cut (h : commentLength? (t ++ v) = some n) (hn : n + 2 ≤ t.length) :
    commentLength? t = some n := by
  induction t generalizing n with
  | nil => simp at hn
  | cons c t ih =>
    rw [List.length_cons] at hn
    rw [List.cons_append, commentLength?_cons] at h
    rw [commentLength?_cons]
    cases t with
    | nil => simp at hn
    | cons d t =>
      split at h
      · rename_i hend
        rw [if_pos (by simpa using hend)]
        exact h
      · rename_i hend
        obtain ⟨m, hm, rfl⟩ := Option.map_eq_some_iff.mp h
        rw [if_neg (by simpa using hend), ih hm (by omega)]
        rfl

/-! ### The parts of the scan -/

theorem comment?_cut (hapart : EndsApart (c :: t)) (h : scan c (t ++ v) = .token tok n)
    (hn : n ≤ t.length) (hline : ∀ text, tok = .lineComment text → n < t.length) :
    comment? c t = comment? c (t ++ v) := by
  by_cases hslash : c = '/'
  case neg =>
    rw [comment?_eq_none fun hc => absurd hc hslash, comment?_eq_none fun hc => absurd hc hslash]
  subst hslash
  cases t with
  | nil => exact absurd (hapart '/' rfl) (by decide)
  | cons d t =>
    rw [List.length_cons] at hn hline
    by_cases hstart : d = '/'
    · subst hstart
      have hscan : scan '/' ('/' :: (t ++ v)) = .token _ _ := rfl
      rw [List.cons_append, hscan] at h
      cases h
      have hlt := hline _ rfl
      have hrun : t.takeWhile (· != '\n') = (t ++ v).takeWhile (· != '\n') :=
        takeWhile_cut (by omega)
      rw [List.cons_append, comment?, comment?, hrun]
    by_cases hblock : d = '*'
    · subst hblock
      cases hlength : commentLength? (t ++ v) with
      | some length =>
        have hscan : scan '/' ('*' :: (t ++ v)) = .token (.blockComment
            (String.ofList ((t ++ v).take length))) (3 + length) := by
          simp [scan, comment?, hlength]
        rw [List.cons_append, hscan] at h
        cases h
        have hcut := commentLength?_cut hlength (by omega)
        simp only [List.cons_append, comment?, hlength, hcut,
          List.take_append_of_le_length (show length ≤ t.length by omega)]
      | none =>
        -- The comment is the rest of the text, and nothing is cut off.
        have hscan : scan '/' ('*' :: (t ++ v)) = .token (.blockComment
            (String.ofList (t ++ v))) (1 + (t ++ v).length) := by
          simp [scan, comment?, hlength]
        rw [List.cons_append, hscan] at h
        cases h
        rw [List.length_append] at hn
        have hnil : v = [] := List.eq_nil_of_length_eq_zero (by omega)
        rw [hnil, List.append_nil]
    · have hnone : ∀ t, comment? '/' (d :: t) = none := fun t =>
        comment?_eq_none fun _ => by simp [hstart, hblock]
      rw [List.cons_append, hnone, hnone]

theorem literal?_cut (h : scan c (t ++ v) = .token tok n) (hn : n ≤ t.length) :
    literal? c t = literal? c (t ++ v) := by
  unfold literal?
  split
  · rename_i hquote
    subst hquote
    have hcomment : comment? '"' (t ++ v) = none :=
      comment?_eq_none fun hc => absurd hc (by decide)
    rw [scan, hcomment, literal?, if_pos rfl] at h
    cases hscan : Literal.scan (t ++ v) with
    | closed value length =>
      rw [hscan] at h
      cases h
      rw [Literal.scan_cut hscan hn]
    | unterminated length =>
      rw [hscan] at h
      cases h
    | broken code before body =>
      rw [hscan] at h
      cases h
  · rfl

theorem delimits_of_apart {d : Char} (h : isBlank d = true ∨ d = '{' ∨ d = '}') (u : Text) :
    Delimits (d :: u) := by
  change (isWordChar d || isSelectorChar d) = false
  rcases h with h | rfl | rfl
  · rw [eq_false_of_blank (fun _ => isVisible_of_isWordChar) d h,
      eq_false_of_blank (fun _ => isVisible_of_isSelectorChar) d h]
    rfl
  · decide
  · decide

theorem blank?_cut (h : blank? c (t ++ v) = some (.token tok n)) (hn : n ≤ t.length) :
    blank? c t = some (.token tok n) := by
  unfold blank? at h ⊢
  split
  · rename_i hfeed
    rw [if_pos hfeed] at h
    exact h
  · rename_i hfeed
    rw [if_neg hfeed] at h
    split
    · rename_i hblank
      rw [if_pos hblank] at h
      cases h
      rw [takeWhile_cut hn]
    · rename_i hblank
      rw [if_neg hblank] at h
      cases h

/-- What stands at the front of a text is the same if the text is cut off behind it, after a blank or
a brace. -/
theorem scan_cut (hapart : EndsApart (c :: t)) (h : scan c (t ++ v) = .token tok n)
    (hn : n ≤ t.length) (hline : ∀ text, tok = .lineComment text → n < t.length) :
    scan c t = .token tok n := by
  cases hblank : isBlank c with
  | true =>
    have hscan := scan_eq_blank? hblank
    rw [hscan] at h ⊢
    cases hrun : blank? c (t ++ v) with
    | none =>
      rw [hrun] at h
      cases h
    | some f =>
      rw [hrun, Option.getD_some] at h
      subst h
      rw [blank?_cut hrun hn, Option.getD_some]
  | false =>
    rcases List.eq_nil_or_concat t with rfl | ⟨s, d, ht⟩
    · -- All of the text is a brace.
      rcases hapart c rfl with hc | rfl | rfl
      · exact absurd hc (by simp [hblank])
      · exact h
      · exact h
    · -- The last character ends all words, whatever stands behind it.
      rw [List.concat_eq_append] at ht
      subst ht
      have hdelimits := delimits_of_apart (hapart d (by simp [List.getLast?_cons]))
      have hmark : punctuation? c (s ++ d :: v) = punctuation? c (s ++ [d]) := by
        cases s <;> rfl
      rw [← h, scan, scan, comment?_cut hapart h hn hline, literal?_cut h hn, List.append_assoc,
        List.singleton_append, selector?_append (hdelimits _), selector?_append (hdelimits _),
        version?_append (hdelimits _), version?_append (hdelimits _),
        identifier?_append (hdelimits _), identifier?_append (hdelimits _),
        blank?_eq_none hblank, blank?_eq_none hblank, hmark]

end Front

/-! ### Lexemes -/

/-- Whether the token is a comment. -/
def Token.isComment : Token → Bool
  | .lineComment _ | .blockComment _ => true
  | _ => false

/-- No token with meaning and no comment reaches over a cursor, nor does a comment end there: what
is written at the end of a line comment, or of a block comment that nothing closes, belongs to it. -/
structure StandsFree (cursor : Nat) (tokens : List (Located Token)) : Prop where
  words : ∀ x ∈ tokens, x.value.isTrivia = false → x.span.start < cursor → x.span.stop ≤ cursor
  comments : ∀ x ∈ tokens, x.value.isComment = true → x.span.start < cursor → x.span.stop < cursor

theorem StandsFree.tail {cursor : Nat} {x : Located Token} {xs : List (Located Token)}
    (h : StandsFree cursor (x :: xs)) : StandsFree cursor xs :=
  ⟨fun y hy => h.words y (List.mem_cons_of_mem _ hy),
    fun y hy => h.comments y (List.mem_cons_of_mem _ hy)⟩

namespace Front

variable {c : Char} {t v : Text} {tok : Token} {n : Nat}

/-- A token that reaches over a cursor between the tokens consists of blanks. -/
theorem eq_whitespace_of_over (h : scan c (t ++ v) = .token tok n) (hn : t.length < n)
    (hword : tok.isTrivia = false → size ((t ++ v).take n) ≤ size t)
    (hcomment : tok.isComment = true → size ((t ++ v).take n) < size t) : tok = .whitespace := by
  have htake : (t ++ v).take n = t ++ v.take (n - t.length) := by
    rw [List.take_append, List.take_of_length_le (Nat.le_of_lt hn)]
  rw [htake, size_append] at hword hcomment
  have hwritten := written_of_scan h
  have hfree : tok.isComment = false := by
    by_contra hfree
    have hlt := hcomment (by simpa using hfree)
    omega
  cases hmeaning : tok.isTrivia with
  | true =>
    cases tok with
    | whitespace => rfl
    | newline =>
      -- A line break is one character.
      obtain ⟨rfl, -⟩ : c = '\n' ∧ (t ++ v).take n = [] := List.cons.inj hwritten
      have hscan : scan '\n' (t ++ v) = .token .newline 0 := rfl
      rw [hscan] at h
      injection h with _ hzero
      omega
    | lineComment _ | blockComment _ => cases hfree
    | _ => cases hmeaning
  | false =>
    -- Nothing is cut off a word, so it ends with the text.
    have hsize := hword hmeaning
    have hnone : v.take (n - t.length) = [] := by
      by_contra hne
      have hpos := size_pos hne
      omega
    have hnil : v = [] := by
      rcases List.take_eq_nil_iff.mp hnone with hzero | hnil
      · omega
      · exact hnil
    subst hnil
    rw [List.append_nil] at h
    exact absurd (length_le_of_scan h) (Nat.not_le_of_lt hn)

/-- Blanks of a line are one token. -/
theorem scan_of_blanks (h : ∀ d ∈ c :: t, isBlank d = true ∧ d ≠ '\n') :
    scan c t = .token .whitespace t.length := by
  obtain ⟨⟨hblank, hfeed⟩, hrest⟩ := List.forall_mem_cons.mp h
  have hrun : t.takeWhile (fun d => isBlank d && d != '\n') = t := by
    refine List.takeWhile_eq_self_iff.mpr fun d hd => ?_
    simp [(hrest d hd).1, (hrest d hd).2]
  rw [scan_eq_blank? hblank, blank?, if_neg hfeed, if_pos hblank, hrun]
  rfl

end Front

namespace Piece

/-- The text before a cursor is cut into pieces of which the last one is no comment, and its lexemes
are those before the cursor. -/
structure CutOff (start : Nat) (broken : Bool) (before v : Text) : Prop where
  clean : causes (ofText before) = []
  last : ∀ tok s, (ofText before).getLast? = some (token tok s) → tok.isComment = false
  lexemes : ∃ rest,
    lexemes start broken (ofText (before ++ v)) = lexemes start broken (ofText before) ++ rest ∧
      ∀ x ∈ rest, start + size before ≤ x.span.start

variable {start : Nat} {broken : Bool} {c : Char} {t v : Text} {tok : Token} {n : Nat}

theorem cutOff_nil (start : Nat) (broken : Bool) (v : Text) : CutOff start broken [] v := by
  have hnil : ofText [] = [] := by rw [ofText]
  constructor
  · rw [hnil]
    rfl
  · rw [hnil]
    intro tok s hlast
    cases hlast
  · rw [hnil]
    refine ⟨_, rfl, fun x hx => ?_⟩
    exact (bounds_of_mem_tokens (mem_tokens_of_mem_lexemes hx)).1

/-- One piece before the cursor more. -/
theorem CutOff.cons (hscan : Front.scan c (t ++ v) = .token tok n)
    (hcut : Front.scan c t = .token tok n) (hn : n ≤ t.length)
    (hlast : tok.isComment = true → n < t.length)
    (h : CutOff (start + size (c :: t.take n))
      (if tok.isTrivia then broken || hasBreak (c :: t.take n) else false) (t.drop n) v) :
    CutOff start broken (c :: t) v := by
  have hsize : size t = size (t.take n) + size (t.drop n) := by
    rw [← size_append, List.take_append_drop]
  have hwhole := ofText_token hscan
  rw [List.take_append_of_le_length hn, List.drop_append_of_le_length hn] at hwhole
  obtain ⟨rest, hrest, hbehind⟩ := h.lexemes
  constructor
  · rw [ofText_token hcut]
    exact h.clean
  · intro tok' s
    rw [ofText_token hcut]
    cases hpieces : ofText (t.drop n) with
    | nil =>
      intro hp
      cases hp
      by_contra hcomment
      have hlt := hlast (by simpa using hcomment)
      have htext := text_ofText (t.drop n)
      rw [hpieces] at htext
      have hnil := congrArg List.length htext
      rw [List.length_drop] at hnil
      simp at hnil
      omega
    | cons p pieces =>
      intro hp
      refine h.last tok' s ?_
      rw [hpieces, ← hp]
      rfl
  · refine ⟨rest, ?_, fun x hx => ?_⟩
    · rw [List.cons_append, hwhole, ofText_token hcut, Piece.lexemes, Piece.lexemes]
      split
      · rename_i htrivia
        rw [if_pos htrivia] at hrest
        exact hrest
      · rename_i htrivia
        rw [if_neg htrivia] at hrest
        rw [hrest, List.cons_append]
    · have hle := hbehind x hx
      simp only [size_cons] at hle ⊢
      omega

/-- The cursor stands in a run of blanks. -/
theorem cutOff_of_blanks (hscan : Front.scan c (t ++ v) = .token .whitespace n)
    (hn : t.length < n) : CutOff start broken (c :: t) v := by
  have hwritten := Front.written_of_scan hscan
  have htake : (t ++ v).take n = t ++ v.take (n - t.length) := by
    rw [List.take_append, List.take_of_length_le (Nat.le_of_lt hn)]
  rw [htake] at hwritten
  have hblanks : ∀ d ∈ c :: t, isBlank d = true ∧ d ≠ '\n' := fun d hd =>
    hwritten.2 d (List.mem_append_left _ hd)
  have hpieces : ofText (c :: t) = [token .whitespace (c :: t)] := by
    rw [ofText_token (Front.scan_of_blanks hblanks), List.take_length, List.drop_length, ofText]
  constructor
  · rw [hpieces]
    rfl
  · intro tok s hp
    rw [hpieces] at hp
    cases hp
    rfl
  · rw [hpieces, List.cons_append, ofText_token hscan]
    refine ⟨_, rfl, fun x hx => ?_⟩
    have hle := (bounds_of_mem_tokens (mem_tokens_of_mem_lexemes hx)).1
    rw [htake] at hle
    simp only [size_cons, size_append] at hle ⊢
    omega

/-- A cursor between the tokens of a text, behind a blank or a brace, cuts the text off. -/
theorem cutOff_of_between {before : Text} (hapart : before.EndsApart)
    (hclean : causes (ofText (before ++ v)) = [])
    (hcursor : StandsFree (start + size before) (tokens start (ofText (before ++ v)))) :
    CutOff start broken before v := by
  induction hlength : before.length using Nat.strong_induction_on generalizing start broken before
    with
  | _ k ih =>
    subst hlength
    cases before with
    | nil => exact cutOff_nil start broken v
    | cons c t =>
      rw [List.cons_append] at hclean hcursor
      cases hscan : Front.scan c (t ++ v) with
      | fault code lead body =>
        rw [ofText_fault hscan] at hclean
        cases hclean
      | token tok n =>
        rw [ofText_token hscan] at hclean hcursor
        have hword := hcursor.words _ List.mem_cons_self
        have hcomment := hcursor.comments _ List.mem_cons_self
        have hpos := c.utf8Size_pos
        simp only [size_cons] at hword hcomment
        by_cases hn : n ≤ t.length
        · rw [List.take_append_of_le_length hn] at hcomment
          have hlast : tok.isComment = true → n < t.length := by
            intro htok
            have hlt := hcomment htok (by omega)
            refine Nat.lt_of_le_of_ne hn ?_
            rintro rfl
            rw [List.take_length] at hlt
            omega
          have hcut := Front.scan_cut hapart hscan hn fun text htext => hlast (by rw [htext]; rfl)
          have hsize : size t = size (t.take n) + size (t.drop n) := by
            rw [← size_append, List.take_append_drop]
          have hrest := hcursor.tail
          rw [List.drop_append_of_le_length hn] at hclean hrest
          rw [List.take_append_of_le_length hn] at hrest
          refine CutOff.cons hscan hcut hn hlast (ih _ ?_ (hapart.tail.drop n) hclean ?_ rfl)
          · rw [List.length_drop, List.length_cons]
            omega
          · have hplace : start + size (c :: t.take n) + size (t.drop n) = start + size (c :: t) := by
              simp only [size_cons]
              omega
            rw [hplace]
            exact hrest
        · have hover := Front.eq_whitespace_of_over hscan (Nat.lt_of_not_le hn)
            (fun htok => by have := hword htok (by omega); omega)
            (fun htok => by have := hcomment htok (by omega); omega)
          subst hover
          exact cutOff_of_blanks hscan (Nat.lt_of_not_le hn)

end Piece

end EventCatalog
