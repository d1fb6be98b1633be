import EventCatalog.Proofs.Token.Cutting
import Mathlib.Data.List.Basic

/-! # Tokens that halt at an arrow

What stands at the front of a text is the same in front of an arrow as in front of a blank
(`Front.scan_arrow`), for the scan of nearly all tokens halts at both.  Two kinds of tokens need the
blank (`Token.needsBlank`): a version selector takes the characters of the arrow as its own, and a
version that begins with `v` is none in front of a hyphen, so that neither is read in front of an arrow
(`Front.scan_ne_of_needsBlank`). -/

namespace EventCatalog

open Text

/-- A blank that ends no line. -/
def Text.isLineBlank (c : Char) : Bool := isBlank c && c != '\n'

/-- Whether the token is another one if an arrow stands close behind it. -/
def Token.needsBlank : Token → Bool
  | versionSelector _ => true
  | version text => text.toList.head?.any fun c => c == 'v' || c == 'V'
  | _ => false

namespace Front

/-- The text begins with an arrow, or with a blank of the line. -/
inductive Halts : Text → Prop
  | arrow (r : Text) : Halts ('-' :: '>' :: r)
  | blank {d : Char} (h : isLineBlank d = true) (r : Text) : Halts (d :: r)

variable {c : Char} {t u s : Text} {tok : Token} {n : Nat}

/-! ### What stops at an arrow -/

theorem isBlank_of_isLineBlank {d : Char} (h : isLineBlank d = true) : isBlank d = true :=
  (Bool.and_eq_true_iff.mp h).1

theorem Halts.any_head? (hs : Halts s) {p : Char → Bool} (hp : ∀ d, p d = true → IsVisible d)
    (hhyphen : p '-' = false) : s.head?.any p = false := by
  cases hs with
  | arrow r => exact hhyphen
  | blank h r => exact eq_false_of_blank hp _ (isBlank_of_isLineBlank h)

/-- A run of characters of a word stops at an arrow and at a blank. -/
theorem Halts.hyphenatedLength_append (hs : Halts s) {p : Char → Bool}
    (hp : ∀ d, p d = true → IsVisible d) (hhyphen : p '-' = false) (t : Text) :
    hyphenatedLength p (t ++ s) = hyphenatedLength p t := by
  refine hyphenatedLength_append_of_stop ?_
    (hs.any_head? (fun _ => isVisible_of_isAlphanumeric) (by decide)) t
  cases hs with
  | arrow r => simp [hyphenatedLength, hhyphen, isAlphanumeric, isLetter, isDigit]
  | @blank d h r =>
    have hblank := isBlank_of_isLineBlank h
    have hne : d ≠ '-' := by
      rintro rfl
      exact absurd hblank (by decide)
    simp [hyphenatedLength, eq_false_of_blank hp d hblank, hne]

/-- A run that ends before the text does not see what comes behind the text. -/
theorem takeWhile_of_lt {p : Char → Bool} (h : ((u ++ s).takeWhile p).length < u.length)
    (s' : Text) : (u ++ s').takeWhile p = (u ++ s).takeWhile p := by
  have hcut := takeWhile_cut (Nat.le_of_lt h)
  rw [← hcut] at h ⊢
  rw [List.takeWhile_append, if_neg (Nat.ne_of_lt h)]

/-- A run that may go on behind the text ends before it or does. -/
theorem takeWhile_lt {p : Char → Bool} (h : ((u ++ s).takeWhile p).length ≤ u.length)
    (hs : s.head?.any p = true) : ((u ++ s).takeWhile p).length < u.length := by
  cases s with
  | nil => cases hs
  | cons d s =>
    rw [List.takeWhile_append] at h ⊢
    split at h
    · have hd : p d = true := hs
      rw [List.takeWhile_cons_of_pos hd, List.length_append, List.length_cons] at h
      omega
    · rename_i hall
      rw [if_neg hall]
      exact Nat.lt_of_le_of_ne h hall

/-! ### Comments, literals and marks -/

theorem Halts.head?_ne (hs : Halts s) {d : Char} (hd : isBlank d = false) (hhyphen : d ≠ '-') :
    s.head? ≠ some d := by
  cases hs with
  | arrow r => simpa using Ne.symm hhyphen
  | blank h r =>
    rintro ⟨⟩
    exact absurd (isBlank_of_isLineBlank h) (by simp [hd])

theorem Halts.any_feed (hs : Halts s) : s.head?.any (· != '\n') = true := by
  cases hs with
  | arrow r => rfl
  | blank h r => exact (Bool.and_eq_true_iff.mp h).2

/-- A comment that ends before the arrow does not see it. -/
theorem comment?_arrow (hs : Halts s) (h : comment? c (u ++ s) = some (.token tok n))
    (hn : n ≤ u.length) (s' : Text) : comment? c (u ++ s') = some (.token tok n) := by
  by_cases hslash : c = '/'
  case neg =>
    rw [comment?_eq_none fun hc => absurd hc hslash] at h
    cases h
  subst hslash
  cases u with
  | nil =>
    rw [List.nil_append, comment?_eq_none fun _ => ⟨hs.head?_ne (by decide) (by decide),
      hs.head?_ne (by decide) (by decide)⟩] at h
    cases h
  | cons d u =>
    rw [List.length_cons] at hn
    by_cases hline : d = '/'
    · subst hline
      rw [List.cons_append, comment?] at h
      cases h
      rw [List.cons_append, comment?, takeWhile_of_lt (takeWhile_lt (by omega) hs.any_feed)]
    by_cases hblock : d = '*'
    · subst hblock
      cases hlength : commentLength? (u ++ s) with
      | some length =>
        simp only [List.cons_append, comment?, hlength] at h
        cases h
        have hcut := commentLength?_cut hlength (by omega)
        have hend := (commentLength?_append hcut s').2
        have hle : length ≤ u.length := by omega
        simp only [List.cons_append, comment?, hend, List.take_append_of_le_length hle]
      | none =>
        -- The comment is the rest of the text, which the arrow belongs to.
        simp only [List.cons_append, comment?, hlength] at h
        cases h
        have hpos : 0 < s.length := by cases hs <;> exact Nat.zero_lt_succ _
        rw [List.length_append] at hn
        omega
    · rw [List.cons_append, comment?_eq_none fun _ => by simp [hline, hblock]] at h
      cases h

theorem comment?_arrow_eq_none (h : comment? c (u ++ s) = none) (r : Text) :
    comment? c (u ++ '-' :: r) = none := by
  cases u with
  | nil => exact comment?_eq_none fun _ => ⟨by simp, by simp⟩
  | cons d u =>
    refine comment?_eq_none fun hc => ?_
    subst hc
    constructor
    · rintro ⟨⟩
      cases h
    · rintro ⟨⟩
      rw [List.cons_append, comment?] at h
      split at h <;> cases h

theorem literal?_arrow (h : literal? c (u ++ s) = some (.token tok n)) (hn : n ≤ u.length)
    (s' : Text) : literal? c (u ++ s') = some (.token tok n) := by
  unfold literal? at h ⊢
  split
  · rename_i hquote
    rw [if_pos hquote] at h
    split at h
    · rename_i value length hscan
      cases h
      rw [(Literal.scan_append (Literal.scan_cut hscan hn) s').2]
    all_goals cases h
  · rename_i hquote
    rw [if_neg hquote] at h
    cases h

theorem literal?_eq_none_iff : literal? c t = none ↔ c ≠ '"' := by
  unfold literal?
  split
  · rename_i hquote
    refine iff_of_false ?_ fun h => h hquote
    split <;> nofun
  · rename_i hquote
    exact iff_of_true rfl hquote

/-- A hyphen makes no selector of what is none. -/
theorem isSelector_hyphen {x : Text} (h : isSelector (u ++ x) = false) (y : Text) :
    isSelector (u ++ '-' :: y) = false := by
  cases u with
  | nil => rfl
  | cons d u =>
    have hlatest : (lowerAscii (d :: (u ++ '-' :: y)) == "latest".toList) = false := by
      refine beq_eq_false_iff_ne.mpr fun heq => ?_
      have hmem : Char.toLower '-' ∈ lowerAscii (d :: (u ++ '-' :: y)) :=
        List.mem_map_of_mem (by simp)
      rw [heq] at hmem
      exact absurd hmem (by decide)
    have hdigit : (u ++ '-' :: y).head?.any isDigit = true → (u ++ x).head?.any isDigit = true := by
      cases u with
      | nil => nofun
      | cons e u => exact id
    simp only [List.cons_append, isSelector, hlatest, Bool.or_eq_false_iff] at h ⊢
    refine ⟨h.1, ?_⟩
    split
    · rename_i hv
      rw [if_pos hv] at h
      exact Bool.eq_false_iff.mpr fun hd => Bool.eq_false_iff.mp h.2 (hdigit hd)
    · rfl

theorem isSelector_arrow (h : isSelector ((u ++ s).takeWhile isSelectorChar) = false) (r : Text) :
    isSelector ((u ++ '-' :: r).takeWhile isSelectorChar) = false := by
  rw [List.takeWhile_append] at h ⊢
  split
  · rename_i hall
    rw [if_pos hall] at h
    exact isSelector_hyphen h _
  · rename_i hall
    rw [if_neg hall] at h
    exact h

theorem punctuation?_arrow (hs : Halts s) (hscan : scan c (u ++ s) = .token tok n)
    (h : punctuation? c (u ++ s) = some (.token tok n)) (r : Text) :
    scan c (u ++ '-' :: r) = .token tok n := by
  unfold punctuation? at h
  split at h
  · rename_i harrow
    cases h
    obtain ⟨rfl, hhead⟩ := harrow
    cases u with
    | nil => exact absurd hhead (hs.head?_ne (by decide) (by decide))
    | cons d u =>
      obtain rfl : d = '>' := by simpa using hhead
      rfl
  · obtain ⟨mark, hmark, hn⟩ := Option.map_eq_some_iff.mp h
    cases hn
    unfold mark? at hmark
    split at hmark <;> cases hmark
    · refine Token.scan_atSign (isSelector_arrow (s := s) ?_ r)
      by_contra hselector
      have hbody : selector? '@' (u ++ s) = some (.token _ _) :=
        if_pos ⟨rfl, by simpa using hselector⟩
      rw [scan, hbody] at hscan
      cases hscan
    all_goals rfl

theorem blank?_arrow (h : blank? c (u ++ s) = some (.token tok n)) (hn : n ≤ u.length) (r : Text) :
    scan c (u ++ '-' :: r) = .token tok n := by
  unfold blank? at h
  split at h
  · rename_i hfeed
    cases h
    rw [hfeed]
    rfl
  · rename_i hfeed
    split at h
    · rename_i hblank
      cases h
      rw [scan_eq_blank? hblank, blank?, if_neg hfeed, if_pos hblank, ← takeWhile_cut hn,
        takeWhile_append (u := '-' :: r) rfl]
      rfl
    · cases h

/-! ### Words -/

theorem lt_of_markedVersionLength? (h : markedVersionLength? (u ++ '-' :: s) = some n) :
    n < u.length := by
  have hrun := takeWhile_append (p := fun c => isDigit c || c == '.') (u := '-' :: s) rfl u
  simp only [markedVersionLength?, hrun] at h
  split at h
  · rename_i hend
    cases h
    refine Nat.lt_of_le_of_ne (List.takeWhile_prefix _).length_le fun hall => ?_
    rw [hall, List.drop_left] at hend
    simp at hend
  · cases h

theorem markedVersionLength?_of_lt (h : markedVersionLength? (u ++ s) = some n) (hn : n < u.length)
    (s' : Text) : markedVersionLength? (u ++ s') = some n := by
  have hne : u ≠ [] := List.ne_nil_of_length_pos (Nat.zero_lt_of_lt hn)
  have hrest : u.drop n ≠ [] := List.ne_nil_of_length_pos (by rw [List.length_drop]; omega)
  simp only [markedVersionLength?] at h ⊢
  split at h
  · rename_i hend
    cases h
    have hrun := takeWhile_of_lt hn s'
    rw [List.head?_append_of_ne_nil _ hne, List.drop_append_of_le_length (Nat.le_of_lt hn),
      List.head?_append_of_ne_nil _ hrest] at hend
    rw [hrun, List.head?_append_of_ne_nil _ hne, List.drop_append_of_le_length (Nat.le_of_lt hn),
      List.head?_append_of_ne_nil _ hrest, if_pos hend]
  · cases h

theorem version?_arrow (hs : Halts s) (h : version? c (u ++ s) = some (.token tok n))
    (hfree : tok.needsBlank = true → n < u.length) (r : Text) :
    version? c (u ++ '-' :: '>' :: r) = some (.token tok n) := by
  have hlength : ∀ s, Halts s →
      hyphenatedLength isVersionChar (u ++ s) = hyphenatedLength isVersionChar u := fun _ hs =>
    hs.hyphenatedLength_append (fun _ => isVisible_of_isVersionChar) (by decide) u
  unfold version? at h ⊢
  split
  · rename_i hdigit
    rw [if_pos hdigit] at h
    simp only [hlength _ hs, List.take_append_of_le_length (hyphenatedLength_le _ _)] at h
    simp only [hlength _ (.arrow r), List.take_append_of_le_length (hyphenatedLength_le _ _), h]
  · rename_i hdigit
    rw [if_neg hdigit] at h
    split
    · rename_i hmark
      rw [if_pos hmark] at h
      obtain ⟨length, hlength, hn⟩ := Option.map_eq_some_iff.mp h
      cases hn
      have hlt : n < u.length := by
        refine hfree ?_
        rw [Token.needsBlank, String.toList_ofList]
        rcases hmark with rfl | rfl <;> rfl
      rw [markedVersionLength?_of_lt hlength hlt]
      simp only [Option.map_some, List.take_append_of_le_length (Nat.le_of_lt hlt)]
    · rename_i hmark
      rw [if_neg hmark] at h
      cases h

theorem version?_arrow_eq_none (h : version? c (u ++ s) = none) (r : Text) :
    version? c (u ++ '-' :: r) = none := by
  unfold version? at h ⊢
  split
  · rename_i hdigit
    rw [if_pos hdigit] at h
    cases h
  · rename_i hdigit
    rw [if_neg hdigit] at h
    split
    · rename_i hmark
      rw [if_pos hmark, Option.map_eq_none_iff] at h
      cases hlength : markedVersionLength? (u ++ '-' :: r) with
      | none => rfl
      | some n =>
        rw [markedVersionLength?_of_lt hlength (lt_of_markedVersionLength? hlength) s] at h
        cases h
    · rfl

theorem identifier?_arrow (hs : Halts s) (r : Text) :
    identifier? c (u ++ '-' :: '>' :: r) = identifier? c (u ++ s) := by
  have hlength : ∀ s, Halts s →
      hyphenatedLength isWordChar (u ++ s) = hyphenatedLength isWordChar u := fun _ hs =>
    hs.hyphenatedLength_append (fun _ => isVisible_of_isWordChar) (by decide) u
  simp only [identifier?, hlength _ hs, hlength _ (.arrow r),
    List.take_append_of_le_length (hyphenatedLength_le _ _)]

theorem selector?_eq_none (hc : c ≠ '@') (t : Text) : selector? c t = none :=
  if_neg fun h => hc h.1

theorem word?_arrow (hs : Halts s) (h : word? c (u ++ s) = some (.token tok n))
    (hfree : tok.needsBlank = true → n < u.length) (r : Text) :
    word? c (u ++ '-' :: '>' :: r) = some (.token tok n) := by
  unfold word? at h ⊢
  rw [Option.orElse_eq_some]
  rcases (Option.orElse_eq_some ..).mp h with h | ⟨-, h⟩
  · left
    simp only [selector?] at h ⊢
    split at h
    · rename_i hselector
      cases h
      rw [takeWhile_of_lt (hfree rfl), if_pos hselector]
    · cases h
  have hat : c ≠ '@' := by
    rintro rfl
    cases h
  refine .inr ⟨selector?_eq_none hat _, ?_⟩
  rw [Option.orElse_eq_some]
  rcases (Option.orElse_eq_some ..).mp h with h | ⟨hversion, h⟩
  · exact .inl (version?_arrow hs h hfree r)
  · exact .inr ⟨version?_arrow_eq_none hversion _, (identifier?_arrow hs r).trans h⟩

/-! ### Tokens -/

/-- What a token that needs a blank is read as. -/
theorem of_needsBlank (h : scan c t = .token tok n) (htok : tok.needsBlank = true) :
    c = '@' ∧ (t.takeWhile isSelectorChar).length = n ∨
      (c = 'v' ∨ c = 'V') ∧ markedVersionLength? t = some n := by
  have hopen : tok.isOpenEnded = true := by
    cases tok <;> first | rfl | cases htok
  obtain ⟨-, -, hword⟩ := word?_of_scan h hopen
  unfold word? at hword
  rcases (Option.orElse_eq_some ..).mp hword with h | ⟨-, h⟩
  · simp only [selector?] at h
    split at h
    · rename_i hselector
      cases h
      exact .inl ⟨hselector.1, rfl⟩
    · cases h
  rcases (Option.orElse_eq_some ..).mp h with h | ⟨-, h⟩
  · simp only [version?] at h
    split at h
    · rename_i hdigit
      cases h
      rw [Token.needsBlank, String.toList_ofList] at htok
      obtain rfl | rfl : c = 'v' ∨ c = 'V' := by simpa using htok
      all_goals exact absurd hdigit (by decide)
    · split at h
      · rename_i hmark
        obtain ⟨length, hlength, hn⟩ := Option.map_eq_some_iff.mp h
        cases hn
        exact .inr ⟨hmark, hlength⟩
      · cases h
  · simp only [identifier?] at h
    split at h
    · cases h
      cases htok
    · cases h

/-- Such a token does not end where a hyphen stands. -/
theorem lt_of_needsBlank (h : scan c (u ++ '-' :: s) = .token tok n) (hn : n ≤ u.length)
    (htok : tok.needsBlank = true) : n < u.length := by
  rcases of_needsBlank h htok with ⟨-, rfl⟩ | ⟨-, hlength⟩
  · exact takeWhile_lt hn rfl
  · exact lt_of_markedVersionLength? hlength

/-- A token in front of an arrow, or of a blank and anything, is the same in front of an arrow close
behind it, unless it needs the blank. -/
theorem scan_arrow (hs : Halts s) (h : scan c (u ++ s) = .token tok n) (hn : n ≤ u.length)
    (hfree : tok.needsBlank = true → n < u.length) (r : Text) :
    scan c (u ++ '-' :: '>' :: r) = .token tok n := by
  rcases scan_eq_token h with hcomment | ⟨hcomment, hrest⟩
  · rw [scan, comment?_arrow hs hcomment hn]
    rfl
  have hnone := comment?_arrow_eq_none hcomment ('>' :: r)
  rcases hrest with hliteral | ⟨hliteral, hword | hmark | hblank⟩
  · rw [scan, hnone, literal?_arrow hliteral hn]
    rfl
  · have hquote := literal?_eq_none_iff.mp hliteral
    exact scan_of_word? hnone (literal?_eq_none_iff.mpr hquote) (word?_arrow hs hword hfree r)
  · exact punctuation?_arrow hs h hmark ('>' :: r)
  · exact blank?_arrow hblank hn ('>' :: r)

/-- A token in front of an arrow or a blank ends with no blank, unless it is one. -/
theorem not_isLineBlank_of_scan (hs : Halts s) (h : scan c (u ++ s) = .token tok u.length)
    (htok : tok ≠ .whitespace) {d : Char} (hd : (c :: u).getLast? = some d) :
    isLineBlank d = false := by
  have hwritten := written_of_scan h
  rw [List.take_left, List.drop_left] at hwritten
  have hblank : isBlank d = false → isLineBlank d = false := fun hd => by
    rw [isLineBlank, hd, Bool.false_and]
  have hword (hopen : tok.isOpenEnded = true) : isLineBlank d = false := by
    obtain ⟨-, -, hword⟩ := word?_of_scan h hopen
    have hmem := List.mem_of_getLast? hd
    refine hblank ?_
    rcases mem_of_word? hword (by rwa [List.take_left]) with rfl | hd | hd
    · decide
    · exact (isVisible_of_isWordChar hd).not_blank
    · exact (isVisible_of_isSelectorChar hd).not_blank
  cases tok with
  | identifier text | version text | versionSelector text => exact hword rfl
  | stringLiteral value =>
    obtain ⟨body, hbody, -⟩ := hwritten
    rw [hbody, ← List.cons_append, List.getLast?_concat] at hd
    cases hd
    rfl
  | lineComment text =>
    -- It would take the arrow, and the blanks in front of it.
    obtain ⟨rfl, rfl⟩ := List.cons.inj hwritten
    have hrun : scan '/' ('/' :: (text.toList ++ s)) = .token (.lineComment _)
        (1 + ((text.toList ++ s).takeWhile (· != '\n')).length) := rfl
    rw [List.cons_append, hrun, List.length_cons] at h
    injection h with _ hlength
    have hlt := takeWhile_lt (u := text.toList) (by omega) hs.any_feed
    omega
  | blockComment text =>
    rcases hwritten with hbody | ⟨-, -, hnil⟩
    · have hlast : (c :: u).getLast? = some '/' := by
        rw [hbody, ← List.cons_append, ← List.cons_append]
        exact List.getLast?_append_of_ne_nil _ (List.cons_ne_nil _ _)
      obtain rfl := Option.some.inj (hd.symm.trans hlast)
      rfl
    · cases hs <;> cases hnil
  | whitespace => exact absurd rfl htok
  | _ =>
    rw [show c :: u = _ from hwritten] at hd
    cases hd
    rfl

/-- A run of blanks is not followed by another one. -/
theorem not_isLineBlank_behind (h : scan c (u ++ s) = .token .whitespace u.length) :
    s.head?.any isLineBlank = false := by
  have hwritten := written_of_scan h
  obtain ⟨hblank, hfeed⟩ := hwritten.2 c List.mem_cons_self
  rw [scan_eq_blank? hblank, blank?, if_neg hfeed, if_pos hblank, Option.getD_some] at h
  injection h with _ hlength
  rw [Bool.eq_false_iff]
  exact fun hs => absurd hlength (Nat.ne_of_lt (takeWhile_lt (Nat.le_of_eq hlength) hs))

/-- A token that needs a blank is not read in front of an arrow close behind it. -/
theorem scan_ne_of_needsBlank (h : scan c (u ++ s) = .token tok u.length)
    (htok : tok.needsBlank = true) (r : Text) : scan c (u ++ '-' :: r) ≠ .token tok n := by
  intro h'
  have hwritten := written_of_scan h
  have hwritten' := written_of_scan h'
  have hsame : (u ++ '-' :: r).take n = u := by
    rw [List.take_left] at hwritten
    cases tok with
    | version text | versionSelector text => exact (List.cons.inj (hwritten'.trans hwritten.symm)).2
    | _ => cases htok
  have hlength := congrArg List.length hsame
  rw [List.length_take, Nat.min_eq_left (length_le_of_scan h')] at hlength
  have hlt := lt_of_needsBlank h' (Nat.le_of_eq hlength) htok
  exact absurd hlength (Nat.ne_of_lt hlt)

/-- Where a selector or a version that needs a blank may begin, there is a word in any case. -/
theorem exists_word (hc : c = '@' ∨ c = 'v' ∨ c = 'V') (t : Text) :
    ∃ tok n, scan c t = .token tok n ∧ tok.isTrivia = false := by
  have hcomment : comment? c t = none := by
    refine comment?_eq_none fun hslash => ?_
    rcases hc with rfl | rfl | rfl <;> cases hslash
  have hliteral : literal? c t = none := by
    refine literal?_eq_none_iff.mpr ?_
    rcases hc with rfl | rfl | rfl <;> decide
  rcases hc with rfl | hmark
  · by_cases hselector : isSelector (t.takeWhile isSelectorChar) = true
    · have hword : word? '@' t = some (.token (.versionSelector _) _) :=
        (Option.orElse_eq_some ..).mpr (.inl (if_pos ⟨rfl, hselector⟩))
      exact ⟨_, _, scan_of_word? hcomment hliteral hword, rfl⟩
    · exact ⟨_, _, Token.scan_atSign (by simpa using hselector), rfl⟩
  · have hat : selector? c t = none := selector?_eq_none (by rcases hmark with rfl | rfl <;> decide) t
    have hdigit : isDigit c = false := by rcases hmark with rfl | rfl <;> decide
    have hletter : isLetter c = true := by rcases hmark with rfl | rfl <;> decide
    cases hlength : markedVersionLength? t with
    | some length =>
      have hword : word? c t =
          some (.token (.version (String.ofList (c :: t.take length))) length) := by
        rw [word?, hat, version?, if_neg (by simp [hdigit]), if_pos hmark, hlength]
        rfl
      exact ⟨_, _, scan_of_word? hcomment hliteral hword, rfl⟩
    | none =>
      have hword : word? c t =
          some (.token (.identifier (String.ofList (c :: t.take (hyphenatedLength isWordChar t))))
            (hyphenatedLength isWordChar t)) := by
        rw [word?, hat, version?, if_neg (by simp [hdigit]), if_pos hmark, hlength, identifier?,
          if_pos (.inl hletter)]
        rfl
      exact ⟨_, _, scan_of_word? hcomment hliteral hword, rfl⟩

end Front

end EventCatalog
