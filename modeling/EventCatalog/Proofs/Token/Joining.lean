import EventCatalog.Proofs.Token.Spelling

/-! # Texts joined at a line break

A line break ends every token but a string literal, which is an offence then, and a block comment.
So a text without offences that leaves no comment open is cut into the same pieces when a line
break and any other text come behind it (`Piece.ofText_append_break`).  One part of the scan after
another is shown not to look behind the break. -/

namespace EventCatalog

open Text

/-! ### String literals -/

namespace Escape

variable {t : Text} {c : Char} {n : Nat}

/-- The digits that are read behind an opening brace. -/
theorem exists_run (t : Text) :
    ∃ digits rest, (t.take 6).takeWhile isHexDigit = digits ∧ t = digits ++ rest ∧
      digits.length ≤ 6 ∧ ∀ d ∈ digits, isHexDigit d = true := by
  have hprefix : (t.take 6).takeWhile isHexDigit <+: t :=
    (List.takeWhile_prefix _).trans (List.take_prefix 6 t)
  obtain ⟨rest, hrest⟩ := hprefix
  exact ⟨_, rest, rfl, hrest.symm,
    Nat.le_trans (List.takeWhile_prefix _).length_le (List.length_take_le 6 t),
    fun d hd => List.mem_takeWhile_imp hd⟩

/-- The closing brace ends the digits. -/
theorem run_digits {digits : Text} (hlength : digits.length ≤ 6)
    (hdigits : ∀ d ∈ digits, isHexDigit d = true) (rest : Text) :
    ((digits ++ '}' :: rest).take 6).takeWhile isHexDigit = digits := by
  rw [List.take_append, List.take_of_length_le hlength]
  refine (Front.takeWhile_append ?_ digits).trans (List.takeWhile_eq_self_iff.mpr hdigits)
  cases 6 - digits.length <;> rfl

/-- What a Unicode escape that is in order looks like. -/
theorem exists_of_scanUnicode (h : scanUnicode t = .char c n) :
    ∃ digits rest, t = '{' :: (digits ++ '}' :: rest) ∧ n = 3 + digits.length ∧ digits ≠ [] ∧
      digits.length ≤ 6 ∧ (∀ d ∈ digits, isHexDigit d = true) ∧
      scalar? digits = some c := by
  unfold scanUnicode at h
  split at h
  · rename_i t
    obtain ⟨digits, rest, hrun, rfl, hlength, hdigits⟩ := exists_run t
    simp only [hrun, List.drop_left] at h
    split at h
    · cases h
    rename_i hne
    split at h
    · cases h
    rename_i hclose
    split at h
    · rename_i value hvalue
      cases h
      obtain ⟨rest, rfl⟩ := List.head?_eq_some_iff.mp (Decidable.not_not.mp hclose)
      refine ⟨digits, rest, rfl, rfl, ?_, hlength, hdigits, hvalue⟩
      rintro rfl
      exact hne rfl
    · cases h
  · cases h

/-- Such an escape is in order whatever comes behind its closing brace. -/
theorem scanUnicode_digits {digits : Text} (hne : digits ≠ []) (hlength : digits.length ≤ 6)
    (hdigits : ∀ d ∈ digits, isHexDigit d = true) (hscalar : scalar? digits = some c)
    (rest : Text) : scanUnicode ('{' :: (digits ++ '}' :: rest)) = .char c (3 + digits.length) := by
  have hempty : digits.isEmpty = false := List.isEmpty_eq_false_iff.mpr hne
  rw [scanUnicode]
  simp only [run_digits hlength hdigits, hempty, List.drop_left, List.head?_cons, hscalar]
  rfl

theorem scanUnicode_append (h : scanUnicode t = .char c n) (u : Text) :
    n ≤ t.length + 1 ∧ scanUnicode (t ++ u) = .char c n := by
  obtain ⟨digits, rest, rfl, rfl, hne, hlength, hdigits, hscalar⟩ := exists_of_scanUnicode h
  refine ⟨by simp; omega, ?_⟩
  rw [List.cons_append, List.append_assoc, List.cons_append]
  exact scanUnicode_digits hne hlength hdigits hscalar (rest ++ u)

theorem scan_append (h : scan t = .char c n) (u : Text) :
    n ≤ t.length ∧ scan (t ++ u) = .char c n := by
  cases t with
  | nil => cases h
  | cons d t =>
    rw [List.cons_append]
    simp only [scan] at h ⊢
    split
    · rename_i hd
      rw [if_pos hd] at h
      exact scanUnicode_append h u
    · rename_i hd
      rw [if_neg hd] at h
      split at h
      · cases h
        exact ⟨Nat.le_add_left _ _, rfl⟩
      · cases h

end Escape

namespace Literal

theorem eq_closed_of_after {a : Literal} {c : Char} {k n : Nat} {value : Text}
    (h : a.after c k = .closed value n) :
    ∃ rest m, a = .closed rest m ∧ value = c :: rest ∧ n = k + m := by
  cases a with
  | closed rest m =>
    cases h
    exact ⟨rest, m, rfl, rfl, rfl⟩
  | unterminated m => cases h
  | broken code before body => cases h

/-- A literal that is closed does not see what comes behind it. -/
theorem scan_append {t value : Text} {n : Nat} (h : scan t = .closed value n) (u : Text) :
    n ≤ t.length ∧ scan (t ++ u) = .closed value n := by
  fun_induction scan t generalizing value n with
  | case1 => cases h
  | case2 t =>
    cases h
    exact ⟨Nat.le_add_left _ _, by rw [List.cons_append, scan, if_pos rfl]⟩
  | case3 => cases h
  | case4 t d length hescape hquote hend ih =>
    obtain ⟨rest, m, hrest, rfl, rfl⟩ := eq_closed_of_after h
    obtain ⟨hlength, hescape'⟩ := Escape.scan_append hescape u
    obtain ⟨hm, hrest'⟩ := ih hrest
    rw [List.length_drop] at hm
    refine ⟨by rw [List.length_cons]; omega, ?_⟩
    rw [List.cons_append, scan, if_neg hquote, if_neg hend, if_pos rfl, hescape']
    simp only [List.drop_append_of_le_length hlength, hrest', after]
  | case5 => cases h
  | case6 c t hquote hend hback ih =>
    obtain ⟨rest, m, hrest, rfl, rfl⟩ := eq_closed_of_after h
    obtain ⟨hm, hrest'⟩ := ih hrest
    refine ⟨by rw [List.length_cons]; omega, ?_⟩
    rw [List.cons_append, scan, if_neg hquote, if_neg hend, if_neg hback, hrest', after]

end Literal

/-! ### Comments -/

namespace Front

variable {c : Char} {t : Text} {tok : Token} {n : Nat}

theorem commentLength?_append (h : commentLength? t = some n) (u : Text) :
    n + 2 ≤ t.length ∧ commentLength? (t ++ u) = some n := by
  induction t generalizing n with
  | nil => cases h
  | cons c t ih =>
    rw [commentLength?_cons] at h
    rw [List.cons_append, commentLength?_cons]
    split at h
    · rename_i hend
      cases h
      obtain ⟨t, rfl⟩ := List.head?_eq_some_iff.mp hend.2
      exact ⟨by simp, if_pos ⟨hend.1, rfl⟩⟩
    · rename_i hend
      obtain ⟨m, hm, rfl⟩ := Option.map_eq_some_iff.mp h
      obtain ⟨hle, hm'⟩ := ih hm
      refine ⟨by rw [List.length_cons]; omega, ?_⟩
      rw [if_neg, hm', Option.map_some]
      -- A text of two characters at least begins as it does with more behind it.
      cases t with
      | nil => simp at hle
      | cons d t => exact hend

end Front

namespace Piece

/-- Whether the piece is a block comment that nothing closes. -/
def isUnclosed : Piece → Bool
  | token (.blockComment _) t => (Front.commentLength? (t.drop 2)).isNone
  | _ => false

end Piece

namespace Front

variable {c : Char} {t : Text} {tok : Token} {n : Nat}

/-! ### The parts of the scan -/

theorem comment?_append_break (h : scan c t = .token tok n)
    (hclosed : (Piece.token tok (c :: t.take n)).isUnclosed = false) (v : Text) :
    comment? c (t ++ '\n' :: v) = comment? c t := by
  by_cases hslash : c = '/'
  case neg =>
    rw [comment?_eq_none fun hc => absurd hc hslash, comment?_eq_none fun hc => absurd hc hslash]
  subst hslash
  cases t with
  | nil => rfl
  | cons d t =>
    by_cases hline : d = '/'
    · subst hline
      have hrun := takeWhile_append (p := (· != '\n')) (u := '\n' :: v) rfl t
      rw [List.cons_append, comment?, comment?, hrun]
    by_cases hblock : d = '*'
    · subst hblock
      cases hlength : commentLength? t with
      | some length =>
        obtain ⟨hle, hlength'⟩ := commentLength?_append hlength ('\n' :: v)
        simp only [List.cons_append, comment?, hlength, hlength',
          List.take_append_of_le_length (Nat.le_of_add_right_le hle)]
      | none =>
        have hscan : scan '/' ('*' :: t) =
            .token (.blockComment (String.ofList t)) (1 + t.length) := by
          simp [scan, comment?, hlength]
        rw [hscan] at h
        cases h
        simp [Piece.isUnclosed, Nat.add_comm 1, hlength] at hclosed
    · have hnone : ∀ t, comment? '/' (d :: t) = none := fun t =>
        comment?_eq_none fun _ => by simp [hline, hblock]
      rw [List.cons_append, hnone, hnone]

theorem literal?_append_break (h : scan c t = .token tok n) (v : Text) :
    literal? c (t ++ v) = literal? c t := by
  unfold literal?
  split
  · rename_i hquote
    subst hquote
    have hcomment : comment? '"' t = none := comment?_eq_none fun hc => absurd hc (by decide)
    cases hscan : Literal.scan t with
    | closed value length => rw [(Literal.scan_append hscan v).2]
    | unterminated length =>
      rw [scan, hcomment, literal?, if_pos rfl, hscan] at h
      cases h
    | broken code before body =>
      rw [scan, hcomment, literal?, if_pos rfl, hscan] at h
      cases h
  · rfl

theorem punctuation?_append_break (c : Char) (t v : Text) :
    punctuation? c (t ++ '\n' :: v) = punctuation? c t := by
  cases t with
  | nil => simp [punctuation?]
  | cons d t => rfl

theorem blank?_append_break (c : Char) (t v : Text) :
    blank? c (t ++ '\n' :: v) = blank? c t := by
  have hrun := takeWhile_append (p := fun c => isBlank c && c != '\n') (u := '\n' :: v)
    (by simp) t
  rw [blank?, blank?, hrun]

/-- A token does not reach behind the text. -/
theorem length_le_of_scan (h : scan c t = .token tok n) : n ≤ t.length := by
  rcases scan_eq_token h with h | ⟨-, h | ⟨-, h | h | h⟩⟩
  · unfold comment? at h
    split at h
    · cases h
      have hle := (List.takeWhile_prefix (· != '\n') (l := ‹Text›)).length_le
      rw [List.length_cons]
      omega
    · split at h
      · rename_i length hlength
        cases h
        have hle := (commentLength?_append hlength []).1
        rw [List.length_cons]
        omega
      · cases h
        rw [List.length_cons]
        omega
    · cases h
  · unfold literal? at h
    split at h
    · split at h
      · rename_i value length hscan
        cases h
        exact (Literal.scan_append hscan []).1
      all_goals cases h
    · cases h
  · exact length_le_of_word? h
  · unfold punctuation? at h
    split at h
    · rename_i harrow
      cases h
      obtain ⟨t, rfl⟩ := List.head?_eq_some_iff.mp harrow.2
      simp
    · obtain ⟨mark, -, h⟩ := Option.map_eq_some_iff.mp h
      cases h
      exact Nat.zero_le _
  · unfold blank? at h
    split at h
    · cases h
      exact Nat.zero_le _
    split at h
    · cases h
      exact (List.takeWhile_prefix _).length_le
    · cases h

/-- What stands at the front of a text is the same with a line break and more behind the text. -/
theorem scan_append_break (h : scan c t = .token tok n)
    (hclosed : (Piece.token tok (c :: t.take n)).isUnclosed = false) (v : Text) :
    scan c (t ++ '\n' :: v) = .token tok n := by
  have hdelimits : Delimits ('\n' :: v) := rfl
  rw [← h, scan, scan, comment?_append_break h hclosed, literal?_append_break h,
    selector?_append hdelimits, version?_append hdelimits, identifier?_append hdelimits,
    punctuation?_append_break, blank?_append_break]

end Front

/-! ### Pieces -/

namespace Piece

/-- The pieces of a text without offences that leaves no comment open are those that it is cut into
in front of a line break and more. -/
theorem ofText_append_break {s : Text} (hclean : causes (ofText s) = [])
    (hclosed : (ofText s).any isUnclosed = false) (v : Text) :
    ofText (s ++ '\n' :: v) = ofText s ++ token .newline ['\n'] :: ofText v := by
  fun_induction ofText s with
  | case1 =>
    have hscan : Front.scan '\n' v = .token .newline 0 := rfl
    exact ofText_token hscan
  | case2 c t tok n hscan ih =>
    rw [List.any_cons, Bool.or_eq_false_iff] at hclosed
    have hle := Front.length_le_of_scan hscan
    rw [List.cons_append, ofText_token (Front.scan_append_break hscan hclosed.1 v),
      List.take_append_of_le_length hle, List.drop_append_of_le_length hle, ih hclean hclosed.2,
      List.cons_append]
  | case3 c t code lead body hscan ih => cases hclean

/-- Behind a line break the first lexeme starts a line. -/
theorem lexemes_append_break (start : Nat) (broken : Bool) (ps qs : List Piece) :
    lexemes start broken (ps ++ token .newline ['\n'] :: qs) =
      lexemes start broken ps ++ lexemes (start + (size (ps.flatMap text) + 1)) true qs := by
  induction ps generalizing start broken with
  | nil =>
    have hbroken : (broken || hasBreak ['\n']) = true := Bool.or_true broken
    simp only [List.nil_append, lexemes, Token.isTrivia, if_true, hbroken]
    rfl
  | cons p ps ih =>
    have hplace : start + size p.text + (size (ps.flatMap text) + 1) =
        start + (size ((p :: ps).flatMap text) + 1) := by
      rw [List.flatMap_cons, size_append]
      omega
    rw [← hplace, List.cons_append]
    cases p with
    | token tok t =>
      simp only [lexemes]
      split
      · exact ih _ _
      · rw [ih, List.cons_append]
        rfl
    | fault code lead body t => exact ih _ _

theorem diagnostics_append (start : Nat) (ps qs : List Piece) :
    diagnostics start (ps ++ qs) =
      diagnostics start ps ++ diagnostics (start + size (ps.flatMap text)) qs := by
  induction ps generalizing start with
  | nil => rfl
  | cons p ps ih =>
    rw [List.flatMap_cons, size_append, ← Nat.add_assoc, List.cons_append]
    cases p with
    | token tok t => exact ih _
    | fault code lead body t => rw [diagnostics, ih, diagnostics, List.cons_append]; rfl

end Piece

end EventCatalog
