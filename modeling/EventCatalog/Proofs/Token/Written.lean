import EventCatalog.Proofs.Token.Joining

/-! # How tokens are written

A token has a text to itself, and what it carries is read off this text: a name or a version is all
of it, a selector all behind the at sign, a comment what stands between its delimiters, and a
string literal what the characters and escapes between its quotes denote (`Literal.Denotes`).
`Front.written_of_scan` says so of every token that is cut off a text. -/

namespace EventCatalog

open Text

namespace Literal

/-! ### String literals -/

/-- A character of a string literal as it stands between the quotes. -/
inductive Item : Text → Char → Prop
  | plain (c : Char) (hquote : c ≠ '"') (hback : c ≠ '\\') (hfeed : c ≠ '\n') (hreturn : c ≠ '\r') :
      Item [c] c
  | simple {c value : Char} (h : Escape.simple? c = some value) : Item ['\\', c] value
  | unicode {digits : Text} {value : Char} (hne : digits ≠ []) (hlength : digits.length ≤ 6)
      (hdigits : ∀ c ∈ digits, Escape.isHexDigit c = true)
      (hvalue : Escape.scalar? digits = some value) :
      Item ('\\' :: 'u' :: '{' :: (digits ++ ['}'])) value

/-- What stands between the quotes denotes a text, item by item. -/
inductive Denotes : Text → Text → Prop
  | nil : Denotes [] []
  | cons {item body value : Text} {c : Char} (hitem : Item item c) (hbody : Denotes body value) :
      Denotes (item ++ body) (c :: value)

/-- An escape that is in order is an item with its backslash. -/
theorem item_of_scan {t : Text} {c : Char} {n : Nat} (h : Escape.scan t = .char c n) :
    Item ('\\' :: t.take n) c := by
  cases t with
  | nil => cases h
  | cons d t =>
    rw [Escape.scan] at h
    split at h
    · rename_i hd
      subst hd
      obtain ⟨digits, rest, rfl, rfl, hne, hlength, hdigits, hvalue⟩ :=
        Escape.exists_of_scanUnicode h
      have htake : ('u' :: '{' :: (digits ++ '}' :: rest)).take (3 + digits.length) =
          'u' :: '{' :: (digits ++ ['}']) := by
        have hsplit : 'u' :: '{' :: (digits ++ '}' :: rest) =
            ('u' :: '{' :: (digits ++ ['}'])) ++ rest := by simp
        rw [hsplit, List.take_left' (by simp; omega)]
      rw [htake]
      exact .unicode hne hlength hdigits hvalue
    · split at h
      · rename_i value hvalue
        cases h
        exact .simple hvalue
      · cases h

/-- A literal that is closed is read up to its quote. -/
theorem denotes_of_scan {t value : Text} {n : Nat} (h : scan t = .closed value n) :
    ∃ body, t.take n = body ++ ['"'] ∧ Denotes body value := by
  fun_induction scan t generalizing value n with
  | case1 => cases h
  | case2 t =>
    cases h
    exact ⟨[], rfl, .nil⟩
  | case3 => cases h
  | case4 t c length hescape hquote hend ih =>
    obtain ⟨rest, m, hrest, rfl, rfl⟩ := eq_closed_of_after h
    obtain ⟨body, hbody, hdenotes⟩ := ih hrest
    refine ⟨'\\' :: t.take length ++ body, ?_, .cons (item_of_scan hescape) hdenotes⟩
    rw [List.append_assoc, ← hbody, Nat.add_assoc, Nat.add_comm 1, List.take_succ_cons,
      List.cons_append, List.take_add]
  | case5 => cases h
  | case6 c t hquote hend hback ih =>
    obtain ⟨rest, m, hrest, rfl, rfl⟩ := eq_closed_of_after h
    obtain ⟨body, hbody, hdenotes⟩ := ih hrest
    have hplain : Item [c] c :=
      .plain c hquote hback (fun hc => hend (.inl hc)) fun hc => hend (.inr hc)
    refine ⟨[c] ++ body, ?_, .cons hplain hdenotes⟩
    rw [Nat.add_comm 1, List.take_succ_cons, hbody]
    rfl

end Literal

/-! ### Comments -/

namespace Front

variable {c : Char} {t : Text} {tok : Token} {n : Nat}

/-- A block comment that ends is followed by its end. -/
theorem eq_of_commentLength? (h : commentLength? t = some n) :
    ∃ rest, t = t.take n ++ '*' :: '/' :: rest := by
  induction t generalizing n with
  | nil => cases h
  | cons c t ih =>
    rw [commentLength?_cons] at h
    split at h
    · rename_i hend
      cases h
      obtain ⟨rest, hrest⟩ := List.head?_eq_some_iff.mp hend.2
      exact ⟨rest, by rw [hend.1, hrest, List.take_zero, List.nil_append]⟩
    · obtain ⟨m, hm, rfl⟩ := Option.map_eq_some_iff.mp h
      obtain ⟨rest, hrest⟩ := ih hm
      exact ⟨rest, by rw [List.take_succ_cons, List.cons_append, ← hrest]⟩

/-- A block comment that does not end has no end in it. -/
theorem not_infix_of_commentLength? (h : commentLength? t = none) : ¬['*', '/'] <:+: t := by
  induction t with
  | nil => exact fun hin => absurd (List.infix_nil.mp hin) (List.cons_ne_nil _ _)
  | cons c t ih =>
    rw [commentLength?_cons] at h
    split at h
    · cases h
    · rename_i hend
      intro hin
      rcases List.infix_cons_iff.mp hin with ⟨rest, hrest⟩ | hin
      · cases hrest
        exact hend ⟨rfl, rfl⟩
      · exact ih (Option.map_eq_none_iff.mp h) hin

end Front

/-! ### Tokens -/

/-- How a token stands in a text, with what comes behind it there: only a comment that takes up the
rest of the text may lack its closing mark. -/
def Token.Written (tok : Token) (s behind : Text) : Prop :=
  match tok with
  | .identifier text | .version text => s = text.toList
  | .versionSelector text => s = '@' :: text.toList
  | .stringLiteral value =>
    ∃ body, s = '"' :: (body ++ ['"']) ∧ Literal.Denotes body value.toList
  | .lineComment text => s = '/' :: '/' :: text.toList
  | .blockComment text =>
    s = '/' :: '*' :: (text.toList ++ ['*', '/']) ∨
      s = '/' :: '*' :: text.toList ∧ ¬['*', '/'] <:+: text.toList ∧ behind = []
  | .whitespace => s ≠ [] ∧ ∀ c ∈ s, isBlank c = true ∧ c ≠ '\n'
  | tok => s = tok.spell

namespace Front

variable {c : Char} {t : Text} {tok : Token} {n : Nat}

theorem take_length_takeWhile (p : Char → Bool) (t : Text) :
    t.take (t.takeWhile p).length = t.takeWhile p :=
  (List.prefix_iff_eq_take.mp (List.takeWhile_prefix p)).symm

theorem mem_take_hyphenatedLength {p : Char → Bool} {d : Char}
    (h : d ∈ t.take (hyphenatedLength p t)) : p d = true ∨ d = '-' := by
  induction t with
  | nil => simp [hyphenatedLength] at h
  | cons e t ih =>
    rw [hyphenatedLength] at h
    split at h
    · rename_i he
      rw [List.take_succ_cons] at h
      rcases List.mem_cons.mp h with rfl | h
      · simp only [Bool.or_eq_true, Bool.and_eq_true, beq_iff_eq] at he
        exact he.imp_right And.left
      · exact ih h
    · simp at h

/-- What words are written with: an at sign in front, and characters of words and selectors. -/
theorem mem_of_word? (h : word? c t = some (.token tok n)) {d : Char} (hd : d ∈ c :: t.take n) :
    d = '@' ∨ isWordChar d = true ∨ isSelectorChar d = true := by
  unfold word? at h
  rw [List.mem_cons] at hd
  rcases (Option.orElse_eq_some ..).mp h with h | ⟨-, h⟩
  · simp only [selector?] at h
    split at h
    · rename_i hselector
      cases h
      rw [take_length_takeWhile] at hd
      exact hd.imp (fun h => h.trans hselector.1) fun h => .inr (List.mem_takeWhile_imp h)
    · cases h
  right
  rcases (Option.orElse_eq_some ..).mp h with h | ⟨-, h⟩
  · simp only [version?] at h
    split at h
    · rename_i hdigit
      cases h
      right
      rcases hd with rfl | hd
      · exact isSelectorChar_of_isDigit hdigit
      · rcases mem_take_hyphenatedLength hd with hd | rfl
        · exact isSelectorChar_of_isVersionChar hd
        · decide
    · split at h
      · rename_i hmark
        obtain ⟨length, hlength, hn⟩ := Option.map_eq_some_iff.mp h
        cases hn
        rcases hd with rfl | hd
        · left
          rcases hmark with rfl | rfl <;> decide
        · right
          simp only [markedVersionLength?] at hlength
          split at hlength
          · cases hlength
            rw [take_length_takeWhile] at hd
            have hpart := List.mem_takeWhile_imp hd
            rw [Bool.or_eq_true, beq_iff_eq] at hpart
            rcases hpart with hd | rfl
            · exact isSelectorChar_of_isDigit hd
            · decide
          · cases hlength
      · cases h
  · simp only [identifier?] at h
    split at h
    · rename_i hletter
      cases h
      rcases hd with rfl | hd
      · left
        rcases hletter with hletter | rfl
        · simp [isWordChar, isAlphanumeric, hletter]
        · decide
      · rcases mem_take_hyphenatedLength hd with hd | rfl
        · exact .inl hd
        · exact .inr (by decide)
    · cases h

theorem written_of_comment? (h : comment? c t = some (.token tok n)) :
    tok.Written (c :: t.take n) (t.drop n) := by
  unfold comment? at h
  split at h
  · rename_i t
    cases h
    rw [Nat.add_comm 1, List.take_succ_cons, take_length_takeWhile]
    show _ = _
    rw [String.toList_ofList]
  · rename_i t
    split at h
    · rename_i length hlength
      cases h
      obtain ⟨rest, hrest⟩ := eq_of_commentLength? hlength
      refine .inl ?_
      have htake : t.take (length + 2) = t.take length ++ ['*', '/'] := by
        have hdrop : t.drop length = '*' :: '/' :: rest :=
          List.append_cancel_left ((List.take_append_drop length t).trans hrest)
        rw [List.take_add, hdrop]
        rfl
      have hsucc : 3 + length = length + 2 + 1 := by omega
      rw [hsucc, List.take_succ_cons, htake, String.toList_ofList]
    · rename_i hlength
      cases h
      refine .inr ⟨?_, ?_, ?_⟩
      · rw [Nat.add_comm 1, List.take_succ_cons, List.take_length, String.toList_ofList]
      · rw [String.toList_ofList]
        exact not_infix_of_commentLength? hlength
      · rw [Nat.add_comm 1, List.drop_succ_cons, List.drop_length]
  · cases h

theorem written_of_literal? (h : literal? c t = some (.token tok n)) :
    tok.Written (c :: t.take n) (t.drop n) := by
  unfold literal? at h
  split at h
  · rename_i hquote
    subst hquote
    split at h
    · rename_i value length hscan
      cases h
      obtain ⟨body, hbody, hdenotes⟩ := Literal.denotes_of_scan hscan
      refine ⟨body, by rw [hbody], ?_⟩
      rw [String.toList_ofList]
      exact hdenotes
    · cases h
    · cases h
  · cases h

theorem written_of_word? (h : word? c t = some (.token tok n)) :
    tok.Written (c :: t.take n) (t.drop n) := by
  unfold word? at h
  rcases (Option.orElse_eq_some ..).mp h with h | ⟨-, h⟩
  · simp only [selector?] at h
    split at h
    · rename_i hselector
      cases h
      rw [take_length_takeWhile, hselector.1]
      show _ = _
      rw [String.toList_ofList]
    · cases h
  rcases (Option.orElse_eq_some ..).mp h with h | ⟨-, h⟩
  · simp only [version?] at h
    split at h
    · cases h
      exact String.toList_ofList.symm
    · split at h
      · obtain ⟨length, -, hlength⟩ := Option.map_eq_some_iff.mp h
        cases hlength
        exact String.toList_ofList.symm
      · cases h
  · simp only [identifier?] at h
    split at h
    · cases h
      exact String.toList_ofList.symm
    · cases h

theorem written_of_punctuation? (h : punctuation? c t = some (.token tok n)) :
    tok.Written (c :: t.take n) (t.drop n) := by
  unfold punctuation? at h
  split at h
  · rename_i harrow
    cases h
    obtain ⟨rest, rfl⟩ := List.head?_eq_some_iff.mp harrow.2
    rw [harrow.1]
    rfl
  · obtain ⟨mark, hmark, hn⟩ := Option.map_eq_some_iff.mp h
    cases hn
    unfold mark? at hmark
    split at hmark <;> cases hmark <;> rfl

theorem written_of_blank? (h : blank? c t = some (.token tok n)) :
    tok.Written (c :: t.take n) (t.drop n) := by
  unfold blank? at h
  split at h
  · rename_i hfeed
    cases h
    rw [hfeed]
    rfl
  · rename_i hfeed
    split at h
    · rename_i hblank
      cases h
      refine ⟨List.cons_ne_nil _ _, ?_⟩
      rw [take_length_takeWhile]
      intro d hd
      rcases List.mem_cons.mp hd with rfl | hd
      · exact ⟨hblank, hfeed⟩
      · simpa using List.mem_takeWhile_imp hd
    · cases h

/-- A token that is cut off a text is written there. -/
theorem written_of_scan (h : scan c t = .token tok n) :
    tok.Written (c :: t.take n) (t.drop n) := by
  rcases scan_eq_token h with h | ⟨-, h | ⟨-, h | h | h⟩⟩
  · exact written_of_comment? h
  · exact written_of_literal? h
  · exact written_of_word? h
  · exact written_of_punctuation? h
  · exact written_of_blank? h

end Front

end EventCatalog
