import EventCatalog.Proofs.Text.Reflow
import EventCatalog.Token.Piece

/-! # Lexing up to reflow

A text and a reflow of it are cut into the same lexemes and have the same offences.  No token but
a comment reaches into a gap, an offence that is met in a gap ends there, and a gap breaks the
line wherever it is cut.

* `Front.scan_reflow`: what stands at the front agrees, and lexing resumes alike behind it.
* `Piece.outline_eq_of_resumes`: hence the lexemes with their line starts, and the causes of
  offences, are the same. -/

namespace EventCatalog

open Text

/-! ### String literals -/

namespace Escape

/-- The number of characters that are read behind the backslash. -/
def length : Escape → Nat
  | char _ n => n
  | fault _ n => n

theorem isVisible_of_isHexDigit {c : Char} (h : isHexDigit c = true) : Text.IsVisible c := by
  simp only [isHexDigit, Bool.or_eq_true, Bool.and_eq_true, decide_eq_true_eq] at h
  rcases h with (h | ⟨h₁, h₂⟩) | ⟨h₁, h₂⟩
  · exact isVisible_of_isDigit h
  · refine isVisible_of_isLetter ?_
    have : c ≤ 'z' := Nat.le_trans h₂ (by decide)
    simp [isLetter, h₁, this]
  · refine isVisible_of_isLetter ?_
    have : c ≤ 'Z' := Nat.le_trans h₂ (by decide)
    simp [isLetter, h₁, this]

theorem scanUnicode_of_head? {t : Text} (h : t.head? ≠ some '{') :
    scanUnicode t = .fault .invalidUnicodeEscape 1 := by
  unfold scanUnicode
  split
  · simp at h
  · rfl

theorem scanUnicode_reflow {t u : Text} (h : Reflow t u) :
    scanUnicode u = scanUnicode t ∧ AgreeTo (scanUnicode t).length ('u' :: t) ('u' :: u) := by
  have hbrace : isBlank '{' = false := by decide
  by_cases ht : t.head? = some '{'
  · obtain ⟨t', rfl⟩ : ∃ t', t = '{' :: t' := by
      cases t with
      | nil => cases ht
      | cons c t => exact ⟨t, by simpa using ht⟩
    obtain ⟨u', rfl, h'⟩ := h.cons_inv hbrace
    obtain ⟨hrun, hdrop⟩ := h'.takeWhile (eq_false_of_blank fun _ => isVisible_of_isHexDigit)
    have hdigits : (u'.take 6).takeWhile isHexDigit = (t'.take 6).takeWhile isHexDigit := by
      rw [← List.take_takeWhile, ← List.take_takeWhile, hrun]
    have hlen : ((t'.take 6).takeWhile isHexDigit).length ≤ (t'.takeWhile isHexDigit).length := by
      rw [← List.take_takeWhile]
      exact List.length_take_le' _ _
    have hagree := hdrop _ hlen
    have hclose : ((u'.drop ((t'.take 6).takeWhile isHexDigit).length).head? ≠ some '}') =
        ((t'.drop ((t'.take 6).takeWhile isHexDigit).length).head? ≠ some '}') := by
      rw [ne_eq, ne_eq, hagree.2.head?_eq_some_iff (c := '}') (by decide)]
    simp only [scanUnicode, hdigits, hclose]
    refine ⟨trivial, ?_⟩
    split
    · exact ((AgreeTo.zero h').succ _).succ _
    · split
      · rw [length, Nat.add_comm]
        exact (hagree.succ _).succ _
      · rename_i hbr
        split
        · have hone := hagree.2.agreeTo_one (c := '}') (by decide) (by simpa using hbr)
          rw [length, Nat.add_comm]
          exact ((hagree.add hone).succ '{').succ 'u'
        · exact (AgreeTo.zero h).succ _
  · have hu : u.head? ≠ some '{' := fun e => ht ((h.head?_eq_some_iff hbrace).mpr e)
    rw [scanUnicode_of_head? ht, scanUnicode_of_head? hu]
    exact ⟨rfl, (AgreeTo.zero h).succ _⟩

theorem isVisible_of_simple? {c value : Char} (h : simple? c = some value) : Text.IsVisible c := by
  unfold simple? at h
  split at h <;> first | (unfold Text.IsVisible; decide) | cases h

theorem scan_of_startsBlank {t : Text} (h : StartsBlank t) : scan t = .fault .invalidEscape 0 := by
  cases t with
  | nil => rfl
  | cons c t =>
    have hc := h c rfl
    have hu : c ≠ 'u' := by rintro rfl; exact absurd hc (by decide)
    have hs : simple? c = none := by
      cases e : simple? c with
      | none => rfl
      | some value => simp [(isVisible_of_simple? e).not_blank] at hc
    simp [scan, hu, hs]

theorem scan_reflow {t u : Text} (h : Reflow t u) :
    scan u = scan t ∧ AgreeTo (scan t).length t u := by
  obtain ⟨c, t', u', rfl, rfl, h'⟩ | ⟨ht, hu⟩ := h.cases_head
  · by_cases hc : c = 'u'
    · subst hc
      exact scanUnicode_reflow h'
    · simp only [scan, hc, if_false]
      refine ⟨trivial, ?_⟩
      cases simple? c with
      | some value => exact (AgreeTo.zero h').succ c
      | none => exact .zero h
  · rw [scan_of_startsBlank ht, scan_of_startsBlank hu]
    exact ⟨rfl, .zero h⟩

end Escape

namespace Literal

/-- Two literals end alike: with one value at one place, at line ends that meet, or with one
offence at one place. -/
inductive EndsAlike (t u : Text) : Literal → Literal → Prop
  | closed (value : Text) {n : Nat} :
      AgreeTo n t u → EndsAlike t u (closed value n) (closed value n)
  | unterminated {n m : Nat} : Meets n m t u → EndsAlike t u (unterminated n) (unterminated m)
  | broken (code : Diagnostic.Code) (before body : Nat) : AgreeTo (before + body) t u →
      EndsAlike t u (broken code before body) (broken code before body)

/-- What the texts agree on may be read first. -/
theorem EndsAlike.after {n : Nat} {t u : Text} {a b : Literal} (c : Char) (hn : AgreeTo n t u)
    (h : EndsAlike (t.drop n) (u.drop n) a b) : EndsAlike t u (a.after c n) (b.after c n) := by
  cases h with
  | closed value h => exact .closed _ (hn.add h)
  | unterminated h =>
    refine .unterminated ⟨?_, ?_⟩
    · rw [List.take_add, List.take_add, hasBreak_append, hasBreak_append, hn.1, h.1]
    · simpa [List.drop_drop] using h.2
  | broken code before body h =>
    refine .broken _ _ _ ?_
    rw [Nat.add_assoc]
    exact hn.add h

theorem scan_ordinary {c : Char} (h : c ≠ '"') (hf : c ≠ '\n') (hr : c ≠ '\r') (hb : c ≠ '\\')
    (t : Text) : scan (c :: t) = (scan t).after c 1 := by
  rw [scan]
  simp [h, hf, hr, hb]

theorem scan_lineEnd {c : Char} (h : c = '\n' ∨ c = '\r') (t : Text) :
    scan (c :: t) = .unterminated 0 := by
  rw [scan, if_neg (by rcases h with rfl | rfl <;> decide), if_pos h]

theorem ne_quote_of_blank {c : Char} (h : isBlank c = true) : c ≠ '"' ∧ c ≠ '\\' := by
  constructor <;> rintro rfl <;> revert h <;> decide

/-- A literal that reaches a gap ends in it, before its first line feed. -/
theorem scan_gap {s : Text} (h : Gap s) (v : Text) :
    ∃ n, scan (s ++ v) = .unterminated n ∧ n ≤ s.length ∧ hasBreak (s.take n) = false ∧
      Gap (s.drop n) := by
  induction s with
  | nil => exact absurd h.2 (by simp)
  | cons c s ih =>
    by_cases hend : c = '\n' ∨ c = '\r'
    · exact ⟨0, scan_lineEnd hend _, Nat.zero_le _, rfl, h⟩
    · obtain ⟨hc, hs⟩ := allBlank_cons.mp h.1
      obtain ⟨hq, hb⟩ := ne_quote_of_blank hc
      obtain ⟨hf, hr⟩ := not_or.mp hend
      have hs' : Gap s := ⟨hs, by simpa [hf] using h.2⟩
      obtain ⟨n, e, hn, hbreak, hgap⟩ := ih hs'
      refine ⟨1 + n, ?_, by simp; omega, ?_, ?_⟩
      · rw [List.cons_append, scan_ordinary hq hf hr hb, e, after]
      · simpa [Nat.add_comm 1 n, hf] using hbreak
      · simpa [Nat.add_comm 1 n] using hgap

/-- A literal that reaches the blanks at the end of the text is not closed. -/
theorem scan_allBlank {s : Text} (h : AllBlank s) :
    ∃ n, scan s = .unterminated n ∧ hasBreak (s.take n) = false := by
  induction s with
  | nil => exact ⟨0, by rw [scan], rfl⟩
  | cons c s ih =>
    by_cases hend : c = '\n' ∨ c = '\r'
    · exact ⟨0, scan_lineEnd hend _, rfl⟩
    · obtain ⟨hc, hs⟩ := allBlank_cons.mp h
      obtain ⟨hq, hb⟩ := ne_quote_of_blank hc
      obtain ⟨hf, hr⟩ := not_or.mp hend
      obtain ⟨n, e, hbreak⟩ := ih hs
      refine ⟨1 + n, ?_, ?_⟩
      · rw [scan_ordinary hq hf hr hb, e, after]
      · simpa [Nat.add_comm 1 n, hf] using hbreak

theorem scan_reflow {t u : Text} (h : Reflow t u) : EndsAlike t u (scan t) (scan u) := by
  -- by length, since an escape is read in one step
  induction hlen : t.length using Nat.strongRecOn generalizing t u with
  | ind k ih =>
    cases h with
    | @done s t hs ht =>
      obtain ⟨n, en, hn⟩ := scan_allBlank hs
      obtain ⟨m, em, hm⟩ := scan_allBlank ht
      rw [en, em]
      refine .unterminated ⟨hn.trans hm.symm, .done ?_ ?_⟩
      · exact fun c hc => hs c (List.mem_of_mem_drop hc)
      · exact fun c hc => ht c (List.mem_of_mem_drop hc)
    | @gap s t u v hs ht h =>
      obtain ⟨n, en, hn, hnb, hng⟩ := scan_gap hs u
      obtain ⟨m, em, hm, hmb, hmg⟩ := scan_gap ht v
      rw [en, em]
      refine .unterminated ⟨?_, ?_⟩
      · rw [List.take_append_of_le_length hn, List.take_append_of_le_length hm, hnb, hmb]
      · rw [List.drop_append_of_le_length hn, List.drop_append_of_le_length hm]
        exact .gap hng hmg h
    | @char c u v h =>
      have hone := (AgreeTo.zero h).succ c
      by_cases hq : c = '"'
      · subst hq
        rw [scan, scan, if_pos rfl, if_pos rfl]
        exact .closed _ hone
      by_cases hend : c = '\n' ∨ c = '\r'
      · rw [scan_lineEnd hend, scan_lineEnd hend]
        exact .unterminated ⟨rfl, .char c h⟩
      by_cases hb : c = '\\'
      · subst hb
        obtain ⟨e, hagree⟩ := Escape.scan_reflow h
        rw [scan, scan, if_neg hq, if_neg hend, if_pos rfl, if_neg hq, if_neg hend, if_pos rfl, e]
        cases hesc : Escape.scan u with
        | char value n =>
          rw [hesc, Escape.length] at hagree
          have hsucc := hagree.succ '\\'
          rw [Nat.add_comm] at hsucc
          refine EndsAlike.after value hsucc ?_
          simp only [Nat.add_comm 1 n, List.drop_succ_cons]
          exact ih (u.drop n).length (by simp at hlen ⊢; omega) hagree.2 rfl
        | fault code n =>
          rw [hesc, Escape.length] at hagree
          refine .broken code 0 (1 + n) ?_
          rw [Nat.zero_add, Nat.add_comm]
          exact hagree.succ _
      · obtain ⟨hf, hr⟩ := not_or.mp hend
        rw [scan_ordinary hq hf hr hb, scan_ordinary hq hf hr hb]
        exact EndsAlike.after c hone (ih u.length (by simp at hlen; omega) h rfl)

end Literal

/-! ### Comments and words -/

namespace Front

theorem commentLength?_cons (c : Char) (t : Text) :
    commentLength? (c :: t) =
      if c = '*' ∧ t.head? = some '/' then some 0 else (commentLength? t).map (· + 1) := by
  split
  · rename_i h
    obtain ⟨rfl, ht⟩ := h
    cases t with
    | nil => cases ht
    | cons d t =>
      obtain rfl : d = '/' := by simpa using ht
      rfl
  · rename_i h
    refine commentLength?.eq_2 c t fun tail hc ht => h ⟨hc, ?_⟩
    rw [ht]
    rfl

theorem commentLength?_blank {s : Text} (h : AllBlank s) (v : Text) :
    commentLength? (s ++ v) = (commentLength? v).map (s.length + ·) := by
  induction s with
  | nil => simp
  | cons c s ih =>
    obtain ⟨hc, hs⟩ := allBlank_cons.mp h
    have hstar : c ≠ '*' := by rintro rfl; revert hc; decide
    rw [List.cons_append, commentLength?_cons, if_neg (by simp [hstar]), ih hs, Option.map_map]
    congr 1
    funext n
    simp only [Function.comp_apply, List.length_cons]
    omega

/-- Both comments end, at places that meet, or none does. -/
theorem commentLength?_reflow {t u : Text} (h : Reflow t u) :
    Option.Rel (fun n m => Meets (n + 2) (m + 2) t u) (commentLength? t) (commentLength? u) := by
  induction h with
  | @done s t hs ht =>
    have e : ∀ {s : Text}, AllBlank s → commentLength? s = none := by
      intro s hs
      have := commentLength?_blank hs []
      rwa [List.append_nil] at this
    rw [e hs, e ht]
    exact .none
  | @gap s t u v hs ht h ih =>
    rw [commentLength?_blank hs.1, commentLength?_blank ht.1]
    generalize commentLength? u = a, commentLength? v = b at ih ⊢
    cases ih with
    | none => exact .none
    | @some n m hmeets =>
      refine .some ⟨?_, ?_⟩
      · simp only [Nat.add_assoc, List.take_length_add_append, hasBreak_append, hs.2, ht.2,
          Bool.true_or]
      · simpa only [Nat.add_assoc, List.drop_length_add_append] using hmeets.2
  | @char c u v h ih =>
    rw [commentLength?_cons, commentLength?_cons]
    simp only [h.head?_eq_some_iff (c := '/') (by decide)]
    split
    · rename_i hend
      obtain ⟨-, hv⟩ := hend
      have hu := (h.head?_eq_some_iff (c := '/') (by decide)).mpr hv
      exact .some ((h.agreeTo_one (by decide) hu).succ c).meets
    · generalize commentLength? u = a, commentLength? v = b at ih ⊢
      cases ih with
      | none => exact .none
      | @some n m hmeets =>
        refine .some ⟨?_, hmeets.2⟩
        have := hmeets.1
        simp only [Nat.add_right_comm _ 1 2, List.take_succ_cons, hasBreak_cons, this]

theorem isVisible_of_isWordChar {c : Char} (h : isWordChar c = true) : Text.IsVisible c := by
  simp only [isWordChar, Bool.or_eq_true, beq_iff_eq] at h
  rcases h with h | rfl
  · exact isVisible_of_isAlphanumeric h
  · unfold Text.IsVisible
    decide

theorem isVisible_of_isVersionChar {c : Char} (h : isVersionChar c = true) : Text.IsVisible c := by
  simp only [isVersionChar, Bool.or_eq_true, beq_iff_eq] at h
  rcases h with (h | rfl) | rfl
  · exact isVisible_of_isAlphanumeric h
  all_goals
    unfold Text.IsVisible
    decide

theorem isVisible_of_isSelectorChar {c : Char} (h : isSelectorChar c = true) :
    Text.IsVisible c := by
  simp only [isSelectorChar, Bool.or_eq_true, List.contains_iff_mem] at h
  rcases h with h | h
  · exact isVisible_of_isAlphanumeric h
  · have all : ∀ d ∈ ['.', '+', '-', '^', '~', '<', '>', '=', '*'], Text.IsVisible d := by
      simp [Text.IsVisible]
    exact all c h

theorem hyphenatedLength_reflow {t u : Text} (h : Reflow t u) {isPart : Char → Bool}
    (hp : ∀ c, isPart c = true → Text.IsVisible c) :
    hyphenatedLength isPart u = hyphenatedLength isPart t ∧
      AgreeTo (hyphenatedLength isPart t) t u := by
  have stuck : ∀ s : Text, StartsBlank s → hyphenatedLength isPart s = 0 := by
    intro s hs
    cases s with
    | nil => rfl
    | cons c s =>
      have hc := hs c rfl
      have hhyphen : c ≠ '-' := by rintro rfl; revert hc; decide
      simp [hyphenatedLength, eq_false_of_blank hp c hc, hhyphen]
  induction t generalizing u with
  | nil =>
    obtain ⟨c, t', u', ht, -, -⟩ | ⟨-, hu⟩ := h.cases_head
    · cases ht
    · rw [stuck u hu]
      exact ⟨rfl, .zero h⟩
  | cons c t ih =>
    obtain ⟨d, t', u', ht, rfl, h'⟩ | ⟨hs, hu⟩ := h.cases_head
    · cases ht
      obtain ⟨e, hagree⟩ := ih h'
      have hnext := h'.any_head? (eq_false_of_blank fun _ => isVisible_of_isAlphanumeric)
      simp only [hyphenatedLength, hnext, e]
      split
      · exact ⟨trivial, hagree.succ c⟩
      · exact ⟨trivial, .zero h⟩
    · rw [stuck _ hs, stuck _ hu]
      exact ⟨rfl, .zero h⟩

theorem markedVersionLength?_reflow {t u : Text} (h : Reflow t u) :
    markedVersionLength? u = markedVersionLength? t ∧
      ∀ n ∈ markedVersionLength? t, AgreeTo n t u := by
  have hpart : ∀ c, (isDigit c || c == '.') = true → Text.IsVisible c := fun c hc => by
    refine isVisible_of_isVersionChar ?_
    simp only [Bool.or_eq_true] at hc
    simp only [isVersionChar, isAlphanumeric, Bool.or_eq_true]
    exact hc.elim (fun hc => .inl (.inl (.inr hc))) (fun hc => .inl (.inr hc))
  have hword : ∀ c, (isWordChar c || c == '-') = true → Text.IsVisible c := fun c hc => by
    simp only [Bool.or_eq_true, beq_iff_eq] at hc
    rcases hc with hc | rfl
    · exact isVisible_of_isWordChar hc
    · unfold Text.IsVisible
      decide
  obtain ⟨hrun, hdrop⟩ := h.takeWhile (eq_false_of_blank hpart)
  have hagree := hdrop _ (Nat.le_refl _)
  have hdigit := h.any_head? (eq_false_of_blank fun _ => isVisible_of_isDigit)
  have hnext := hagree.2.any_head? (eq_false_of_blank hword)
  simp only [markedVersionLength?, ← hrun, ← hdigit, ← hnext]
  refine ⟨trivial, fun n hn => ?_⟩
  split at hn
  · obtain rfl : _ = n := by simpa using hn
    exact hagree
  · cases hn

/-! ### The front of a text -/

/-- Whatever was seen before, lexing resumes alike behind `n` and `m` characters. -/
def Continues (n m : Nat) (t u : Text) : Prop :=
  ∀ b, Resumes (b || hasBreak (t.take n)) (b || hasBreak (u.take m)) (t.drop n) (u.drop m)

/-- What stands at the front of two texts agrees: it is the same token, or a token without meaning
on both sides, or an offence with the same cause. -/
inductive Agree (t u : Text) : Front → Front → Prop
  | word {tok : Token} {n : Nat} : tok.isTrivia = false → AgreeTo n t u →
      Agree t u (.token tok n) (.token tok n)
  | trivia {tok tok' : Token} {n m : Nat} : tok.isTrivia = true → tok'.isTrivia = true →
      Continues n m t u → Agree t u (.token tok n) (.token tok' m)
  | fault (code : Diagnostic.Code) {l b l' b' : Nat} : Continues (l + b) (l' + b') t u →
      Agree t u (.fault code l b) (.fault code l' b')

theorem rel_orElse {α β : Type} {r : α → β → Prop} {a a' : Option α} {b b' : Option β}
    (h : Option.Rel r a b) (h' : Option.Rel r a' b') : Option.Rel r (a <|> a') (b <|> b') := by
  cases h with
  | some h => exact .some h
  | none => exact h'

theorem comment?_eq_none {c : Char} {t : Text}
    (h : c = '/' → t.head? ≠ some '/' ∧ t.head? ≠ some '*') : comment? c t = none := by
  unfold comment?
  split
  · exact absurd rfl (h rfl).1
  · exact absurd rfl (h rfl).2
  · rfl

theorem comment?_reflow {t u : Text} (h : Reflow t u) (c : Char) :
    Option.Rel (Agree t u) (comment? c t) (comment? c u) := by
  obtain ⟨d, t', u', rfl, rfl, h'⟩ | ⟨ht, hu⟩ := h.cases_head
  · by_cases hslash : c = '/' ∧ d = '/'
    · obtain ⟨rfl, rfl⟩ := hslash
      refine .some (.trivia rfl rfl fun b => ?_)
      have hline : Meets (t'.takeWhile (· != '\n')).length (u'.takeWhile (· != '\n')).length
          t' u' := h'.meets_lineEnd
      have := Meets.resumes (hline.succ '/') b
      simpa only [Nat.add_comm 1] using this
    · by_cases hstar : c = '/' ∧ d = '*'
      · obtain ⟨rfl, rfl⟩ := hstar
        have hend := commentLength?_reflow h'
        simp only [comment?]
        generalize commentLength? t' = a, commentLength? u' = b at hend ⊢
        cases hend with
        | @some n m hmeets =>
          refine .some (.trivia rfl rfl fun b => ?_)
          have := Meets.resumes (hmeets.succ '*') b
          simpa only [Nat.add_comm 3] using this
        | none =>
          refine .some (.trivia rfl rfl fun b => ?_)
          simp only [Nat.add_comm 1, List.drop_succ_cons, List.drop_length]
          exact resumes_nil _ _
      · have hne : c = '/' → d ≠ '/' ∧ d ≠ '*' := fun hc =>
          ⟨fun hd => hslash ⟨hc, hd⟩, fun hd => hstar ⟨hc, hd⟩⟩
        rw [comment?_eq_none (by simpa using hne), comment?_eq_none (by simpa using hne)]
        exact .none
  · have e : ∀ s : Text, StartsBlank s → comment? c s = none := fun s hs =>
      comment?_eq_none fun _ =>
        ⟨fun hc => absurd (hs _ hc) (by decide), fun hc => absurd (hs _ hc) (by decide)⟩
    rw [e t ht, e u hu]
    exact .none

theorem literal?_reflow {t u : Text} (h : Reflow t u) (c : Char) :
    Option.Rel (Agree t u) (literal? c t) (literal? c u) := by
  simp only [literal?]
  split
  · have hends := Literal.scan_reflow h
    generalize Literal.scan t = a, Literal.scan u = b at hends ⊢
    cases hends with
    | closed value h => exact .some (.word rfl h)
    | @unterminated n m h =>
      refine .some (.fault _ fun b => ?_)
      simpa only [Nat.zero_add, Nat.add_comm 1] using h.resumes_succ b
    | broken code before body h =>
      refine .some (.fault _ fun b => ?_)
      have e : 1 + before + body = before + body + 1 := by omega
      rw [e]
      exact h.meets.resumes_succ b
  · exact .none

theorem selector?_reflow {t u : Text} (h : Reflow t u) (c : Char) :
    Option.Rel (Agree t u) (selector? c t) (selector? c u) := by
  obtain ⟨hrun, hdrop⟩ := h.takeWhile (eq_false_of_blank fun _ => isVisible_of_isSelectorChar)
  simp only [selector?, ← hrun]
  split
  · exact .some (.word rfl (hdrop _ (Nat.le_refl _)))
  · exact .none

theorem version?_reflow {t u : Text} (h : Reflow t u) (c : Char) :
    Option.Rel (Agree t u) (version? c t) (version? c u) := by
  simp only [version?]
  split
  · obtain ⟨e, hagree⟩ := hyphenatedLength_reflow h fun _ => isVisible_of_isVersionChar
    rw [e, ← hagree.1]
    exact .some (.word rfl hagree)
  · split
    · obtain ⟨e, hagree⟩ := markedVersionLength?_reflow h
      rw [e]
      cases hn : markedVersionLength? t with
      | none => exact .none
      | some n =>
        have hagree := hagree n hn
        rw [Option.map_some, Option.map_some, hagree.1]
        exact .some (.word rfl hagree)
    · exact .none

theorem identifier?_reflow {t u : Text} (h : Reflow t u) (c : Char) :
    Option.Rel (Agree t u) (identifier? c t) (identifier? c u) := by
  simp only [identifier?]
  split
  · obtain ⟨e, hagree⟩ := hyphenatedLength_reflow h fun _ => isVisible_of_isWordChar
    rw [e, ← hagree.1]
    exact .some (.word rfl hagree)
  · exact .none

theorem isTrivia_of_mark? {c : Char} {tok : Token} (h : mark? c = some tok) :
    tok.isTrivia = false := by
  unfold mark? at h
  split at h <;> cases h <;> rfl

theorem punctuation?_reflow {t u : Text} (h : Reflow t u) (c : Char) :
    Option.Rel (Agree t u) (punctuation? c t) (punctuation? c u) := by
  have hnext := h.head?_eq_some_iff (c := '>') (by decide)
  simp only [punctuation?, ← hnext]
  split
  · rename_i harrow
    exact .some (.word rfl (h.agreeTo_one (by decide) harrow.2))
  · cases hm : mark? c with
    | none => exact .none
    | some tok => exact .some (.word (isTrivia_of_mark? hm) (.zero h))

theorem blank?_eq_none {c : Char} (h : isBlank c = false) (t : Text) : blank? c t = none := by
  have hfeed : c ≠ '\n' := by rintro rfl; revert h; decide
  simp [blank?, hfeed, h]

/-- What stands at the front of a text and of a reflow of it agrees. -/
theorem scan_reflow {c : Char} (hc : isBlank c = false) {t u : Text} (h : Reflow t u) :
    Agree t u (scan c t) (scan c u) := by
  have hrel : Option.Rel (Agree t u)
      (comment? c t <|> literal? c t <|> selector? c t <|> version? c t <|> identifier? c t <|>
        punctuation? c t <|> blank? c t)
      (comment? c u <|> literal? c u <|> selector? c u <|> version? c u <|> identifier? c u <|>
        punctuation? c u <|> blank? c u) := by
    rw [blank?_eq_none hc, blank?_eq_none hc]
    exact rel_orElse (comment?_reflow h c) <| rel_orElse (literal?_reflow h c) <|
      rel_orElse (selector?_reflow h c) <| rel_orElse (version?_reflow h c) <|
      rel_orElse (identifier?_reflow h c) <| rel_orElse (punctuation?_reflow h c) .none
  unfold scan
  revert hrel
  generalize (comment? c t <|> literal? c t <|> selector? c t <|> version? c t <|>
    identifier? c t <|> punctuation? c t <|> blank? c t) = a
  generalize (comment? c u <|> literal? c u <|> selector? c u <|> version? c u <|>
    identifier? c u <|> punctuation? c u <|> blank? c u) = b
  intro hrel
  cases hrel with
  | some h => exact h
  | none => exact .fault _ fun b => (AgreeTo.zero h).meets.resumes b

/-- At a blank there is nothing else. -/
theorem scan_eq_blank? {c : Char} (hc : isBlank c = true) (t : Text) :
    scan c t = (blank? c t).getD (.fault .unexpectedCharacter 0 0) := by
  have hne : ∀ d : Char, isBlank d = false → c ≠ d := by
    rintro d hd rfl
    simp [hc] at hd
  have hdigit := eq_false_of_blank (fun _ => isVisible_of_isDigit) c hc
  have hletter := eq_false_of_blank (fun _ => isVisible_of_isLetter) c hc
  have hmark : mark? c = none := by
    cases h : mark? c with
    | none => rfl
    | some tok =>
      unfold mark? at h
      split at h <;> first | exact absurd hc (by decide) | cases h
  simp only [scan, comment?_eq_none (fun h => absurd h (hne '/' (by decide))), literal?,
    hne '"' (by decide), selector?, hne '@' (by decide), version?, hdigit, hne 'v' (by decide),
    hne 'V' (by decide), identifier?, hletter, hne '_' (by decide), punctuation?,
    hne '-' (by decide), hmark]
  simp

/-- At a blank there is a token without meaning that takes nothing but blanks. -/
theorem scan_blank {c : Char} (hc : isBlank c = true) (t : Text) :
    ∃ tok n, scan c t = .token tok n ∧ tok.isTrivia = true ∧ AllBlank (t.take n) := by
  rw [scan_eq_blank? hc, blank?]
  split
  · exact ⟨.newline, 0, rfl, rfl, by simpa using allBlank_nil⟩
  · refine ⟨.whitespace, _, rfl, rfl, ?_⟩
    have hrun : t.take (t.takeWhile fun c => isBlank c && c != '\n').length =
        t.takeWhile fun c => isBlank c && c != '\n' :=
      (List.prefix_iff_eq_take.mp (List.takeWhile_prefix _)).symm
    rw [hrun]
    intro d hd
    have := List.mem_takeWhile_imp hd
    simp only [Bool.and_eq_true] at this
    exact this.1

end Front

/-! ### The outline of a text -/

namespace Piece

/-- The tokens with meaning, each with the fact whether it is the first of its line. -/
def outline (broken : Bool) : List Piece → List (Token × Bool)
  | [] => []
  | token tok t :: pieces =>
    if tok.isTrivia then outline (broken || hasBreak t) pieces
    else (tok, broken) :: outline false pieces
  | fault _ _ _ t :: pieces => outline (broken || hasBreak t) pieces

/-- The causes of the offences. -/
def causes : List Piece → List Diagnostic.Code
  | [] => []
  | token _ _ :: pieces => causes pieces
  | fault code _ _ _ :: pieces => code :: causes pieces

theorem causes_append (ps qs : List Piece) : causes (ps ++ qs) = causes ps ++ causes qs := by
  induction ps with
  | nil => rfl
  | cons p ps ih => cases p <;> simp [causes, ih]

theorem map_lexemes (start : Nat) (broken : Bool) (ps : List Piece) :
    (lexemes start broken ps).map (fun l => (l.token, l.startsLine)) = outline broken ps := by
  induction ps generalizing start broken with
  | nil => rfl
  | cons p ps ih =>
    cases p with
    | token tok t =>
      simp only [lexemes, outline]
      split
      · exact ih _ _
      · simp [ih]
    | fault code lead body t => exact ih _ _

theorem map_diagnostics (start : Nat) (ps : List Piece) :
    (diagnostics start ps).map (·.code) = (causes ps).map some := by
  induction ps generalizing start with
  | nil => rfl
  | cons p ps ih =>
    cases p with
    | token tok t => exact ih _
    | fault code lead body t => simp [diagnostics, causes, diagnostic, ih]

theorem ofText_token {c : Char} {t : Text} {tok : Token} {n : Nat}
    (h : Front.scan c t = .token tok n) :
    ofText (c :: t) = token tok (c :: t.take n) :: ofText (t.drop n) := by
  rw [ofText, h]

theorem ofText_fault {c : Char} {t : Text} {code : Diagnostic.Code} {lead body : Nat}
    (h : Front.scan c t = .fault code lead body) :
    ofText (c :: t) =
      fault code lead body (c :: t.take (lead + body)) :: ofText (t.drop (lead + body)) := by
  rw [ofText, h]

/-- Blanks in front add no more than a line break to an outline. -/
theorem outline_trimStart (b : Bool) (t : Text) :
    outline b (ofText t) = outline (b || hasBreak (t.takeWhile isBlank)) (ofText (trimStart t)) ∧
      causes (ofText t) = causes (ofText (trimStart t)) := by
  induction hlen : t.length using Nat.strongRecOn generalizing b t with
  | ind k ih =>
    cases t with
    | nil => simp [trimStart]
    | cons c t =>
      by_cases hc : isBlank c = true
      · obtain ⟨tok, n, hscan, htriv, hblank⟩ := Front.scan_blank hc t
        have hs : AllBlank (c :: t.take n) := allBlank_cons.mpr ⟨hc, hblank⟩
        have e : c :: t = (c :: t.take n) ++ t.drop n := by simp
        have erun : (c :: t).takeWhile isBlank = (c :: t.take n) ++ (t.drop n).takeWhile isBlank :=
          by conv => lhs; rw [e, List.takeWhile_append_of_pos hs]
        have etrim : trimStart (c :: t) = trimStart (t.drop n) := by
          conv => lhs; rw [e, trimStart, List.dropWhile_append_of_pos hs]
          rfl
        have hlt : (t.drop n).length < k := by simp at hlen ⊢; omega
        obtain ⟨ih₁, ih₂⟩ := ih _ hlt (b || hasBreak (c :: t.take n)) (t.drop n) rfl
        rw [etrim, erun, ofText_token hscan, hasBreak_append, ← Bool.or_assoc]
        refine ⟨?_, ih₂⟩
        rw [outline, if_pos htriv]
        exact ih₁
      · simp [trimStart, hc]

theorem outline_eq_of_resumes {b b' : Bool} {t u : Text} (h : Resumes b b' t u) :
    outline b (ofText t) = outline b' (ofText u) ∧ causes (ofText t) = causes (ofText u) := by
  induction hlen : t.length using Nat.strongRecOn generalizing b b' t u with
  | ind k ih =>
    rw [(outline_trimStart b t).1, (outline_trimStart b t).2, (outline_trimStart b' u).1,
      (outline_trimStart b' u).2]
    obtain ⟨hflow, hflags⟩ := h
    obtain ⟨c, t', u', et, eu, hflow'⟩ | ⟨ht, hu⟩ := hflow.cases_head
    · have hc : isBlank c = false := not_blank_of_trimStart et
      rw [hflags (by simp [et]), et, eu]
      generalize (b' || hasBreak (u.takeWhile isBlank)) = f
      have hlt : ∀ n, (t'.drop n).length < k := by
        intro n
        have : (trimStart t).length ≤ t.length := List.length_dropWhile_le _ _
        simp [et] at this
        simp
        omega
      have hagree := Front.scan_reflow hc hflow'
      generalize hx : Front.scan c t' = x, hy : Front.scan c u' = y at hagree
      cases hagree with
      | @word tok n htriv hpre =>
        rw [ofText_token hx, ofText_token hy]
        obtain ⟨ih₁, ih₂⟩ := ih _ (hlt n) (hpre.2.resumes false) rfl
        refine ⟨?_, ih₂⟩
        simp only [outline, htriv, Bool.false_eq_true, if_false, ih₁]
      | @trivia tok tok' n m htriv htriv' hnext =>
        rw [ofText_token hx, ofText_token hy]
        have hnext := hnext (f || c == '\n')
        rw [Bool.or_assoc, ← hasBreak_cons, Bool.or_assoc, ← hasBreak_cons] at hnext
        obtain ⟨ih₁, ih₂⟩ := ih _ (hlt n) hnext rfl
        refine ⟨?_, ih₂⟩
        simp only [outline, htriv, htriv', if_true]
        exact ih₁
      | @fault code l m l' m' hnext =>
        rw [ofText_fault hx, ofText_fault hy]
        have hnext := hnext (f || c == '\n')
        rw [Bool.or_assoc, ← hasBreak_cons, Bool.or_assoc, ← hasBreak_cons] at hnext
        obtain ⟨ih₁, ih₂⟩ := ih _ (hlt _) hnext rfl
        refine ⟨ih₁, ?_⟩
        simp only [causes, ih₂]
    · rw [trimStart_eq_nil ht, trimStart_eq_nil hu]
      simp [ofText, outline, causes]

end Piece

end EventCatalog
