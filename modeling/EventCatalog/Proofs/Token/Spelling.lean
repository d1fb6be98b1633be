import EventCatalog.Proofs.Token.Reflow
import Mathlib.Data.Option.Basic

/-! # Spelling tokens

Tokens that are written out are read back.  `Token.spell` writes one token, `Line.text` a line of
them: most have a blank between them, some stand close together.  A token that is all its own
spelling is read as (`Token.IsLone`) is still read behind other text, as long as what follows does
not prolong it (`Token.Precedes`), and a text made of lines of such tokens has just these tokens,
with no offence in it (`Line.lexes_text`).

One case needs care: behind an at sign a word may be taken for a version selector, so the lines
that can be read back (`Token.Legible`) have no such word there. -/

namespace EventCatalog

open Text

/-! ### String literals -/

namespace Literal

/-- A character as it stands in a string literal. -/
def escape : Char → Text
  | '"' => ['\\', '"']
  | '\\' => ['\\', '\\']
  | '\n' => ['\\', 'n']
  | '\r' => ['\\', 'r']
  | c => [c]

theorem scan_escape (c : Char) (t : Text) :
    scan (escape c ++ t) = (scan t).after c (escape c).length := by
  have hescaped : ∀ {d : Char}, d ≠ 'u' → Escape.simple? d = some c →
      scan ('\\' :: d :: t) = (scan t).after c 2 := by
    intro d hu hd
    rw [scan, if_neg (by decide), if_neg (by decide), if_pos rfl, Escape.scan, if_neg hu, hd]
    rfl
  unfold escape
  split
  · exact hescaped (by decide) rfl
  · exact hescaped (by decide) rfl
  · exact hescaped (by decide) rfl
  · exact hescaped (by decide) rfl
  · rename_i hquote hback hfeed hreturn
    exact scan_ordinary hquote hfeed hreturn hback t

theorem scan_flatMap_escape (s u : Text) :
    scan (s.flatMap escape ++ '"' :: u) = .closed s ((s.flatMap escape).length + 1) := by
  induction s with
  | nil => rw [List.flatMap_nil, List.nil_append, scan, if_pos rfl]; rfl
  | cons c s ih =>
    rw [List.flatMap_cons, List.append_assoc, scan_escape, ih, after, List.length_append,
      Nat.add_assoc]

end Literal

/-! ### Words that other text follows -/

namespace Front

/-- No word, version or selector goes on with the text. -/
def Delimits (u : Text) : Prop :=
  u.head?.any (fun c => isWordChar c || isSelectorChar c) = false

variable {u : Text}

theorem Delimits.any_head? (hu : Delimits u) {p : Char → Bool}
    (hp : ∀ c, p c = true → (isWordChar c || isSelectorChar c) = true) :
    u.head?.any p = false := by
  cases u with
  | nil => rfl
  | cons c u =>
    rw [List.head?_cons, Option.any_some, Bool.eq_false_iff]
    intro hc
    have h : (isWordChar c || isSelectorChar c) = false := hu
    rw [hp c hc] at h
    cases h

theorem any_head?_append {p : Char → Bool} (h : u.head?.any p = false) (t : Text) :
    (t ++ u).head?.any p = t.head?.any p := by
  cases t with
  | nil => exact h
  | cons c t => rfl

theorem takeWhile_append {p : Char → Bool} (h : u.head?.any p = false) (t : Text) :
    (t ++ u).takeWhile p = t.takeWhile p := by
  have hnil : u.takeWhile p = [] := by
    cases u with
    | nil => rfl
    | cons c u => exact List.takeWhile_cons_of_neg (by simpa using h)
  rw [List.takeWhile_append, hnil, List.append_nil]
  split
  · rename_i hall
    exact ((List.takeWhile_prefix p).eq_of_length hall).symm
  · rfl

theorem isSelectorChar_of_isAlphanumeric {c : Char} (h : isAlphanumeric c = true) :
    isSelectorChar c = true := by
  simp [isSelectorChar, h]

theorem isSelectorChar_of_isDigit {c : Char} (h : isDigit c = true) : isSelectorChar c = true :=
  isSelectorChar_of_isAlphanumeric (by simp [isAlphanumeric, h])

theorem isSelectorChar_of_isVersionChar {c : Char} (h : isVersionChar c = true) :
    isSelectorChar c = true := by
  simp only [isVersionChar, Bool.or_eq_true, beq_iff_eq] at h
  obtain (h | rfl) | rfl := h
  · exact isSelectorChar_of_isAlphanumeric h
  · decide
  · decide

theorem hyphenatedLength_le (isPart : Char → Bool) (t : Text) :
    hyphenatedLength isPart t ≤ t.length := by
  induction t with
  | nil => exact Nat.le_refl _
  | cons c t ih =>
    unfold hyphenatedLength
    split
    · exact Nat.succ_le_succ ih
    · exact Nat.zero_le _

/-- A run goes no further if it stops at what comes behind it, and no hyphen is carried over. -/
theorem hyphenatedLength_append_of_stop {p : Char → Bool} (hstop : hyphenatedLength p u = 0)
    (hnext : u.head?.any isAlphanumeric = false) (t : Text) :
    hyphenatedLength p (t ++ u) = hyphenatedLength p t := by
  induction t with
  | nil => exact hstop
  | cons c t ih =>
    rw [List.cons_append, hyphenatedLength, hyphenatedLength, any_head?_append hnext, ih]

theorem hyphenatedLength_append (hu : Delimits u) {p : Char → Bool}
    (hp : ∀ c, p c = true → (isWordChar c || isSelectorChar c) = true) (t : Text) :
    hyphenatedLength p (t ++ u) = hyphenatedLength p t := by
  refine hyphenatedLength_append_of_stop ?_ ?_ t
  · cases u with
    | nil => rfl
    | cons c u =>
      have hc : p c = false := hu.any_head? hp
      have hhyphen : (c == '-') = false := hu.any_head? (p := (· == '-')) fun d hd => by
        obtain rfl : d = '-' := by simpa using hd
        decide
      simp [hyphenatedLength, hc, hhyphen]
  · exact hu.any_head? fun d hd => by rw [isSelectorChar_of_isAlphanumeric hd, Bool.or_true]

theorem markedVersionLength?_append (hu : Delimits u) (t : Text) :
    markedVersionLength? (t ++ u) = markedVersionLength? t := by
  have hrun := takeWhile_append (p := fun c => isDigit c || c == '.') (hu.any_head? fun c hc => by
    rw [Bool.or_eq_true, beq_iff_eq] at hc
    obtain hc | rfl := hc
    · rw [isSelectorChar_of_isDigit hc, Bool.or_true]
    · decide) t
  have hdigit := any_head?_append (p := isDigit) (hu.any_head? fun c hc => by
    rw [isSelectorChar_of_isDigit hc, Bool.or_true]) t
  have hnext := any_head?_append (p := fun c => isWordChar c || c == '-')
    (hu.any_head? fun c hc => by
      rw [Bool.or_eq_true, beq_iff_eq] at hc
      obtain hc | rfl := hc
      · rw [hc, Bool.true_or]
      · decide) (t.drop (t.takeWhile fun c => isDigit c || c == '.').length)
  rw [markedVersionLength?, markedVersionLength?, hrun, hdigit,
    List.drop_append_of_le_length (List.takeWhile_prefix _).length_le, hnext]

theorem length_le_of_markedVersionLength? {t : Text} {n : Nat}
    (h : markedVersionLength? t = some n) : n ≤ t.length := by
  simp only [markedVersionLength?] at h
  split at h
  · cases h
    exact (List.takeWhile_prefix _).length_le
  · cases h

theorem selector?_append (hu : Delimits u) (c : Char) (t : Text) :
    selector? c (t ++ u) = selector? c t := by
  have hrun := takeWhile_append (p := isSelectorChar) (hu.any_head? fun d hd => by
    rw [hd, Bool.or_true]) t
  rw [selector?, selector?, hrun]

theorem version?_append (hu : Delimits u) (c : Char) (t : Text) :
    version? c (t ++ u) = version? c t := by
  have hrun := hyphenatedLength_append hu (p := isVersionChar) (fun d hd => by
    rw [isSelectorChar_of_isVersionChar hd, Bool.or_true]) t
  simp only [version?, hrun, List.take_append_of_le_length (hyphenatedLength_le _ _),
    markedVersionLength?_append hu]
  refine if_congr Iff.rfl rfl (if_congr Iff.rfl ?_ rfl)
  exact Option.map_congr fun n hn => by
    rw [List.take_append_of_le_length (length_le_of_markedVersionLength? hn)]

theorem identifier?_append (hu : Delimits u) (c : Char) (t : Text) :
    identifier? c (t ++ u) = identifier? c t := by
  have hrun := hyphenatedLength_append hu (p := isWordChar) (fun d hd => by
    rw [hd, Bool.true_or]) t
  simp only [identifier?, hrun, List.take_append_of_le_length (hyphenatedLength_le _ _)]

/-- A selector, a version or an identifier, if one starts here. -/
def word? (c : Char) (t : Text) : Option Front :=
  selector? c t <|> version? c t <|> identifier? c t

theorem word?_append (hu : Delimits u) (c : Char) (t : Text) : word? c (t ++ u) = word? c t := by
  rw [word?, word?, selector?_append hu, version?_append hu, identifier?_append hu]

/-- A word does not reach behind the text. -/
theorem length_le_of_word? {c : Char} {t : Text} {tok : Token} {n : Nat}
    (h : word? c t = some (.token tok n)) : n ≤ t.length := by
  unfold word? at h
  rcases (Option.orElse_eq_some ..).mp h with h | ⟨-, h⟩
  · simp only [selector?] at h
    split at h
    · cases h
      exact (List.takeWhile_prefix _).length_le
    · cases h
  rcases (Option.orElse_eq_some ..).mp h with h | ⟨-, h⟩
  · simp only [version?] at h
    split at h
    · cases h
      exact hyphenatedLength_le _ _
    split at h
    · obtain ⟨length, hlength, hn⟩ := Option.map_eq_some_iff.mp h
      cases hn
      exact length_le_of_markedVersionLength? hlength
    · cases h
  · simp only [identifier?] at h
    split at h
    · cases h
      exact hyphenatedLength_le _ _
    · cases h

end Front

/-! ### Tokens that other text follows -/

namespace Token

/-- Whether what follows a token may prolong it. -/
def isOpenEnded : Token → Bool
  | identifier _ | version _ | versionSelector _ => true
  | _ => false

/-- How a token is written. -/
def spell : Token → Text
  | identifier text | version text => text.toList
  | stringLiteral text => '"' :: (text.toList.flatMap Literal.escape ++ ['"'])
  | versionSelector text => '@' :: text.toList
  | atSign => ['@']
  | arrow => ['-', '>']
  | leftBrace => ['{']
  | rightBrace => ['}']
  | leftBracket => ['[']
  | rightBracket => [']']
  | leftParen => ['(']
  | rightParen => [')']
  | comma => [',']
  | colon => [':']
  | lineComment text => '/' :: '/' :: text.toList
  | blockComment text => '/' :: '*' :: (text.toList ++ ['*', '/'])
  | whitespace => [' ']
  | newline => ['\n']

/-- The token is all that its spelling is read as. -/
def IsLone (t : Token) : Prop := Piece.ofText t.spell = [.token t t.spell]

instance (t : Token) : Decidable t.IsLone := inferInstanceAs (Decidable (_ = _))

/-- The text does not prolong the token that stands before it. -/
def Precedes (t : Token) (u : Text) : Prop :=
  match t with
  | atSign => Front.isSelector (u.takeWhile Front.isSelectorChar) = false
  | t => t.isOpenEnded = true → Front.Delimits u

end Token

namespace Front

variable {c : Char} {t u : Text} {tok : Token} {n : Nat}

/-- What stands at the front is a comment, a literal, a word, a mark or a blank. -/
theorem scan_eq_token (h : scan c t = .token tok n) :
    comment? c t = some (.token tok n) ∨ comment? c t = none ∧
      (literal? c t = some (.token tok n) ∨ literal? c t = none ∧
        (word? c t = some (.token tok n) ∨
          punctuation? c t = some (.token tok n) ∨ blank? c t = some (.token tok n))) := by
  have hsome : (comment? c t <|> literal? c t <|> selector? c t <|> version? c t <|>
      identifier? c t <|> punctuation? c t <|> blank? c t) = some (.token tok n) := by
    unfold scan at h
    cases hall : (comment? c t <|> literal? c t <|> selector? c t <|> version? c t <|>
      identifier? c t <|> punctuation? c t <|> blank? c t) with
    | none => rw [hall] at h; cases h
    | some f => rw [hall] at h; exact congrArg some h
  simp only [word?, Option.orElse_eq_some] at hsome ⊢
  grind

/-- Tokens that may be prolonged are read as words. -/
theorem word?_of_scan (h : scan c t = .token tok n) (htok : tok.isOpenEnded = true) :
    comment? c t = none ∧ literal? c t = none ∧ word? c t = some (.token tok n) := by
  rcases scan_eq_token h with h | ⟨hcomment, h | ⟨hliteral, h | h | h⟩⟩
  · unfold comment? at h
    split at h
    · cases h; cases htok
    · split at h <;> cases h <;> cases htok
    · cases h
  · unfold literal? at h
    split at h
    · split at h <;> cases h; cases htok
    · cases h
  · exact ⟨hcomment, hliteral, h⟩
  · unfold punctuation? at h
    split at h
    · cases h; cases htok
    · obtain ⟨mark, hmark, h⟩ := Option.map_eq_some_iff.mp h
      cases h
      unfold mark? at hmark
      split at hmark <;> cases hmark <;> cases htok
  · unfold blank? at h
    split at h
    · cases h; cases htok
    · split at h <;> cases h; cases htok

theorem scan_of_word? (hcomment : comment? c t = none) (hliteral : literal? c t = none)
    (hword : word? c t = some (.token tok n)) : scan c t = .token tok n := by
  have hsome : (comment? c t <|> literal? c t <|> selector? c t <|> version? c t <|>
      identifier? c t <|> punctuation? c t <|> blank? c t) = some (.token tok n) := by
    simp only [word?, Option.orElse_eq_some] at hword ⊢
    grind
  rw [scan, hsome]
  rfl

/-- A word is read alike if it ends where the text goes on. -/
theorem scan_append (hu : Delimits u) (h : scan c t = .token tok n)
    (htok : tok.isOpenEnded = true) : n ≤ t.length ∧ scan c (t ++ u) = .token tok n := by
  obtain ⟨-, hliteral, hword⟩ := word?_of_scan h htok
  have hquote : c ≠ '"' := by
    rintro rfl
    unfold literal? at hliteral
    rw [if_pos rfl] at hliteral
    split at hliteral <;> cases hliteral
  have hslash : c ≠ '/' := by
    rintro rfl
    have hnone : word? '/' t = none := rfl
    rw [hnone] at hword
    cases hword
  refine ⟨length_le_of_word? hword, ?_⟩
  rw [← word?_append hu] at hword
  exact scan_of_word? (comment?_eq_none fun hc => absurd hc hslash) (if_neg hquote) hword

end Front

namespace Token

open Front Piece

variable {t : Token} {u : Text}

/-- The spelling of a token that is all it is read as begins with the token. -/
theorem scan_of_isLone (hlone : t.IsLone) :
    ∃ c r n, t.spell = c :: r ∧ Front.scan c r = .token t n ∧ r.length ≤ n := by
  unfold IsLone at hlone
  cases hspell : t.spell with
  | nil =>
    rw [hspell, ofText] at hlone
    cases hlone
  | cons c r =>
    rw [hspell, ofText] at hlone
    split at hlone
    · rename_i tok n hscan
      obtain ⟨htoken, hrest⟩ := List.cons.inj hlone
      obtain ⟨rfl, -⟩ := Piece.token.inj htoken
      refine ⟨c, r, n, rfl, hscan, ?_⟩
      by_contra hlt
      cases hdrop : r.drop n with
      | nil => exact hlt (List.drop_eq_nil_iff.mp hdrop)
      | cons d s =>
        rw [hdrop, ofText] at hrest
        split at hrest <;> cases hrest
    · cases List.cons.inj hlone |>.1

/-- A token whose spelling is read alike in front of a text is cut off there. -/
theorem ofText_of_scan {c : Char} {r : Text} (hspell : t.spell = c :: r)
    (hscan : Front.scan c (r ++ u) = .token t r.length) :
    ofText (t.spell ++ u) = .token t t.spell :: ofText u := by
  rw [hspell, List.cons_append, ofText_token hscan, List.take_left, List.drop_left]

theorem scan_quote (s u : Text) :
    Front.scan '"' (s.flatMap Literal.escape ++ ['"'] ++ u) =
      .token (.stringLiteral (String.ofList s)) (s.flatMap Literal.escape ++ ['"']).length := by
  have hliteral : literal? '"' (s.flatMap Literal.escape ++ ['"'] ++ u) =
      some (.token (.stringLiteral (String.ofList s)) ((s.flatMap Literal.escape).length + 1)) := by
    rw [literal?, if_pos rfl, List.append_assoc, List.singleton_append,
      Literal.scan_flatMap_escape]
  have hcomment : comment? '"' (s.flatMap Literal.escape ++ ['"'] ++ u) = none :=
    comment?_eq_none fun hc => absurd hc (by decide)
  rw [Front.scan, hcomment, hliteral, List.length_append]
  rfl

theorem scan_atSign (h : isSelector (u.takeWhile isSelectorChar) = false) :
    Front.scan '@' u = .token .atSign 0 := by
  have hselector : selector? '@' u = none := if_neg (by simp [h])
  rw [Front.scan, hselector]
  rfl

/-- Behind a token that is all its spelling is read as, lexing goes on with the text. -/
theorem ofText_spell (htrivia : t.isTrivia = false) (hlone : t.isOpenEnded = true → t.IsLone)
    (hu : t.Precedes u) : ofText (t.spell ++ u) = .token t t.spell :: ofText u := by
  have hword (hopen : t.isOpenEnded = true) (hdelimits : Delimits u) :
      ofText (t.spell ++ u) = .token t t.spell :: ofText u := by
    obtain ⟨c, r, n, hspell, hscan, hle⟩ := scan_of_isLone (hlone hopen)
    obtain ⟨hle', hscan'⟩ := scan_append hdelimits hscan hopen
    rw [Nat.le_antisymm hle' hle] at hscan'
    exact ofText_of_scan hspell hscan'
  cases t with
  | identifier s | version s | versionSelector s => exact hword rfl (hu rfl)
  | stringLiteral s =>
    refine ofText_of_scan rfl ?_
    rw [scan_quote, String.ofList_toList]
  | atSign => exact ofText_of_scan rfl (scan_atSign hu)
  | lineComment s | blockComment s | whitespace | newline => cases htrivia
  | _ => exact ofText_of_scan rfl rfl

/-! ### Lines of tokens -/

/-- Whether the next token stands close behind this one. -/
def opens : Token → Bool
  | atSign | leftBracket | leftParen => true
  | _ => false

/-- Whether this token stands close behind the one before it. -/
def closes : Token → Bool
  | atSign | versionSelector _ | leftParen | rightParen | rightBracket | comma | colon => true
  | _ => false

/-- What stands before a token of a line, which may be the first. -/
def gap : Option Token → Token → Text
  | none, _ => []
  | some t, u => if t.opens || u.closes then [] else [' ']

/-- The tokens of a line behind those that are written already. -/
def spellAfter (last : Option Token) : List Token → Text
  | [] => []
  | t :: ts => gap last t ++ (t.spell ++ spellAfter (some t) ts)

/-- A line that can be read back: its tokens carry meaning and are all their spellings are read
as, and at signs come before strings and before words that no selector begins with. -/
inductive Legible : List Token → Prop
  | nil : Legible []
  | cons {t : Token} {ts : List Token} (htrivia : t.isTrivia = false) (hsign : t ≠ .atSign)
      (hlone : t.isOpenEnded = true → t.IsLone) : Legible ts → Legible (t :: ts)
  | note {name : String} {ts : List Token} (hlone : (identifier name).IsLone)
      (hselector : isSelector (name.toList.takeWhile isSelectorChar) = false) :
      Legible ts → Legible (.atSign :: .identifier name :: ts)
  | quoted {text : String} {ts : List Token} :
      Legible ts → Legible (.atSign :: .stringLiteral text :: ts)

theorem Legible.append {ts us : List Token} (hts : Legible ts) (hus : Legible us) :
    Legible (ts ++ us) := by
  induction hts with
  | nil => exact hus
  | cons htrivia hsign hlone _ ih => exact .cons htrivia hsign hlone ih
  | note hlone hselector _ ih => exact .note hlone hselector ih
  | quoted _ ih => exact .quoted ih

theorem Legible.flatMap {α : Type} {f : α → List Token} {items : List α}
    (h : ∀ a ∈ items, Legible (f a)) : Legible (items.flatMap f) := by
  induction items with
  | nil => exact .nil
  | cons a items ih =>
    rw [List.flatMap_cons]
    exact (h a List.mem_cons_self).append (ih fun b hb => h b (List.mem_cons_of_mem a hb))

theorem delimits_of_closes {u : Token} (h : u.closes = true) (v : Text) :
    Delimits (u.spell ++ v) := by
  cases u <;> first | rfl | cases h

/-- The rest of a line prolongs no word. -/
theorem delimits_spellAfter {t : Token} (ht : t.opens = false) (us : List Token) (v : Text) :
    Delimits (spellAfter (some t) us ++ '\n' :: v) := by
  cases us with
  | nil => rfl
  | cons u us =>
    rw [spellAfter, gap, ht, Bool.false_or]
    split
    · rename_i hcloses
      rw [List.nil_append, List.append_assoc]
      exact delimits_of_closes hcloses _
    · rfl

/-- The lexemes of a line without their places; only the first may start a line. -/
def lexemes (startsLine : Bool) : List Token → List Lexeme
  | [] => []
  | t :: ts => ⟨t, ⟨0, 0⟩, startsLine⟩ :: lexemes false ts

end Token

/-- A text has these lexemes, places apart, and no offence. -/
structure Lexes (broken : Bool) (t : Text) (ls : List Lexeme) : Prop where
  outline : (Piece.outline broken (Piece.ofText t)).map (fun x => ⟨x.1, ⟨0, 0⟩, x.2⟩) = ls
  causes : Piece.causes (Piece.ofText t) = []

namespace Lexes

open Piece Token

variable {broken : Bool} {s t : Text} {ls : List Lexeme}

theorem nil (broken : Bool) : Lexes broken [] [] := by
  constructor <;> rw [ofText] <;> rfl

/-- Blanks in front of a text matter only if they break the line. -/
theorem blanks (hs : AllBlank s) (h : Lexes (broken || hasBreak s) t ls) :
    Lexes broken (s ++ t) ls := by
  have hrun : (s ++ t).takeWhile isBlank = s ++ t.takeWhile isBlank :=
    List.takeWhile_append_of_pos hs
  have htrim : trimStart (s ++ t) = trimStart t := List.dropWhile_append_of_pos hs
  have hst := outline_trimStart broken (s ++ t)
  have ht := outline_trimStart (broken || hasBreak s) t
  rw [hrun, htrim, hasBreak_append, ← Bool.or_assoc] at hst
  exact ⟨by rw [hst.1, ← ht.1, h.outline], by rw [hst.2, ← ht.2, h.causes]⟩

theorem token {u : Token} (htrivia : u.isTrivia = false) (hlone : u.isOpenEnded = true → u.IsLone)
    (hprecedes : u.Precedes t) (h : Lexes false t ls) :
    Lexes broken (u.spell ++ t) (⟨u, ⟨0, 0⟩, broken⟩ :: ls) := by
  constructor
  · rw [ofText_spell htrivia hlone hprecedes, Piece.outline, htrivia, if_neg (by decide),
      List.map_cons, h.outline]
  · rw [ofText_spell htrivia hlone hprecedes, Piece.causes, h.causes]

theorem gap (last : Option Token) (u : Token) (h : Lexes broken t ls) :
    Lexes broken (Token.gap last u ++ t) ls := by
  unfold Token.gap
  split
  · exact h
  split
  · exact h
  · refine blanks (by simp [AllBlank, isBlank]) ?_
    rwa [show hasBreak [' '] = false from rfl, Bool.or_false]

theorem precedes_of_ne {u : Token} (hu : u ≠ .atSign)
    (h : u.isOpenEnded = true → Front.Delimits t) : u.Precedes t := by
  cases u <;> first | exact absurd rfl hu | exact h

theorem cons {u : Token} {us : List Token} {last : Option Token} (htrivia : u.isTrivia = false)
    (hlone : u.isOpenEnded = true → u.IsLone)
    (hprecedes : u.Precedes (spellAfter (some u) us ++ '\n' :: t))
    (h : Lexes false (spellAfter (some u) us ++ '\n' :: t) (Token.lexemes false us ++ ls)) :
    Lexes broken (spellAfter last (u :: us) ++ '\n' :: t)
      (Token.lexemes broken (u :: us) ++ ls) := by
  rw [spellAfter, List.append_assoc, List.append_assoc]
  exact gap last u (token htrivia hlone hprecedes h)

/-- A line is read back. -/
theorem line {us : List Token} (hus : Legible us) (last : Option Token) (h : Lexes true t ls) :
    Lexes broken (spellAfter last us ++ '\n' :: t) (Token.lexemes broken us ++ ls) := by
  have hopens {v : Token} (hv : v.isOpenEnded = true) : v.opens = false := by
    cases v <;> first | rfl | cases hv
  induction hus generalizing broken last with
  | nil =>
    refine blanks (s := ['\n']) (by simp [AllBlank, isBlank]) ?_
    rwa [show hasBreak ['\n'] = true from rfl, Bool.or_true]
  | @cons v vs htrivia hsign hlone _ ih =>
    exact cons htrivia hlone (precedes_of_ne hsign fun hv =>
      delimits_spellAfter (hopens hv) vs t) (ih _)
  | @note name vs hlone hselector _ ih =>
    have hdelimits := delimits_spellAfter (t := .identifier name) rfl vs t
    have hrun := Front.takeWhile_append (p := Front.isSelectorChar)
      (hdelimits.any_head? fun c hc => by rw [hc, Bool.or_true]) name.toList
    refine cons rfl (fun hopen => by cases hopen) ?_ (cons rfl (fun _ => hlone) (fun _ => hdelimits) (ih _))
    have hspell : spellAfter (some .atSign) (.identifier name :: vs) ++ '\n' :: t =
        name.toList ++ (spellAfter (some (.identifier name)) vs ++ '\n' :: t) := by
      rw [spellAfter]
      exact List.append_assoc name.toList _ _
    rw [hspell, Precedes, hrun, hselector]
  | @quoted text vs _ ih =>
    exact cons rfl (fun hopen => by cases hopen) rfl
      (cons rfl (fun hopen => by cases hopen) (fun hopen => by cases hopen) (ih _))

end Lexes

/-! ### Texts made of lines -/

/-- A line of tokens with its indentation. -/
structure Line where
  depth : Nat
  tokens : List Token
deriving DecidableEq, Repr

namespace Line

/-- A line as it is written, two spaces for each step of indentation. -/
def text (l : Line) : Text :=
  List.replicate (2 * l.depth) ' ' ++ (Token.spellAfter none l.tokens ++ ['\n'])

/-- The lexemes of a line, the first of which starts it. -/
def lexemes (l : Line) : List Lexeme := Token.lexemes true l.tokens

/-- Legible lines are read back. -/
theorem lexes_text {ls : List Line} (h : ∀ l ∈ ls, Token.Legible l.tokens) :
    Lexes true (ls.flatMap text) (ls.flatMap lexemes) := by
  induction ls with
  | nil => exact .nil true
  | cons l ls ih =>
    have hrest := ih fun m hm => h m (List.mem_cons_of_mem l hm)
    rw [List.flatMap_cons, List.flatMap_cons, text, List.append_assoc, List.append_assoc]
    exact .blanks (allBlank_replicate _) (.line (h l List.mem_cons_self) none hrest)

end Line

end EventCatalog
