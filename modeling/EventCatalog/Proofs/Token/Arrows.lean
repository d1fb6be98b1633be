import EventCatalog.Proofs.Token.Halting
import Mathlib.Data.List.DropRight

/-! # Blanks around arrows

The blanks of the line on either side of an arrow can be left out: closed up, a text has the same words
as before exactly if no token that needs a blank stands in front of them (`words_closeUp_iff`).  The
pieces before the arrow are carried over one after the other (`Piece.ofText_arrow`), and what is left
out in front of it is the blank that they end with, for no other token ends with one
(`Piece.Approach`). -/

namespace EventCatalog

open Text

namespace Piece

/-! ### Pieces in front of an arrow -/

variable {t s v w : Text} {front behind rest : List Piece} {tok : Token}

/-- A token of a text is scanned at its place, and what stands behind it on its own. -/
theorem scan_of_ofText (h : ofText t = front ++ token tok w :: behind) :
    ∃ c u, w = c :: u ∧ Front.scan c (u ++ behind.flatMap text) = .token tok u.length ∧
      ofText (behind.flatMap text) = behind := by
  fun_induction ofText t generalizing front with
  | case1 => exact absurd h (List.append_ne_nil_of_right_ne_nil front (List.cons_ne_nil _ _)).symm
  | case2 c t tok' more hscan ih =>
    cases front with
    | nil =>
      obtain ⟨hp, rfl⟩ := List.cons.inj h
      obtain ⟨rfl, rfl⟩ := Piece.token.inj hp
      refine ⟨c, t.take more, rfl, ?_, by rw [text_ofText]⟩
      rw [text_ofText, List.take_append_drop, List.length_take,
        Nat.min_eq_left (Front.length_le_of_scan hscan), hscan]
    | cons q front => exact ih (List.cons.inj h).2
  | case3 c t code lead body hscan ih =>
    cases front with
    | nil => exact absurd (List.cons.inj h).1 (by simp)
    | cons q front => exact ih (List.cons.inj h).2

/-- A token that needs a blank ends some way before the arrow, or before the blank in front of the arrow
if the last piece there is no such token. -/
theorem length_lt_of_needsBlank {c : Char} {u : Text}
    (hscan : Front.scan c (u ++ (front.flatMap text ++ (v ++ s))) = .token tok u.length)
    (htail : ofText (front.flatMap text ++ (v ++ s)) = front ++ rest)
    (hfree : front = [] → v = [] → s.head? ≠ some '-' → tok.needsBlank = false)
    (htok : tok.needsBlank = true) : u.length < (u ++ (front.flatMap text ++ v)).length := by
  rw [List.length_append]
  refine Nat.lt_add_of_pos_right (List.length_pos_of_ne_nil fun hnil => ?_)
  obtain ⟨hfront, rfl⟩ := List.append_eq_nil_iff.mp hnil
  cases front with
  | cons q front =>
    have hq := (fits_of_ofText (htail.trans (List.nil_append _).symm)).1
    exact hq (List.append_eq_nil_iff.mp hfront).1
  | nil =>
    -- The token ends where the arrow or the blank begins.
    by_cases hhead : s.head? = some '-'
    · obtain ⟨s, rfl⟩ := List.head?_eq_some_iff.mp hhead
      exact absurd (Front.lt_of_needsBlank hscan (Nat.le_refl _) htok) (Nat.lt_irrefl _)
    · rw [hfree rfl rfl hhead] at htok
      cases htok

/-- The tokens in front of an arrow are the same if the arrow is moved close to them, unless the last
of them needs a blank.  What stands between them and the arrow is lexed with it. -/
theorem ofText_arrow (hs : Front.Halts s)
    (h : ofText (front.flatMap text ++ (v ++ s)) = front ++ rest) (hclean : causes front = [])
    (hfree : v = [] → s.head? ≠ some '-' →
      ∀ tok w, front.getLast? = some (token tok w) → tok.needsBlank = false) (r : Text) :
    ofText (front.flatMap text ++ (v ++ '-' :: '>' :: r)) =
      front ++ ofText (v ++ '-' :: '>' :: r) := by
  induction front with
  | nil => rfl
  | cons p front ih =>
    cases p with
    | fault code lead body w => cases hclean
    | token tok w =>
      rw [List.cons_append] at h
      have hbehind : (front ++ rest).flatMap text = front.flatMap text ++ (v ++ s) := by
        have hwhole := text_ofText ((token tok w :: front).flatMap text ++ (v ++ s))
        rw [h, List.flatMap_cons, List.flatMap_cons, List.append_assoc] at hwhole
        exact List.append_cancel_left hwhole
      obtain ⟨c, u, rfl, hscan, htail⟩ := scan_of_ofText (h.trans (List.nil_append _).symm)
      rw [hbehind] at hscan htail
      have hlt := length_lt_of_needsBlank hscan htail (by
        rintro rfl hv hhead
        exact hfree hv hhead tok _ rfl)
      have harrow := Front.scan_arrow (u := u ++ (front.flatMap text ++ v)) hs
        (by simpa only [List.append_assoc] using hscan) (by simp) hlt r
      have hlast : v = [] → s.head? ≠ some '-' →
          ∀ tok w, front.getLast? = some (token tok w) → tok.needsBlank = false := by
        intro hv hhead tok' w hw
        refine hfree hv hhead tok' w ?_
        rw [List.getLast?_cons, hw]
        rfl
      simp only [List.append_assoc] at harrow
      rw [List.flatMap_cons, text, List.cons_append, List.cons_append, List.append_assoc,
        ofText_token harrow, List.take_left, List.drop_left, ih htail hclean hlast, List.cons_append]

/-! ### Words -/

/-- The token of a piece, if it carries meaning. -/
def word? : Piece → Option Token
  | token tok _ => if tok.isTrivia then none else some tok
  | fault _ _ _ _ => none

theorem words_cons (h : tok.isTrivia = false) (w : Text) (ps : List Piece) :
    (token tok w :: ps).filterMap word? = tok :: ps.filterMap word? :=
  List.filterMap_cons_some (if_neg (by simp [h]))

/-- Blanks of the line in front of a text are no words, nor do they change any. -/
theorem words_dropWhile (t : Text) :
    (ofText (t.dropWhile isLineBlank)).filterMap word? = (ofText t).filterMap word? := by
  cases t with
  | nil => rfl
  | cons c t =>
    by_cases hc : isLineBlank c = true
    · obtain ⟨hblank, hfeed⟩ := Bool.and_eq_true_iff.mp hc
      have hscan : Front.scan c t = .token .whitespace (t.takeWhile isLineBlank).length := by
        rw [Front.scan_eq_blank? hblank, Front.blank?, if_neg (by simpa using hfeed), if_pos hblank]
        rfl
      have hdrop : t.drop (t.takeWhile isLineBlank).length = t.dropWhile isLineBlank := by
        have hsplit := List.takeWhile_append_dropWhile (p := isLineBlank) (l := t)
        calc t.drop (t.takeWhile isLineBlank).length
            = (t.takeWhile isLineBlank ++ t.dropWhile isLineBlank).drop
                (t.takeWhile isLineBlank).length := by rw [hsplit]
          _ = t.dropWhile isLineBlank := List.drop_left
      rw [List.dropWhile_cons_of_pos hc, ofText_token hscan, hdrop]
      rfl
    · rw [List.dropWhile_cons_of_neg hc]

/-- An arrow in a text, with the pieces before it: some that do not end with a blank of the line, and
such a blank, if there is one. -/
structure Approach (t : Text) (front gap behind : List Piece) : Prop where
  pieces : ofText t = front ++ (gap ++ token .arrow ['-', '>'] :: behind)
  clean : causes front = []
  gap_eq : gap = [] ∨ ∃ w, gap = [token .whitespace w]
  tight : gap = [] → ∀ w, front.getLast? ≠ some (token .whitespace w)

/-- The text with the arrow close to the tokens on either side. -/
def closed (front behind : List Piece) : Text :=
  front.flatMap text ++ '-' :: '>' :: (behind.flatMap text).dropWhile isLineBlank

theorem exists_approach (h : ofText t = front ++ token .arrow w :: behind)
    (hclean : causes front = []) :
    ∃ front' gap, front = front' ++ gap ∧ Approach t front' gap behind := by
  obtain rfl : w = ['-', '>'] := (fits_of_ofText h).2
  obtain rfl | ⟨front', p, rfl⟩ := List.eq_nil_or_concat' front
  · exact ⟨[], [], rfl, h, rfl, .inl rfl, nofun⟩
  · by_cases hp : ∃ w, p = token .whitespace w
    · obtain ⟨w, rfl⟩ := hp
      refine ⟨front', [token .whitespace w], rfl, ?_, ?_, .inr ⟨w, rfl⟩, nofun⟩
      · rw [h, List.append_assoc]
      · rw [causes_append] at hclean
        exact (List.append_eq_nil_iff.mp hclean).1
    · refine ⟨front' ++ [p], [], (List.append_nil _).symm, h, hclean, .inl rfl, ?_⟩
      intro _ w hw
      rw [List.getLast?_concat] at hw
      exact hp ⟨w, Option.some.inj hw⟩

namespace Approach

variable {gap : List Piece}

theorem text_eq (h : Approach t front gap behind) :
    t = front.flatMap text ++ (gap.flatMap text ++ '-' :: '>' :: behind.flatMap text) := by
  have hwhole := text_ofText t
  rw [h.pieces, List.flatMap_append, List.flatMap_append, List.flatMap_cons] at hwhole
  exact hwhole.symm

/-- The blanks before the arrow are blanks of its line. -/
theorem isLineBlank_of_mem (h : Approach t front gap behind) :
    ∀ d ∈ gap.flatMap text, isLineBlank d = true := by
  obtain rfl | ⟨w, rfl⟩ := h.gap_eq
  · exact nofun
  · intro d hd
    rw [List.flatMap_singleton] at hd
    obtain ⟨hblank, hfeed⟩ := (fits_of_ofText h.pieces).2.2 d hd
    rw [isLineBlank, hblank]
    simpa using hfeed

theorem halts (h : Approach t front gap behind) :
    Front.Halts (gap.flatMap text ++ '-' :: '>' :: behind.flatMap text) := by
  have hblank := h.isLineBlank_of_mem
  cases hgap : gap.flatMap text with
  | nil => exact .arrow _
  | cons d s =>
    rw [hgap] at hblank
    exact .blank (hblank d List.mem_cons_self) _

/-- What the pieces before the blanks end with is none of them. -/
theorem not_isLineBlank (h : Approach t front gap behind) {d : Char}
    (hd : (front.flatMap text).getLast? = some d) : isLineBlank d = false := by
  obtain rfl | ⟨front, p, rfl⟩ := List.eq_nil_or_concat' front
  · cases hd
  cases p with
  | fault code lead body w =>
    have hclean := h.clean
    rw [causes_append] at hclean
    exact absurd (List.append_eq_nil_iff.mp hclean).2 nofun
  | token tok w =>
    have hpieces := h.pieces
    rw [List.append_assoc, List.singleton_append] at hpieces
    obtain ⟨c, u, rfl, hscan, -⟩ := scan_of_ofText hpieces
    rw [List.flatMap_append, List.flatMap_cons] at hscan
    rw [List.flatMap_append, List.flatMap_singleton, text,
      List.getLast?_append_of_ne_nil _ (List.cons_ne_nil _ _)] at hd
    by_cases htok : tok = .whitespace
    · subst htok
      have hnext := Front.not_isLineBlank_behind hscan
      obtain rfl | ⟨w, rfl⟩ := h.gap_eq
      · exact absurd (List.getLast?_concat ..) (h.tight rfl (c :: u))
      · have hblank := h.isLineBlank_of_mem
        cases w with
        | nil => exact absurd rfl (fits_of_ofText h.pieces).1
        | cons e w =>
          have he : isLineBlank e = false := hnext
          rw [hblank e List.mem_cons_self] at he
          cases he
    · exact Front.not_isLineBlank_of_scan h.halts hscan htok hd

theorem rdropWhile_text (h : Approach t front gap behind) :
    ((front ++ gap).flatMap text).rdropWhile isLineBlank = front.flatMap text := by
  have hgap : ∀ d ∈ (gap.flatMap text).reverse, isLineBlank d = true := fun d hd =>
    h.isLineBlank_of_mem d (List.mem_reverse.mp hd)
  rw [List.flatMap_append, List.rdropWhile, List.reverse_append, List.dropWhile_append_of_pos hgap]
  refine List.rdropWhile_eq_self_iff.mpr fun hne => ?_
  rw [h.not_isLineBlank (List.getLast?_eq_some_getLast hne)]
  exact Bool.false_ne_true

theorem words_arrow (h : Approach t front gap behind) :
    (ofText ('-' :: '>' :: (behind.flatMap text).dropWhile isLineBlank)).filterMap word? =
      .arrow :: behind.filterMap word? := by
  have hpieces := h.pieces
  rw [← List.append_assoc] at hpieces
  obtain ⟨c, u, -, -, hbehind⟩ := scan_of_ofText hpieces
  have hscan : Front.scan '-' ('>' :: (behind.flatMap text).dropWhile isLineBlank) =
      .token .arrow 1 := rfl
  rw [ofText_token hscan, words_cons rfl, List.drop_succ_cons, List.drop_zero, words_dropWhile,
    hbehind]

theorem words_gap (h : Approach t front gap behind) : gap.filterMap word? = [] := by
  obtain rfl | ⟨w, rfl⟩ := h.gap_eq <;> rfl

/-- Closed up, the text has the same words if no token in front needs the blank. -/
theorem words_closed (h : Approach t front gap behind)
    (hfree : gap ≠ [] → ∀ tok w, front.getLast? = some (token tok w) → tok.needsBlank = false) :
    (ofText (closed front behind)).filterMap word? = (ofText t).filterMap word? := by
  have hpieces := h.pieces
  rw [h.text_eq] at hpieces
  have hclosed := ofText_arrow (v := []) h.halts hpieces h.clean
    (fun _ hhead => hfree fun hnil => hhead (by rw [hnil]; rfl))
    ((behind.flatMap text).dropWhile isLineBlank)
  rw [List.nil_append] at hclosed
  rw [closed, hclosed, h.pieces, List.filterMap_append, List.filterMap_append,
    List.filterMap_append, h.words_arrow, h.words_gap]
  rfl

/-- Closed up, the text has other words if the last token in front needs the blank. -/
theorem words_closed_ne (h : Approach t (front ++ [token tok w]) gap behind)
    (htok : tok.needsBlank = true) :
    (ofText (closed (front ++ [token tok w]) behind)).filterMap word? ≠
      (ofText t).filterMap word? := by
  have htext := h.text_eq
  have hpieces := h.pieces
  have hclean := h.clean
  rw [List.flatMap_append, List.flatMap_singleton, List.append_assoc] at htext
  rw [List.append_assoc, List.singleton_append] at hpieces
  rw [causes_append] at hclean
  obtain ⟨c, u, rfl, hscan, -⟩ := scan_of_ofText hpieces
  rw [List.flatMap_append, List.flatMap_cons] at hscan
  have hclosed := ofText_arrow (v := c :: u) h.halts (htext ▸ hpieces)
    (List.append_eq_nil_iff.mp hclean).1 nofun ((behind.flatMap text).dropWhile isLineBlank)
  have hstart : c = '@' ∨ c = 'v' ∨ c = 'V' :=
    (Front.of_needsBlank hscan htok).imp And.left And.left
  obtain ⟨tok', n, hscan', hmeaning'⟩ := Front.exists_word hstart
    (u ++ '-' :: '>' :: (behind.flatMap text).dropWhile isLineBlank)
  have hmeaning : tok.isTrivia = false := by
    cases tok <;> first | rfl | cases htok
  intro hsame
  rw [closed, List.flatMap_append, List.flatMap_singleton, List.append_assoc, text, hclosed,
    hpieces, List.filterMap_append, List.filterMap_append] at hsame
  have hwords := List.append_cancel_left hsame
  rw [List.cons_append, ofText_token hscan', words_cons hmeaning, words_cons hmeaning'] at hwords
  obtain ⟨rfl, -⟩ := List.cons.inj hwords
  exact Front.scan_ne_of_needsBlank hscan htok _ hscan'

end Approach

/-! ### Tokens with their places -/

theorem exists_of_concat {start : Nat} {xs : List (Located Token)} {x : Located Token}
    {ps : List Piece} (h : tokens start ps = xs ++ [x]) (hclean : causes ps = []) :
    ∃ front w, ps = front ++ [token x.value w] ∧ tokens start front = xs := by
  obtain rfl | ⟨front, p, rfl⟩ := List.eq_nil_or_concat' ps
  · exact absurd h.symm (List.append_ne_nil_of_right_ne_nil _ (List.cons_ne_nil _ _))
  · cases p with
    | fault code lead body w =>
      rw [causes_append] at hclean
      exact absurd (List.append_eq_nil_iff.mp hclean).2 nofun
    | token tok w =>
      rw [tokens_append] at h
      obtain ⟨hfront, hlast⟩ := List.append_inj' h rfl
      obtain ⟨rfl, -⟩ := List.cons.inj hlast
      exact ⟨front, w, rfl, hfront⟩

end Piece

/-- The words of a text: its tokens without their places, but for those that carry no meaning. -/
def words (tokens : List (Located Token)) : List Token :=
  (tokens.map (·.value)).filter (!·.isTrivia)

theorem words_tokens (start : Nat) (ps : List Piece) :
    words (Piece.tokens start ps) = ps.filterMap Piece.word? := by
  induction ps generalizing start with
  | nil => rfl
  | cons p ps ih =>
    cases p with
    | fault code lead body w => exact ih _
    | token tok w =>
      have hcons : words (Piece.tokens start (.token tok w :: ps)) =
          [tok].filter (!·.isTrivia) ++ words (Piece.tokens (start + w.size) ps) :=
        List.filter_append [tok] _
      rw [hcons, ih, List.filterMap_cons, Piece.word?]
      cases htok : tok.isTrivia <;> simp [htok]

/-- The text without the blanks of the line on either side of a part of it. -/
def Text.closeUp (s : Span) (t : Text) : Text :=
  (upTo s.start t).rdropWhile isLineBlank ++ s.slice t ++
    (t.drop (upTo s.stop t).length).dropWhile isLineBlank

theorem Text.closeUp_append (before s behind : Text) :
    closeUp ⟨size before, size before + size s⟩ (before ++ s ++ behind) =
      before.rdropWhile isLineBlank ++ s ++ behind.dropWhile isLineBlank := by
  have hstart : upTo (size before) (before ++ s ++ behind) = before := by
    rw [List.append_assoc, upTo_size]
  have hstop : upTo (size before + size s) (before ++ s ++ behind) = before ++ s := by
    rw [← size_append, upTo_size]
  rw [closeUp, Span.slice_append, hstart, hstop, List.drop_left]

/-- The tokens end with one that needs a blank, and the blank. -/
def EndsInNeed (before : List (Located Token)) : Prop :=
  ∃ front x w, before = front ++ [x, w] ∧ x.value.needsBlank = true ∧ w.value = .whitespace

open Piece in
theorem endsInNeed_iff {t : Text} {front gap behind : List Piece} (h : Approach t front gap behind) :
    EndsInNeed (Piece.tokens 0 (front ++ gap)) ↔
      gap ≠ [] ∧ ∃ front' tok w, front = front' ++ [token tok w] ∧ tok.needsBlank = true := by
  have hclean : causes (front ++ gap) = [] := by
    rw [causes_append, h.clean]
    obtain rfl | ⟨w, rfl⟩ := h.gap_eq <;> rfl
  constructor
  · rintro ⟨xs, x, w, hall, hx, hw⟩
    rw [← List.singleton_append, ← List.append_assoc] at hall
    obtain ⟨ps, v, hps, hfront⟩ := exists_of_concat hall hclean
    rw [hw] at hps
    obtain rfl | ⟨v', rfl⟩ := h.gap_eq
    · rw [List.append_nil] at hps
      exact absurd (hps ▸ List.getLast?_concat ..) (h.tight rfl v)
    · obtain ⟨rfl, -⟩ := List.append_inj' hps rfl
      obtain ⟨front', u, rfl, -⟩ := exists_of_concat hfront h.clean
      exact ⟨List.cons_ne_nil _ _, front', x.value, u, rfl, hx⟩
  · rintro ⟨hgap, front', tok, w, rfl, htok⟩
    obtain ⟨v, rfl⟩ := h.gap_eq.resolve_left hgap
    have htokens := tokens_append 0 front' [token tok w, token .whitespace v]
    exact ⟨_, _, _, (congrArg _ (List.append_assoc ..)).trans htokens, htok, rfl⟩

/-- The blanks on either side of an arrow can be left out without a change of the words, but for a
blank behind a token that needs it. -/
theorem words_closeUp_iff (source : String) (before after : List (Located Token)) (s : Span)
    (hclean : (tokenize source).2 = [])
    (harrow : (tokenize source).1 = before ++ ⟨.arrow, s⟩ :: after) :
    words (tokenize (String.ofList (Text.closeUp s source.toList))).1 = words (tokenize source).1 ↔
      ¬EndsInNeed before := by
  obtain ⟨pieces, w, behind, hpieces, rfl, hspan⟩ := Piece.exists_of_tokens harrow
  have hcauses : Piece.causes (Piece.ofText source.toList) = [] := by
    have hcodes := Piece.map_diagnostics 0 (Piece.ofText source.toList)
    rw [show Piece.diagnostics 0 _ = [] from hclean] at hcodes
    exact List.map_eq_nil_iff.mp hcodes.symm
  rw [hpieces, Piece.causes_append] at hcauses
  obtain rfl : w = ['-', '>'] := (Piece.fits_of_ofText hpieces).2
  have htext := Piece.eq_append_of_ofText hpieces
  obtain ⟨front, gap, rfl, happroach⟩ :=
    Piece.exists_approach hpieces (List.append_eq_nil_iff.mp hcauses).1
  have hclosed : closeUp s source.toList = Piece.closed front behind := by
    rw [Nat.zero_add] at hspan
    simp only at hspan
    rw [htext, hspan, Piece.text, closeUp_append, happroach.rdropWhile_text, List.append_assoc]
    rfl
  rw [tokenize, tokenize, String.toList_ofList, words_tokens, words_tokens, hclosed,
    endsInNeed_iff happroach]
  by_cases hneed : gap ≠ [] ∧ ∃ front' tok w, front = front' ++ [.token tok w] ∧ tok.needsBlank = true
  · obtain ⟨-, front', tok, w, rfl, htok⟩ := id hneed
    exact iff_of_false (happroach.words_closed_ne htok) (not_not_intro hneed)
  · refine iff_of_true (happroach.words_closed fun hgap tok w hlast => ?_) hneed
    by_contra htok
    obtain ⟨front', hfront⟩ := List.getLast?_eq_some_iff.mp hlast
    exact hneed ⟨hgap, front', tok, w, hfront, by simpa using htok⟩

theorem words_closeUp_iff_name :
    let before : List (Located Token) := [⟨.identifier "a", ⟨0, 1⟩⟩, ⟨.whitespace, ⟨1, 2⟩⟩]
    let after : List (Located Token) := [⟨.whitespace, ⟨4, 5⟩⟩, ⟨.identifier "b", ⟨5, 6⟩⟩]
    (tokenize "a -> b").2 = [] ∧ (tokenize "a -> b").1 = before ++ ⟨.arrow, ⟨2, 4⟩⟩ :: after ∧
      (words (tokenize (String.ofList (Text.closeUp ⟨2, 4⟩ "a -> b".toList))).1 =
        words (tokenize "a -> b").1 ↔ ¬EndsInNeed before) :=
  have hclean : (tokenize "a -> b").2 = [] := by decide +kernel
  have harrow : (tokenize "a -> b").1 =
      [⟨.identifier "a", ⟨0, 1⟩⟩, ⟨.whitespace, ⟨1, 2⟩⟩] ++
        ⟨.arrow, ⟨2, 4⟩⟩ :: [⟨.whitespace, ⟨4, 5⟩⟩, ⟨.identifier "b", ⟨5, 6⟩⟩] := by decide +kernel
  ⟨hclean, harrow, words_closeUp_iff _ _ _ _ hclean harrow⟩

/-- A version that begins with `v` becomes a name if an arrow is moved close to it. -/
theorem not_words_closeUp : ¬∀ (source : String) (before after : List (Located Token)) (s : Span),
    (tokenize source).2 = [] → (tokenize source).1 = before ++ ⟨.arrow, s⟩ :: after →
    words (tokenize (String.ofList (Text.closeUp s source.toList))).1 =
      words (tokenize source).1 := by
  intro h
  have hversion := h "v1 -> b" [⟨.version "v1", ⟨0, 2⟩⟩, ⟨.whitespace, ⟨2, 3⟩⟩]
    [⟨.whitespace, ⟨5, 6⟩⟩, ⟨.identifier "b", ⟨6, 7⟩⟩] ⟨3, 5⟩ (by decide +kernel) (by decide +kernel)
  exact absurd hversion (by decide +kernel)

end EventCatalog
