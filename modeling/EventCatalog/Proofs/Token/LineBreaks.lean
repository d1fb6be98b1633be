import EventCatalog.Proofs.Token.Reflow

/-! # Line starts are line breaks between tokens

The flag of a lexeme is gathered while the pieces are walked.  `Piece.breaks_lexemes` says what it
means: it is true of a lexeme that has another before it when a line feed stands in the text
between the two. -/

namespace EventCatalog

namespace Text

/-- The characters between two byte offsets. -/
def between (start stop : Nat) (t : Text) : Text := (upTo stop t).drop (upTo start t).length

theorem upTo_size (s t : Text) : upTo (size s) (s ++ t) = s := by
  induction s with
  | nil =>
    cases t with
    | nil => rfl
    | cons c t =>
      have hpos : ¬ c.utf8Size ≤ 0 := Nat.not_le.mpr c.utf8Size_pos
      rw [List.nil_append, size_nil, upTo, if_neg hpos]
  | cons c s ih =>
    rw [List.cons_append, size_cons, upTo, if_pos (Nat.le_add_right _ _), Nat.add_sub_cancel_left,
      ih]

theorem between_append (s gap t : Text) :
    between (size s) (size (s ++ gap)) (s ++ gap ++ t) = gap := by
  rw [between, upTo_size, List.append_assoc, upTo_size, List.drop_left]

end Text

open Text

/-- Whether a line break stands in the text between each token and the next. -/
def breaksBetween (t : Text) : List Span → List Bool
  | a :: b :: spans => hasBreak (between a.stop b.start t) :: breaksBetween t (b :: spans)
  | _ => []

namespace Piece

/-- The tokens with meaning are the lexemes. -/
theorem filter_tokens (start : Nat) (broken : Bool) (ps : List Piece) :
    (tokens start ps).filter (fun t => !t.value.isTrivia) =
      (lexemes start broken ps).map fun l => ⟨l.token, l.span⟩ := by
  induction ps generalizing start broken with
  | nil => rfl
  | cons p ps ih =>
    cases p with
    | token tok t =>
      rw [tokens, lexemes]
      cases h : tok.isTrivia with
      | true =>
        rw [List.filter_cons_of_neg (by simp [h]), if_pos rfl]
        exact ih _ _
      | false =>
        rw [List.filter_cons_of_pos (by simp [h]), if_neg (by decide), List.map_cons, ← ih _ false]
    | fault code lead body t => exact ih _ _

/-- Behind a lexeme that ends with `s`, and with `gap` walked since, the flags tell where line
breaks stand. -/
theorem breaks_lexemes_from {whole : Text} (s gap : Text) (first : Nat) {ps : List Piece}
    (hwhole : whole = s ++ gap ++ ps.flatMap text) :
    breaksBetween whole
        (⟨first, size s⟩ :: (lexemes (size (s ++ gap)) (hasBreak gap) ps).map (·.span)) =
      (lexemes (size (s ++ gap)) (hasBreak gap) ps).map (·.startsLine) := by
  induction ps generalizing s gap first with
  | nil => rfl
  | cons p ps ih =>
    -- A piece without meaning makes the gap longer.
    have hgap := ih s (gap ++ p.text) first (by simpa using hwhole)
    rw [← List.append_assoc, hasBreak_append, size_append (s ++ gap)] at hgap
    cases p with
    | token tok t =>
      rw [lexemes]
      cases h : tok.isTrivia with
      | true => exact hgap
      | false =>
        -- A token with meaning ends the gap and begins an empty one.
        have hnext := ih (s ++ gap ++ t) [] (size (s ++ gap))
          (by simpa [text] using hwhole)
        rw [List.append_nil, size_append (s ++ gap)] at hnext
        have hbetween : between (size s) (size (s ++ gap)) whole = gap := by
          rw [hwhole, between_append]
        rw [if_neg (by decide), List.map_cons, List.map_cons, breaksBetween, hbetween]
        exact congrArg _ hnext
    | fault code lead body t => exact hgap

/-- Behind `s`, all flags but the first tell where line breaks stand. -/
theorem breaks_lexemes_tail {whole : Text} (s : Text) (broken : Bool) {ps : List Piece}
    (hwhole : whole = s ++ ps.flatMap text) :
    breaksBetween whole ((lexemes (size s) broken ps).map (·.span)) =
      ((lexemes (size s) broken ps).map (·.startsLine)).tail := by
  induction ps generalizing s broken with
  | nil => rfl
  | cons p ps ih =>
    have hskip := ih (s ++ p.text) (broken || hasBreak p.text) (by simpa using hwhole)
    rw [size_append] at hskip
    cases p with
    | token tok t =>
      rw [lexemes]
      cases h : tok.isTrivia with
      | true => exact hskip
      | false =>
        have hrest : whole = s ++ t ++ [] ++ ps.flatMap text := by simpa [text] using hwhole
        have hnext := breaks_lexemes_from (s ++ t) [] (size s) hrest
        rw [List.append_nil, size_append] at hnext
        rw [if_neg (by decide), List.map_cons, List.map_cons, List.tail_cons]
        exact hnext
    | fault code lead body t => exact hskip

/-- Every lexeme of a text but the first starts a line if a line break stands in the text between
it and the one before it. -/
theorem breaks_lexemes (t : Text) :
    breaksBetween t ((lexemes 0 true (ofText t)).map (·.span)) =
      ((lexemes 0 true (ofText t)).map (·.startsLine)).tail :=
  breaks_lexemes_tail [] true (by rw [text_ofText, List.nil_append])

end Piece

end EventCatalog
