import EventCatalog.Proofs.Layout.Reflow
import EventCatalog.Proofs.Syntax.Natural.Block
import EventCatalog.Proofs.Token.LineBreaks

/-! # A layout is invisible

Laying a document out anew changes neither its tokens with meaning, nor the causes of its lexical
offences, nor where line breaks stand between tokens, nor what is read from it
(`format_invisible`).  This holds of every text: of one whose strings or comments do not end the
layout and the lexer may count braces differently, but both go by the same lines. -/

namespace EventCatalog

open Syntax

/-- The tokens of a text that carry meaning, with their places. -/
def wordsOf (source : String) : List (Located Token) :=
  (tokenize source).1.filter fun t => !t.value.isTrivia

theorem wordsOf_eq_lexemes (source : String) :
    wordsOf source =
      (Piece.lexemes 0 true (Piece.ofText source.toList)).map fun l => ⟨l.token, l.span⟩ :=
  Piece.filter_tokens 0 true _

/-- What does not see blanks: the tokens with meaning, the causes of the lexical offences, the line
breaks between neighbouring tokens, and the syntax tree without its spans. -/
structure SameContent (s t : String) : Prop where
  tokens : (wordsOf s).map (·.value) = (wordsOf t).map (·.value)
  offences : (tokenize s).2.map (·.code) = (tokenize t).2.map (·.code)
  breaks : breaksBetween s.toList ((wordsOf s).map (·.span)) =
    breaksBetween t.toList ((wordsOf t).map (·.span))
  program : (parse s).program.relabel .forgetSpans = (parse t).program.relabel .forgetSpans

/-- Texts that give scanners the same ink and the same line breaks have the same content. -/
theorem sameContent_of_outline {s t : String}
    (houtline : Piece.outline true (Piece.ofText s.toList) =
      Piece.outline true (Piece.ofText t.toList))
    (hcauses : Piece.causes (Piece.ofText s.toList) = Piece.causes (Piece.ofText t.toList)) :
    SameContent s t := by
  rw [← Piece.map_lexemes 0, ← Piece.map_lexemes 0] at houtline
  constructor
  · rw [wordsOf_eq_lexemes, wordsOf_eq_lexemes, List.map_map, List.map_map]
    have h := congrArg (List.map Prod.fst) houtline
    rwa [List.map_map, List.map_map] at h
  · rw [tokenize, tokenize, Piece.map_diagnostics, Piece.map_diagnostics, hcauses]
  · rw [wordsOf_eq_lexemes, wordsOf_eq_lexemes, List.map_map, List.map_map]
    have h := congrArg (fun flags => (List.map Prod.snd flags).tail) houtline
    simp only [List.map_map] at h
    exact (Piece.breaks_lexemes _).trans (h.trans (Piece.breaks_lexemes _).symm)
  · have h := congrArg (List.map fun x => (⟨x.1, ⟨0, 0⟩, x.2⟩ : Lexeme)) houtline
    rw [List.map_map, List.map_map] at h
    have hparsed : (Parsed.ofLexemes (Piece.lexemes 0 true (Piece.ofText s.toList))).relabel
        .forgetSpans = (Parsed.ofLexemes (Piece.lexemes 0 true (Piece.ofText t.toList))).relabel
        .forgetSpans := by
      rw [← Parsed.ofLexemes_relabel Relabelling.coherent_forgetSpans rfl,
        ← Parsed.ofLexemes_relabel Relabelling.coherent_forgetSpans rfl]
      exact congrArg Parsed.ofLexemes h
    exact congrArg Parsed.program hparsed

namespace Layout

/-- A layout of any width changes nothing of the content of any text. -/
theorem format_invisible (width : Nat) (source : String) :
    SameContent (format width source) source := by
  obtain ⟨u, hformat, hsource⟩ := resumes_formatText width source.toList
  have h := Piece.outline_eq_of_resumes hformat
  have h' := Piece.outline_eq_of_resumes hsource
  have htext : (format width source).toList = formatText width source.toList :=
    String.toList_ofList
  apply sameContent_of_outline
  · rw [htext, h.1, h'.1]
  · rw [htext, h.2, h'.2]

end Layout

end EventCatalog
