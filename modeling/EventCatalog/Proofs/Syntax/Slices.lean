import EventCatalog.Proofs.Syntax.Natural.Block
import EventCatalog.Proofs.Syntax.Placed.Program
import EventCatalog.Proofs.Token.Coverage
import Mathlib.Order.MinMax

/-! # Labels can be cut out of the text

The parser puts spans together from those of lexemes and never looks at the text itself.  So it is
enough that lexemes lie between characters: moving all ends of spans back to the nearest boundary
(`Relabelling.snap`) is a relabelling that the parser respects, it changes no lexeme, and hence it
changes no label.

The lexer counts characters, and its labels lie between characters as well, but for one: a
character that starts no token is labelled by one byte, however long it is
(`labels_parse`, `not_labels_slice`). -/

namespace EventCatalog

open Text

namespace Relabelling

/-- Moves both ends of every span back to a boundary of a text. -/
def snap (t : Text) : Relabelling where
  located s := ⟨t.floor s.start, t.floor s.stop⟩
  whole s := ⟨t.floor s.start, t.floor s.stop⟩

variable {t : Text} {s : Span}

theorem coherent_snap (t : Text) : (snap t).Coherent := by
  have hmono : Monotone t.floor := fun _ _ h => t.floor_mono h
  refine ⟨fun _ => rfl, ?_, fun _ => rfl, fun _ => rfl⟩
  intro s u
  -- What is monotone commutes with the ends of a union.
  simp only [snap, Span.union, Span.ofBounds, hmono.map_min, hmono.map_max]

theorem whole_snap (h : s.Slices t) : (snap t).whole s = s := by
  show (⟨t.floor s.start, t.floor s.stop⟩ : Span) = s
  rw [floor_of_boundary h.start, floor_of_boundary h.stop]

theorem boundary_of_whole_snap (h : (snap t).whole s = s) :
    t.Boundary s.start ∧ t.Boundary s.stop := by
  have hstart : t.floor s.start = s.start := congrArg Span.start h
  have hstop : t.floor s.stop = s.stop := congrArg Span.stop h
  exact ⟨boundary_iff_floor.mpr hstart, boundary_iff_floor.mpr hstop⟩

end Relabelling

theorem map_eq_self_iff {α : Type} {f : α → α} {l : List α} :
    l.map f = l ↔ ∀ x ∈ l, f x = x := by
  have h := List.map_inj_left (l := l) (f := f) (g := id)
  rwa [List.map_id] at h

namespace Diagnostic

/-- A label whose two ends lie between characters. -/
def Label.Aligned (l : Label) (t : Text) : Prop :=
  t.Boundary l.span.start ∧ t.Boundary l.span.stop

/-- A label of one byte on a character that has more and starts no token. -/
def Label.OnOneByte (l : Label) (d : Diagnostic) (t : Text) : Prop :=
  d.code = some .unexpectedCharacter ∧ ∃ before c behind, t = before ++ c :: behind ∧
    l.span = ⟨size before, size before + 1⟩ ∧ 1 < c.utf8Size

end Diagnostic

/-! ### The lexer -/

namespace Piece

variable {t : Text}

/-- The labels of lexical offences lie between characters, or on one byte of a character. -/
theorem aligned_of_mem_diagnostics {d : Diagnostic} (hd : d ∈ diagnostics 0 (ofText t))
    {l : Diagnostic.Label} (hl : l ∈ d.labels) : l.Aligned t ∨ l.OnOneByte d t := by
  obtain ⟨before, code, lead, body, s, behind, hpieces, rfl⟩ := exists_of_mem_diagnostics hd
  obtain rfl := List.mem_singleton.mp hl
  have hwhole := eq_append_of_ofText hpieces
  obtain ⟨hne, hlead, hunexpected⟩ := fits_of_ofText hpieces
  rw [Nat.zero_add]
  by_cases hbody : body = 0
  · obtain ⟨rfl, rfl⟩ := hunexpected hbody
    obtain ⟨c, s, rfl⟩ := List.exists_cons_of_ne_nil (l := s) hne
    have hsplit : t = before.flatMap text ++ [c] ++ (s ++ behind.flatMap text) := by
      simpa [text] using hwhole
    simp only [Diagnostic.Label.Aligned, Diagnostic.Label.OnOneByte, hbody, if_true,
      List.take_zero, size_nil, Nat.add_zero]
    by_cases hsize : c.utf8Size = 1
    · have hslices := Span.slices_append (before.flatMap text) [c] (s ++ behind.flatMap text)
      rw [← hsplit, size_cons, size_nil, hsize] at hslices
      exact .inl ⟨hslices.start, hslices.stop⟩
    · have hpos := c.utf8Size_pos
      refine .inr ⟨rfl, before.flatMap text, c, s ++ behind.flatMap text, ?_, rfl, by omega⟩
      rw [hsplit, List.append_assoc, List.singleton_append]
  · have hsplit : t = (before.flatMap text ++ s.take lead) ++ (s.drop lead).take body ++
        ((s.drop lead).drop body ++ behind.flatMap text) := by
      calc
        t = before.flatMap text ++ s ++ behind.flatMap text := hwhole
        _ = before.flatMap text ++
              (s.take lead ++ ((s.drop lead).take body ++ (s.drop lead).drop body)) ++
              behind.flatMap text := by rw [List.take_append_drop, List.take_append_drop]
        _ = _ := by simp only [List.append_assoc]
    have hslices := Span.slices_append (before.flatMap text ++ s.take lead)
      ((s.drop lead).take body) ((s.drop lead).drop body ++ behind.flatMap text)
    rw [← hsplit, size_append] at hslices
    simp only [Diagnostic.Label.Aligned, if_neg hbody]
    exact .inl ⟨hslices.start, hslices.stop⟩

end Piece

/-! ### The parser -/

namespace Syntax

variable {t : Text}

theorem lexemes_snap (t : Text) :
    (Piece.lexemes 0 true (Piece.ofText t)).map (·.relabel (.snap t)) =
      Piece.lexemes 0 true (Piece.ofText t) := by
  refine map_eq_self_iff.mpr ?_
  intro x hx
  have hslices := Piece.slices_of_mem_tokens (Piece.mem_tokens_of_mem_lexemes hx)
  rw [Lexeme.relabel, Relabelling.whole_snap hslices]

/-- The labels of the parser lie between characters. -/
theorem aligned_of_mem_ofLexemes {d : Diagnostic}
    (hd : d ∈ (Parsed.ofLexemes (Piece.lexemes 0 true (Piece.ofText t))).diagnostics)
    {l : Diagnostic.Label} (hl : l ∈ d.labels) : l.Aligned t := by
  have hsame := Parsed.ofLexemes_relabel (Relabelling.coherent_snap t) rfl
    (Piece.lexemes 0 true (Piece.ofText t))
  rw [lexemes_snap] at hsame
  have hdiagnostic : d.relabel (.snap t) = d :=
    map_eq_self_iff.mp (congrArg Parsed.diagnostics hsame).symm d hd
  have hlabel : { l with span := (Relabelling.snap t).whole l.span } = l :=
    map_eq_self_iff.mp (congrArg Diagnostic.labels hdiagnostic) l hl
  exact Relabelling.boundary_of_whole_snap (congrArg Diagnostic.Label.span hlabel)

/-! ### Documents -/

/-- Every label stands in the text, with its ends between characters, but for the ends of labels
that cover one byte of a longer character that starts no token. -/
def Parsed.LabelsSlice (p : Parsed) (text : String) : Prop :=
  ∀ d ∈ p.diagnostics, ∀ l ∈ d.labels, l.span.Within text ∧
    (l.Aligned text.toList ∨ l.OnOneByte d text.toList)

/-- The labels of a document lie between characters, or on one byte of a character that starts no
token. -/
theorem labels_parse (text : String) : (parse text).LabelsSlice text := by
  intro d hd l hl
  refine ⟨((stays_parse text).diagnostics d hd l hl).2, ?_⟩
  rcases List.mem_append.mp (List.mem_mergeSort.mp hd) with hd | hd
  · exact Piece.aligned_of_mem_diagnostics hd hl
  · exact .inl (aligned_of_mem_ofLexemes hd hl)

/-- A label on a character that starts no token can end inside the character. -/
theorem not_labels_slice :
    ¬∀ (text : String), ∀ d ∈ (parse text).diagnostics, ∀ l ∈ d.labels,
      l.span.Slices text.toList := by
  intro h
  have hmem : Piece.diagnostic 0 .unexpectedCharacter 0 0 ['é'] ∈ (parse "é").diagnostics := by
    decide +kernel
  have hslices := h _ _ hmem _ (List.mem_singleton.mpr rfl)
  exact absurd hslices.stop (by decide +kernel)

end Syntax

end EventCatalog
