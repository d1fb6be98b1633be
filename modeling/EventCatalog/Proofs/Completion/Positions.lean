import EventCatalog.Completion.Site
import EventCatalog.Proofs.Syntax.Bracing
import Mathlib.Data.List.Forall2
import Mathlib.Data.List.Induction

/-! # Positions behind lexemes

Lexemes with balanced braces leave the enclosures as they were (`enclosures_foldl`), and a header on
one line with its brace puts one on top, which the words of that line decide
(`enclosures_foldl_header`).  Each brace that is open belongs to the enclosure that was put there
when the brace was passed (`forall₂_openBraces`). -/

namespace EventCatalog.Completion

open Syntax

/-- The braces that are open behind one more lexeme, the innermost first. -/
def passBrace (braces : List Lexeme) (t : Lexeme) : List Lexeme :=
  match t.token with
  | .leftBrace => t :: braces
  | .rightBrace => braces.tail
  | _ => braces

/-- The braces that are open behind lexemes, the innermost first. -/
def openBraces (ts : List Lexeme) : List Lexeme := ts.foldl passBrace []

namespace Position

variable {p : Position} {t : Lexeme} {ts us : List Lexeme} {k : Nat}

/-! ### One lexeme -/

theorem pass_of_leftBrace (p : Position) (h : t.token = .leftBrace) :
    p.pass t = ⟨Enclosure.opened p.enclosures.head? (if t.startsLine then [] else p.line) ::
      p.enclosures, []⟩ := by
  rw [pass, h]

theorem pass_of_rightBrace (p : Position) (h : t.token = .rightBrace) :
    p.pass t = ⟨p.enclosures.tail, []⟩ := by
  rw [pass, h]

theorem pass_of_not_isBrace (p : Position) (h : t.isBrace = false) :
    p.pass t = ⟨p.enclosures, (if t.startsLine then [] else p.line) ++ [t.token]⟩ := by
  obtain ⟨hopen, hclose⟩ := Bool.or_eq_false_iff.mp h
  rw [beq_eq_false_iff_ne] at hopen hclose
  unfold pass
  extract_lets line
  split
  · exact absurd ‹_› hopen
  · exact absurd ‹_› hclose
  · rfl

theorem line_pass_of_isBrace (p : Position) (h : t.isBrace = true) : (p.pass t).line = [] := by
  rcases Bool.or_eq_true_iff.mp h with h | h
  · rw [pass_of_leftBrace p (eq_of_beq h)]
  · rw [pass_of_rightBrace p (eq_of_beq h)]

/-! ### Many lexemes -/

theorem behind_append (ts us : List Lexeme) : behind (ts ++ us) = us.foldl pass (behind ts) :=
  List.foldl_append

theorem behind_concat (ts : List Lexeme) (t : Lexeme) : behind (ts ++ [t]) = (behind ts).pass t :=
  behind_append ts [t]

/-- Braces that are shut among the lexemes leave no enclosure, the others take one each. -/
theorem enclosures_foldl (h : Shuts k ts) (p : Position) :
    (ts.foldl pass p).enclosures = p.enclosures.drop k := by
  induction h generalizing p with
  | nil => rfl
  | lexeme ht _ ih => rw [List.foldl_cons, ih, pass_of_not_isBrace p ht]
  | opening ht _ ih => rw [List.foldl_cons, ih, pass_of_leftBrace p ht, List.drop_succ_cons]
  | closing ht _ ih => rw [List.foldl_cons, ih, pass_of_rightBrace p ht, List.drop_tail]

/-- Lexemes on one line are put to those before them on it. -/
theorem foldl_of_line (hts : Flat ts) (hline : ∀ t ∈ ts, t.startsLine = false) (p : Position) :
    ts.foldl pass p = ⟨p.enclosures, p.line ++ ts.map (·.token)⟩ := by
  induction ts generalizing p with
  | nil =>
    rw [List.map_nil, List.append_nil]
    rfl
  | cons t ts ih =>
    obtain ⟨ht, hts⟩ := List.forall_mem_cons.mp hts
    obtain ⟨hstart, hline⟩ := List.forall_mem_cons.mp hline
    rw [List.foldl_cons, pass_of_not_isBrace p ht, ih hts hline, hstart]
    simp

/-- A header on one line opens what its words say. -/
theorem enclosures_foldl_header {words : List Lexeme} {brace : Lexeme} (hwords : Flat words)
    (hne : words ≠ []) (hbrace : brace.token = .leftBrace)
    (hfirst : p.line = [] ∨ ∀ t ∈ words.head?, t.startsLine = true)
    (hline : ∀ t ∈ words.tail ++ [brace], t.startsLine = false) :
    ((words ++ [brace]).foldl pass p).enclosures =
      Enclosure.opened p.enclosures.head? (words.map (·.token)) :: p.enclosures := by
  cases words with
  | nil => exact absurd rfl hne
  | cons t ts =>
    obtain ⟨ht, hts⟩ := List.forall_mem_cons.mp hwords
    obtain ⟨htail, hlast⟩ := List.forall_mem_append.mp hline
    have hlast := hlast brace List.mem_cons_self
    have hempty : (if t.startsLine then [] else p.line) = [] := by
      rcases hfirst with hp | hfirst
      · rw [hp, ite_self]
      · rw [if_pos (hfirst t rfl)]
    have hwords : (t :: ts).foldl pass p = ⟨p.enclosures, t.token :: ts.map (·.token)⟩ := by
      rw [List.foldl_cons, pass_of_not_isBrace p ht, hempty, foldl_of_line hts htail]
      rfl
    rw [List.foldl_append, hwords, List.foldl_cons, List.foldl_nil, pass_of_leftBrace _ hbrace,
      hlast]
    rfl

/-! ### Open braces -/

/-- The brace stands among the lexemes, and behind it the enclosure was the innermost one. -/
def OpenedAt (ts : List Lexeme) (brace : Lexeme) (e : Enclosure) : Prop :=
  ∃ front rest, ts = front ++ brace :: rest ∧ (behind (front ++ [brace])).enclosures.head? = some e

theorem OpenedAt.concat {brace : Lexeme} {e : Enclosure} (h : OpenedAt ts brace e) (t : Lexeme) :
    OpenedAt (ts ++ [t]) brace e := by
  obtain ⟨front, rest, rfl, he⟩ := h
  exact ⟨front, rest ++ [t], by rw [List.append_assoc, List.cons_append], he⟩

/-- Each open brace goes with its enclosure. -/
theorem forall₂_openBraces (ts : List Lexeme) :
    List.Forall₂ (OpenedAt ts) (openBraces ts) (behind ts).enclosures := by
  induction ts using List.reverseRecOn with
  | nil => exact .nil
  | append_singleton ts t ih =>
    have hmono : List.Forall₂ (OpenedAt (ts ++ [t])) (openBraces ts) (behind ts).enclosures :=
      ih.imp fun _ _ h => h.concat t
    have hbraces : openBraces (ts ++ [t]) = passBrace (openBraces ts) t := List.foldl_concat ..
    rw [hbraces, passBrace]
    split
    · rename_i ht
      have hpass := pass_of_leftBrace (behind ts) ht
      rw [← behind_concat] at hpass
      rw [hpass]
      exact .cons ⟨ts, [], rfl, by rw [hpass]; rfl⟩ hmono
    · rename_i ht
      rw [behind_concat, pass_of_rightBrace _ ht, ← List.drop_one, ← List.drop_one]
      exact List.forall₂_drop 1 hmono
    · rename_i hopen hclose
      have ht : t.isBrace = false := by
        rw [Lexeme.isBrace, Bool.or_eq_false_iff, beq_eq_false_iff_ne, beq_eq_false_iff_ne]
        exact ⟨hopen, hclose⟩
      rw [behind_concat, pass_of_not_isBrace _ ht]
      exact hmono

end Position

end EventCatalog.Completion
