import EventCatalog.Token.Piece
import Mathlib.Data.Option.Basic

/-! # Places in a text

Tokens stand in the text they were cut from (`within_of_mem_tokenize`), lexemes are tokens
(`mem_tokenize_of_mem_lexemes`), and what is complained about while a text is cut stands in it as
well (`inside_of_mem_tokenize`). -/

namespace EventCatalog

/-! ### Spans and labels -/

/-- The span is a part of a text. -/
structure Span.Within (s : Span) (text : String) : Prop where
  start_le : s.start ≤ s.stop
  stop_le : s.stop ≤ Text.size text.toList

namespace Span

variable {s u : Span} {text : String}

theorem union_eq (hs : s.start ≤ s.stop) (u : Span) :
    s.union u = ⟨min s.start u.start, max s.stop u.stop⟩ := by
  have hle : min s.start u.start ≤ max s.stop u.stop :=
    Nat.le_trans (Nat.min_le_left _ _) (Nat.le_trans hs (Nat.le_max_left _ _))
  rw [union, ofBounds, Nat.max_eq_left hle]

theorem Within.union (hs : s.Within text) (hu : u.Within text) : (s.union u).Within text := by
  have hs' := hs.start_le
  rw [union_eq hs']
  constructor
  · simp only
    omega
  · exact Nat.max_le.mpr ⟨hs.stop_le, hu.stop_le⟩

/-- The end of a part of a text. -/
theorem Within.finish (hs : s.Within text) : (⟨s.stop, s.stop⟩ : Span).Within text :=
  ⟨Nat.le_refl _, hs.stop_le⟩

theorem within_origin (text : String) : (⟨0, 0⟩ : Span).Within text :=
  ⟨Nat.le_refl _, Nat.zero_le _⟩

end Span

/-- All labels of the diagnostic stand in the text that it is about. -/
def Diagnostic.Inside (d : Diagnostic) (text : String) : Prop :=
  ∀ l ∈ d.labels, l.document = none ∧ l.span.Within text

namespace Diagnostic

variable {d : Diagnostic} {s : Span} {text : String}

theorem inside_error (code : Code) (message : String) (text : String) :
    (error code message).Inside text := by
  intro l hl
  cases hl

theorem Inside.labelled (hd : d.Inside text) (hs : s.Within text) (message : String) :
    (d.labelled s message).Inside text := by
  intro l hl
  obtain hl | hl := List.mem_append.mp hl
  · exact hd l hl
  · obtain rfl := List.mem_singleton.mp hl
    exact ⟨rfl, hs⟩

theorem Inside.withHelp (hd : d.Inside text) (help : String) : (d.withHelp help).Inside text := hd

end Diagnostic

/-! ### Tokens -/

namespace Piece

/-- The tokens of some pieces stand in the text that these make up. -/
theorem bounds_of_mem_tokens {start : Nat} {pieces : List Piece} {x : Located Token}
    (h : x ∈ tokens start pieces) : start ≤ x.span.start ∧ x.span.start ≤ x.span.stop ∧
      x.span.stop ≤ start + Text.size (pieces.flatMap text) := by
  induction pieces generalizing start with
  | nil => cases h
  | cons piece pieces ih =>
    rw [List.flatMap_cons, Text.size_append]
    cases piece with
    | token tok t =>
      rw [text]
      rcases List.mem_cons.mp h with rfl | h
      · simp only
        omega
      · have hrest := ih h
        omega
    | fault code lead body t =>
      rw [text]
      have h : x ∈ tokens (start + t.size) pieces := h
      have hrest := ih h
      omega

theorem mem_tokens_of_mem_lexemes {start : Nat} {broken : Bool} {pieces : List Piece} {t : Lexeme}
    (h : t ∈ lexemes start broken pieces) :
    (⟨t.token, t.span⟩ : Located Token) ∈ tokens start pieces := by
  induction pieces generalizing start broken with
  | nil => cases h
  | cons piece pieces ih =>
    cases piece with
    | token tok text =>
      rw [lexemes] at h
      split at h
      · exact List.mem_cons_of_mem _ (ih h)
      · rcases List.mem_cons.mp h with rfl | h
        · exact List.mem_cons_self
        · exact List.mem_cons_of_mem _ (ih h)
    | fault code lead body text => exact ih h

end Piece

/-! ### Offences -/

theorem Text.size_take_add_le (t : Text) (m n : Nat) :
    size (t.take m) + size ((t.drop m).take n) ≤ size t := by
  have ht : size t = size (t.take m) + (size ((t.drop m).take n) + size ((t.drop m).drop n)) := by
    rw [← size_append, List.take_append_drop, ← size_append, List.take_append_drop]
  omega

theorem Text.size_pos {t : Text} (h : t ≠ []) : 0 < size t := by
  cases t with
  | nil => exact absurd rfl h
  | cons c t =>
    rw [size_cons]
    exact Nat.add_pos_left c.utf8Size_pos _

theorem Literal.body_ne_zero {t : Text} {code : Diagnostic.Code} {before body : Nat}
    (h : scan t = .broken code before body) : body ≠ 0 := by
  have hafter : ∀ {c : Char} {length before : Nat} {l : Literal},
      l.after c length = .broken code before body → ∃ before, l = .broken code before body := by
    intro c length before l hl
    cases l <;> cases hl
    exact ⟨_, rfl⟩
  fun_induction scan t generalizing before with
  | case1 | case2 | case3 => cases h
  | case4 t value length hescape _ _ ih =>
    obtain ⟨before, h⟩ := hafter h
    exact ih h
  | case5 t code length hescape =>
    cases h
    omega
  | case6 c t _ _ _ ih =>
    obtain ⟨before, h⟩ := hafter h
    exact ih h

namespace Front

/-- An offence is one in a literal, or a character that starts no token. -/
theorem fault_of_scan {c : Char} {t : Text} {code : Diagnostic.Code} {lead body : Nat}
    (h : scan c t = .fault code lead body) :
    literal? c t = some (.fault code lead body) ∨
      code = .unexpectedCharacter ∧ lead = 0 ∧ body = 0 := by
  unfold scan at h
  cases hall : (comment? c t <|> literal? c t <|> selector? c t <|> version? c t <|>
    identifier? c t <|> punctuation? c t <|> blank? c t) with
  | none =>
    rw [hall] at h
    cases h
    exact .inr ⟨rfl, rfl, rfl⟩
  | some f =>
    rw [hall, Option.getD_some] at h
    subst h
    rcases (Option.orElse_eq_some ..).mp hall with h | ⟨-, h⟩
    · unfold comment? at h
      split at h
      · cases h
      · split at h <;> cases h
      · cases h
    rcases (Option.orElse_eq_some ..).mp h with h | ⟨-, h⟩
    · exact .inl h
    rcases (Option.orElse_eq_some ..).mp h with h | ⟨-, h⟩
    · simp only [selector?] at h
      split at h <;> cases h
    rcases (Option.orElse_eq_some ..).mp h with h | ⟨-, h⟩
    · simp only [version?] at h
      split at h
      · cases h
      · split at h
        · obtain ⟨n, -, hn⟩ := Option.map_eq_some_iff.mp h
          cases hn
        · cases h
    rcases (Option.orElse_eq_some ..).mp h with h | ⟨-, h⟩
    · simp only [identifier?] at h
      split at h <;> cases h
    rcases (Option.orElse_eq_some ..).mp h with h | ⟨-, h⟩
    · unfold punctuation? at h
      split at h
      · cases h
      · obtain ⟨mark, -, hmark⟩ := Option.map_eq_some_iff.mp h
        cases hmark
    · simp only [blank?] at h
      split at h
      · cases h
      · split at h <;> cases h

/-- An offence that covers nothing is a character that starts no token. -/
theorem unexpected_of_scan {c : Char} {t : Text} {code : Diagnostic.Code} {lead body : Nat}
    (h : scan c t = .fault code lead body) (hbody : body = 0) :
    code = .unexpectedCharacter ∧ lead = 0 := by
  obtain h | ⟨hcode, hlead, -⟩ := fault_of_scan h
  · unfold literal? at h
    split at h
    · split at h <;> cases h
      case h_2 => omega
      case h_3 hscan => exact absurd hbody (Literal.body_ne_zero hscan)
    · cases h
  · exact ⟨hcode, hlead⟩

end Front

namespace Piece

/-- The label of an offence stands in its piece. -/
theorem bounds_of_mem_diagnostic {start lead body : Nat} {code : Diagnostic.Code} {t : Text}
    (hne : t ≠ []) (hlead : body = 0 → lead = 0) {l : Diagnostic.Label}
    (hl : l ∈ (diagnostic start code lead body t).labels) :
    l.document = none ∧ start ≤ l.span.start ∧ l.span.start ≤ l.span.stop ∧
      l.span.stop ≤ start + Text.size t := by
  obtain rfl := List.mem_singleton.mp hl
  have hbounds := Text.size_take_add_le t lead body
  refine ⟨rfl, Nat.le_add_right _ _, Nat.le_add_right _ _, ?_⟩
  simp only
  split
  · rename_i hbody
    have hpos := Text.size_pos hne
    rw [hlead hbody, List.take_zero, Text.size_nil]
    omega
  · omega

theorem bounds_of_mem_diagnostics {start : Nat} {t : Text} {d : Diagnostic}
    (hd : d ∈ diagnostics start (ofText t)) {l : Diagnostic.Label} (hl : l ∈ d.labels) :
    l.document = none ∧ start ≤ l.span.start ∧ l.span.start ≤ l.span.stop ∧
      l.span.stop ≤ start + Text.size t := by
  have hcut : ∀ (c : Char) (t : Text) (n : Nat),
      Text.size (c :: t) = Text.size (c :: t.take n) + Text.size (t.drop n) := by
    intro c t n
    rw [← Text.size_append, List.cons_append, List.take_append_drop]
  fun_induction ofText t generalizing start with
  | case1 => cases hd
  | case2 c t tok more hscan ih =>
    have hrest := ih hd
    have hsize := hcut c t more
    exact ⟨hrest.1, by omega, hrest.2.2.1, by omega⟩
  | case3 c t code lead body hscan ih =>
    have hsize := hcut c t (lead + body)
    rcases List.mem_cons.mp hd with rfl | hd
    · have hown := bounds_of_mem_diagnostic (List.cons_ne_nil _ _)
        (fun hbody => (Front.unexpected_of_scan hscan hbody).2) hl
      exact ⟨hown.1, hown.2.1, hown.2.2.1, by omega⟩
    · have hrest := ih hd
      exact ⟨hrest.1, by omega, hrest.2.2.1, by omega⟩

end Piece

/-! ### Texts -/

variable {text : String}

theorem within_of_mem_tokenize {x : Located Token} (h : x ∈ (tokenize text).1) :
    x.span.Within text := by
  have hbounds := Piece.bounds_of_mem_tokens h
  rw [Piece.text_ofText] at hbounds
  exact ⟨hbounds.2.1, by omega⟩

theorem mem_tokenize_of_mem_lexemes {t : Lexeme}
    (h : t ∈ Piece.lexemes 0 true (Piece.ofText text.toList)) :
    (⟨t.token, t.span⟩ : Located Token) ∈ (tokenize text).1 :=
  Piece.mem_tokens_of_mem_lexemes h

theorem inside_of_mem_tokenize {d : Diagnostic} (h : d ∈ (tokenize text).2) : d.Inside text := by
  intro l hl
  have hbounds := Piece.bounds_of_mem_diagnostics h hl
  exact ⟨hbounds.1, hbounds.2.2.1, by omega⟩

end EventCatalog
