import EventCatalog.Proofs.Token.Places
import EventCatalog.Proofs.Token.Spelling
import EventCatalog.Syntax.Block

/-! # The causes of complaints about a text

Reading a document complains about its text alone: the causes are those of the lexer and of the
parser (`isTextual_of_mem_parse`). -/

namespace EventCatalog

/-- Whether a cause is one of the lexer or of the parser. -/
def Diagnostic.Code.isTextual : Diagnostic.Code → Bool
  | .unterminatedString | .unexpectedCharacter | .invalidEscape | .invalidUnicodeEscape
  | .invalidCodePoint | .emptyUnicodeEscape | .unexpectedToken | .incompleteInput
  | .unknownStatement => true
  | _ => false

/-- The diagnostic has a cause of the lexer or of the parser. -/
def Diagnostic.IsTextual (d : Diagnostic) : Prop :=
  ∃ code, d.code = some code ∧ code.isTextual = true

/-! ### Lexing -/

theorem Escape.isTextual_of_scan {t : Text} {code : Diagnostic.Code} {n : Nat}
    (h : scan t = .fault code n) : code.isTextual = true := by
  cases t with
  | nil =>
    cases h
    rfl
  | cons c t =>
    simp only [scan] at h
    split at h
    · unfold scanUnicode at h
      simp only at h
      repeat' split at h
      all_goals first | (cases h; rfl) | cases h
    · split at h
      · cases h
      · cases h
        rfl

theorem Literal.isTextual_of_scan {t : Text} {code : Diagnostic.Code} {m n : Nat}
    (h : scan t = .broken code m n) : code.isTextual = true := by
  have hafter : ∀ {c : Char} {length m : Nat} {l : Literal}, l.after c length = .broken code m n →
      ∃ m', l = .broken code m' n := by
    intro c length m l hl
    cases l <;> cases hl
    exact ⟨_, rfl⟩
  fun_induction scan t generalizing m with
  | case1 | case2 | case3 => cases h
  | case4 t value length hescape _ _ ih =>
    obtain ⟨m', h⟩ := hafter h
    exact ih h
  | case5 t code' length hescape =>
    cases h
    exact Escape.isTextual_of_scan hescape
  | case6 c t _ _ _ ih =>
    obtain ⟨m', h⟩ := hafter h
    exact ih h

namespace Front

theorem isTextual_of_literal? {c : Char} {t : Text} {code : Diagnostic.Code} {lead body : Nat}
    (h : literal? c t = some (.fault code lead body)) : code.isTextual = true := by
  unfold literal? at h
  split at h
  · split at h <;> cases h
    case h_2 => rfl
    case h_3 hscan => exact Literal.isTextual_of_scan hscan
  · cases h

theorem isTextual_of_scan {c : Char} {t : Text} {code : Diagnostic.Code} {lead body : Nat}
    (h : scan c t = .fault code lead body) : code.isTextual = true := by
  obtain h | ⟨rfl, -, -⟩ := fault_of_scan h
  · exact isTextual_of_literal? h
  · rfl

end Front

theorem Piece.isTextual_of_mem_causes {t : Text} {code : Diagnostic.Code}
    (h : code ∈ causes (ofText t)) : code.isTextual = true := by
  fun_induction ofText t with
  | case1 => cases h
  | case2 c t tok more hscan ih => exact ih h
  | case3 c t code' lead body hscan ih =>
    obtain rfl | h := List.mem_cons.mp h
    · exact Front.isTextual_of_scan hscan
    · exact ih h

theorem Piece.isTextual_of_mem_diagnostics {start : Nat} {t : Text} {d : Diagnostic}
    (h : d ∈ diagnostics start (ofText t)) : d.IsTextual := by
  have hcode : d.code ∈ (diagnostics start (ofText t)).map (·.code) := List.mem_map_of_mem h
  rw [map_diagnostics, List.mem_map] at hcode
  obtain ⟨code, hmem, hcode⟩ := hcode
  exact ⟨code, hcode.symm, isTextual_of_mem_causes hmem⟩

/-! ### Reading -/

namespace Syntax

theorem Failure.isTextual_diagnostic (f : Failure) (finish : Nat) :
    (f.diagnostic finish).IsTextual := by
  unfold diagnostic
  split <;> exact ⟨_, rfl, rfl⟩

theorem Block.isTextual_of_turn {finish : Nat} {k : Kind} {t : Lexeme} {ts rest : List Lexeme}
    {d : Diagnostic} {hlt : rest.length < (t :: ts).length}
    (h : turn finish k t ts = .dropped d rest hlt) : d.IsTextual := by
  unfold turn at h
  simp only at h
  split at h
  · cases h
    exact Failure.isTextual_diagnostic _ _
  · cases h
    exact ⟨_, rfl, rfl⟩
  · cases h
  · split at h <;> cases h

theorem Block.isTextual_of_mem_read {last opened : Span} {next : Nat} {d : Definition}
    {ts : List Lexeme} {e : Diagnostic} (h : e ∈ (read last opened next d ts).diagnostics) :
    e.IsTextual := by
  fun_induction read last opened next d ts with
  | case1 opened next d =>
    obtain rfl := List.mem_singleton.mp h
    exact ⟨_, rfl, rfl⟩
  | case2 opened next d t ts ht => cases h
  | case3 opened next d t ts ht s rest hlt hturn ih => exact ih h
  | case4 opened next d t ts ht complaint rest hlt hturn ih =>
    obtain rfl | h := List.mem_cons.mp h
    · exact isTextual_of_turn hturn
    · exact ih h
  | case5 opened next d t ts ht s o brace rest hlt hturn child ihchild =>
    rename_i ih
    obtain h | h := List.mem_append.mp h
    · exact ihchild h
    · exact ih h

/-- What there is to complain about an entry. -/
def Entry.diagnostics {ts : List Lexeme} : Entry ts → List Diagnostic
  | importing _ _ _ => []
  | defining _ _ ds _ _ => ds
  | dropped d _ _ => [d]

theorem Entry.isTextual_of_mem_define {last : Span} {next : Nat} {d : Definition}
    {ts rest : List Lexeme} {hlt : rest.length < ts.length} {e : Diagnostic}
    (h : e ∈ (define last next d rest hlt).diagnostics) : e.IsTextual := by
  unfold define at h
  split at h
  · cases h
  · split at h
    · exact Block.isTextual_of_mem_read h
    · cases h

theorem Entry.isTextual_of_mem_read {last : Span} {next : Nat} {t : Lexeme} {ts : List Lexeme}
    {e : Diagnostic} (h : e ∈ (read last next t ts).diagnostics) : e.IsTextual := by
  have hfailure : ∀ (f : Failure), e ∈ [f.diagnostic last.stop] → e.IsTextual := by
    intro f he
    obtain rfl := List.mem_singleton.mp he
    exact Failure.isTextual_diagnostic f _
  unfold read at h
  simp only at h
  split at h
  · split at h
    · cases h
    · exact hfailure _ h
  · split at h
    · split at h
      · exact isTextual_of_mem_define h
      · exact hfailure _ h
    · exact hfailure _ h

theorem isTextual_of_mem_readProgram {last : Span} {next : Nat} {ts : List Lexeme}
    {e : Diagnostic} (h : e ∈ (readProgram last next ts).diagnostics) : e.IsTextual := by
  fun_induction readProgram last next ts with
  | case1 next => cases h
  | case2 next t ts i rest hlt hread ih => exact ih h
  | case3 next t ts d next' ds rest hlt hread ih =>
    obtain h | h := List.mem_append.mp h
    · have hentry : e ∈ (Entry.read last next t ts).diagnostics := by
        rw [hread]
        exact h
      exact Entry.isTextual_of_mem_read hentry
    · exact ih h
  | case4 next t ts d rest hlt hread ih =>
    obtain rfl | h := List.mem_cons.mp h
    · have hentry : e ∈ (Entry.read last next t ts).diagnostics := by
        rw [hread]
        exact List.mem_singleton_self e
      exact Entry.isTextual_of_mem_read hentry
    · exact ih h

/-- All complaints about a text have causes of the lexer or of the parser. -/
theorem isTextual_of_mem_parse {source : String} {d : Diagnostic}
    (h : d ∈ (parse source).diagnostics) : d.IsTextual := by
  obtain h | h := List.mem_append.mp (List.mem_mergeSort.mp h)
  · exact Piece.isTextual_of_mem_diagnostics h
  · exact isTextual_of_mem_readProgram h

end Syntax

end EventCatalog
