import EventCatalog.Proofs.Syntax.Joining

/-! # Where recovery resumes

A statement that cannot be read, or that opens with a word unknown in its block, is dropped
(`Block.Drops`).  Reading resumes behind its first lexeme, before the first one that closes a block
or begins a line with all brackets shut that have been opened since (`Recovery.Skips`).  So a
closing brace that belongs to no opening one of the statement is never dropped
(`Recovery.Skips.suffix_of_brace`): it is left for the block (`Block.Resumes`). -/

namespace EventCatalog.Syntax

namespace Recovery

variable {t brace : Lexeme} {ts us before behind skipped rest : List Lexeme}

/-- How many brackets, braces and parentheses are open behind some lexemes; one that closes nothing
does not count. -/
def balance (ts : List Lexeme) : Nat := ts.foldl (fun depth t => nest depth t.token) 0

/-- Reading may resume at a lexeme when others have been dropped before it. -/
def ResumesAt (dropped : List Lexeme) (t : Lexeme) : Prop :=
  balance dropped = 0 ∧ (t.token = .rightBrace ∨ t.startsLine = true)

/-- Behind lexemes that have been dropped these are skipped and those are the rest: reading may
resume at the rest, unless nothing is left, and nowhere before it. -/
structure Skips (before skipped rest : List Lexeme) : Prop where
  resumes : ∀ t ∈ rest.head?, ResumesAt (before ++ skipped) t
  passes : ∀ us t vs, skipped = us ++ t :: vs → ¬ ResumesAt (before ++ us) t

theorem balance_append_singleton (ts : List Lexeme) (t : Lexeme) :
    balance (ts ++ [t]) = nest (balance ts) t.token := by
  rw [balance, List.foldl_append]
  rfl

theorem skips_nil (h : ∀ t ∈ rest.head?, ResumesAt before t) : Skips before [] rest where
  resumes := by rwa [List.append_nil]
  passes us t vs h := by cases us <;> cases h

theorem Skips.cons (h : Skips (before ++ [t]) skipped rest) (ht : ¬ ResumesAt before t) :
    Skips before (t :: skipped) rest where
  resumes := by
    have hresumes := h.resumes
    rwa [List.append_assoc] at hresumes
  passes us u vs hskipped := by
    cases us with
    | nil =>
      obtain ⟨rfl, -⟩ := List.cons.inj hskipped
      rwa [List.append_nil]
    | cons u' us =>
      obtain ⟨rfl, htail⟩ := List.cons.inj hskipped
      have hpasses := h.passes us u vs htail
      rwa [List.append_assoc] at hpasses

/-- The depth that is kept is the balance of all that has been dropped. -/
theorem exists_skips_skipRest (before ts : List Lexeme) :
    ∃ skipped, ts = skipped ++ skipRest (balance before) ts ∧
      Skips before skipped (skipRest (balance before) ts) := by
  induction ts generalizing before with
  | nil => exact ⟨[], rfl, skips_nil fun t ht => nomatch ht⟩
  | cons t ts ih =>
    unfold skipRest
    split
    · rename_i hstop
      refine ⟨[], rfl, skips_nil fun u hu => ?_⟩
      obtain rfl : t = u := Option.some.inj hu
      exact hstop
    · rename_i hgo
      obtain ⟨skipped, hts, hskips⟩ := ih (before ++ [t])
      rw [balance_append_singleton] at hts hskips
      exact ⟨t :: skipped, congrArg (t :: ·) hts, hskips.cons hgo⟩

/-- A closing brace that all brackets before it are shut at is not skipped. -/
theorem Skips.suffix_of_brace (h : Skips before skipped rest)
    (hts : skipped ++ rest = us ++ brace :: behind) (hbrace : brace.token = .rightBrace)
    (hbalance : balance (before ++ us) = 0) : brace :: behind <:+ rest := by
  rcases List.append_eq_append_iff.mp hts with ⟨vs, -, hrest⟩ | ⟨vs, hskipped, hbehind⟩
  · exact ⟨vs, hrest.symm⟩
  · cases vs with
    | nil => exact (show brace :: behind = rest from hbehind) ▸ List.suffix_refl _
    | cons v vs =>
      obtain ⟨rfl, -⟩ := List.cons.inj hbehind
      exact absurd ⟨hbalance, .inl hbrace⟩ (h.passes us brace vs hskipped)

end Recovery

/-! ### Dropped statements -/

namespace Block

open Reader Recovery

variable {k : Kind} {t : Lexeme} {ts : List Lexeme}

/-- The statement that lexemes in a block of the kind begin with is dropped: it cannot be read, or
it opens with a word that is unknown there. -/
def Drops (k : Kind) (ts : List Lexeme) : Prop :=
  (∃ e, (Statement.statement k).run ts = .error e) ∨
    ∃ word span rest, (Statement.statement k).run ts = .ok (.unknown word span, rest)

theorem not_drops {s : Statement} {rest : List Lexeme}
    (h : (Statement.statement k).run ts = .ok (s, rest))
    (hs : ∀ word span, s ≠ .unknown word span) : ¬ Drops k ts := by
  rintro (⟨e, he⟩ | ⟨word, span, rest', hunknown⟩)
  · rw [h] at he
    cases he
  · rw [h] at hunknown
    cases hunknown
    exact hs word span rfl

/-- What has been read when a statement leads to a turn. -/
def Turn.Reads (k : Kind) (t : Lexeme) (ts : List Lexeme) : Turn (t :: ts) → Prop
  | plain s rest _ => ¬ Drops k (t :: ts) ∧ (Statement.statement k).run (t :: ts) = .ok (s, rest)
  | opens s _ _ rest _ => ¬ Drops k (t :: ts) ∧
      ∃ u, (Statement.statement k).run (t :: ts) = .ok (s, u :: rest)
  | dropped _ rest _ => Drops k (t :: ts) ∧ rest = skipStatement t ts

theorem reads_turn (finish : Nat) (k : Kind) (t : Lexeme) (ts : List Lexeme) :
    (turn finish k t ts).Reads k t ts := by
  cases h : (Statement.statement k).run (t :: ts) with
  | error e =>
    simp only [turn, take_error _ h]
    exact ⟨.inl ⟨e, h⟩, rfl⟩
  | ok r =>
    obtain ⟨s, rest⟩ := r
    by_cases hs : ∃ word span, s = .unknown word span
    · obtain ⟨word, span, rfl⟩ := hs
      simp only [turn, take_ok _ h]
      exact ⟨.inr ⟨word, span, rest, h⟩, rfl⟩
    have hs' : ∀ word span, s ≠ .unknown word span := fun word span e => hs ⟨word, span, e⟩
    cases hopening : openingAt s rest with
    | none =>
      obtain ⟨hlt, hturn⟩ := turn_of_plain finish h hs' hopening
      rw [hturn]
      exact ⟨not_drops h hs', h⟩
    | some o =>
      obtain ⟨u, us, rfl, hlt, hturn⟩ := turn_of_opening finish h hopening
      rw [hturn]
      exact ⟨not_drops h hs', u, h⟩

/-- A dropped statement costs one complaint. -/
theorem exists_turn_of_drops (finish : Nat) (h : Drops k (t :: ts)) :
    ∃ complaint hlt, turn finish k t ts = .dropped complaint (skipStatement t ts) hlt := by
  have hreads := reads_turn finish k t ts
  cases hturn : turn finish k t ts with
  | plain s rest hlt =>
    rw [hturn] at hreads
    exact absurd h hreads.1
  | opens s o brace rest hlt =>
    rw [hturn] at hreads
    exact absurd h hreads.1
  | dropped complaint rest hlt =>
    rw [hturn] at hreads
    obtain ⟨-, rfl⟩ := hreads
    exact ⟨complaint, hlt, rfl⟩

/-- A statement is dropped in a block: these lexemes behind its first one are skipped and reading
goes on with the rest. -/
structure Resumes (last opened : Span) (next : Nat) (d : Definition) (t : Lexeme)
    (ts skipped rest : List Lexeme) : Prop where
  split : ts = skipped ++ rest
  goesOn : ∃ complaint hle, read last opened next d (t :: ts) =
    (read last opened next d rest).after [complaint] hle
  skips : Skips [t] skipped rest
  /-- A closing brace with all brackets of the statement shut before it is left. -/
  leaves : ∀ before brace behind, ts = before ++ brace :: behind → brace.token = .rightBrace →
    balance (t :: before) = 0 → brace :: behind <:+ rest
  /-- A closing brace at which reading resumes ends the block. -/
  closes : ∀ brace behind, rest = brace :: behind → brace.token = .rightBrace →
    (read last opened next d (t :: ts)).definition = d.closeAt brace.span ∧
      (read last opened next d (t :: ts)).rest = behind

theorem read_of_drops (last opened : Span) (next : Nat) {d : Definition}
    (ht : t.token ≠ .rightBrace) (h : Drops d.kind (t :: ts)) :
    ∃ complaint hle, read last opened next d (t :: ts) =
      (read last opened next d (skipStatement t ts)).after [complaint] hle := by
  obtain ⟨complaint, hlt, hturn⟩ := exists_turn_of_drops last.stop h
  refine ⟨complaint, Nat.le_of_lt hlt, ?_⟩
  rw [read, if_neg ht, hturn]

theorem exists_resumes_of_drops (last opened : Span) (next : Nat) {d : Definition}
    (ht : t.token ≠ .rightBrace) (h : Drops d.kind (t :: ts)) :
    ∃ skipped rest, Resumes last opened next d t ts skipped rest := by
  obtain ⟨skipped, hts, hskips⟩ := exists_skips_skipRest [t] ts
  obtain ⟨complaint, hle, hread⟩ := read_of_drops last opened next ht h
  refine ⟨skipped, skipStatement t ts, hts, ⟨complaint, hle, hread⟩, hskips, ?_, ?_⟩
  · intro before brace behind hbefore hbrace hbalance
    exact hskips.suffix_of_brace (hts.symm.trans hbefore) hbrace hbalance
  · intro brace behind hrest hbrace
    have hclose : (read last opened next d (skipStatement t ts)).definition =
          d.closeAt brace.span ∧
        (read last opened next d (skipStatement t ts)).rest = behind := by
      rw [hrest, read, if_pos hbrace]
      exact ⟨rfl, rfl⟩
    rw [hread]
    exact hclose

end Block

end EventCatalog.Syntax
