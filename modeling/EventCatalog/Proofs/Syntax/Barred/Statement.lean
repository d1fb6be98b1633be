import EventCatalog.Proofs.Syntax.Barred.Reader
import EventCatalog.Syntax.Statement

/-! # A closing brace stops statements

A statement that is read from lexemes with a closing brace among them is read alike with more
lexemes behind them (`Statement.stable_statement`).  Most statements begin by taking a lexeme,
whatever it is; as this is never a closing brace, `Opened` asks nothing of lexemes that begin with
one. -/

namespace EventCatalog.Syntax

open Reader Phrase

namespace Reader

variable {α β : Type}

/-- A success on lexemes with a closing brace among them, but not at their front, is not changed
by more lexemes. -/
def Opened (p : Reader α) : Prop :=
  ∀ t ts a rest, t.token ≠ .rightBrace → p.run (t :: ts) = .ok (a, rest) →
    ∃ taken, t :: ts = taken ++ rest ∧
      (Closes (t :: ts) → ∀ more, p.run (t :: ts ++ more) = .ok (a, rest ++ more))

theorem Stable.opened {p : Reader α} (hp : p.Stable) : p.Opened :=
  fun _ _ _ _ _ h => hp _ _ _ h

end Reader

namespace Statement

theorem opened_anyLexeme_bind {α : Type} {f : Span → Reader α} (hf : ∀ s, (f s).Stable) :
    (anyLexeme >>= f).Opened := by
  intro t ts a rest ht h
  have hrun : ∀ ts, (anyLexeme >>= f).run (t :: ts) = (f t.span).run ts := fun _ => rfl
  rw [hrun] at h
  obtain ⟨taken, hts, hstable⟩ := hf _ _ _ _ h
  refine ⟨t :: taken, by rw [hts, List.cons_append], fun hcloses more => ?_⟩
  have hts : Closes ([t] ++ ts) := hcloses
  rw [List.cons_append, hrun]
  exact hstable (hts.of_append (not_closes_singleton ht)) more

theorem opened_attributeStatement (word : String) (shape : AttributeShape) :
    (attributeStatement word shape).Opened := by
  cases shape with
  | text => exact opened_anyLexeme_bind fun _ => (barred_value.bind fun _ => barred_pure _).stable
  | flag =>
    refine opened_anyLexeme_bind fun _ => (barred_boolean.optional.bind fun o => ?_).stable
    cases o <;> exact barred_pure _
  | list key =>
    exact opened_anyLexeme_bind fun _ => (barred_value.bind fun _ => barred_pure _).stable

theorem opened_after (role : Role) (noise : Option String) : (after role noise).Opened := by
  refine opened_anyLexeme_bind fun _ => Barred.stable ?_
  cases noise with
  | some word =>
    exact (barred_keyword word).optional.bind fun _ => barred_reference.bind fun _ => barred_pure _
  | none => exact barred_reference.bind fun _ => barred_pure _

theorem opened_ownsStatement : ownsStatement.Opened :=
  opened_anyLexeme_bind fun _ => (barred_typedReference.bind fun _ => barred_pure _).stable

theorem opened_messageStatement (direction : Direction) : (messageStatement direction).Opened := by
  refine opened_anyLexeme_bind fun _ => Barred.stable <| barred_messageKind.bind fun _ =>
    barred_reference.bind fun _ => (barred_keyword _).optional.bind fun o => ?_
  cases o with
  | some s => exact (barred_reference.separated barred_comma).bind fun _ => barred_pure _
  | none => exact barred_pure _

theorem opened_memberStatement (sort : Section) : (memberStatement sort).Opened :=
  opened_anyLexeme_bind fun _ => (barred_reference.bind fun _ => barred_pure _).stable

theorem opened_unknownStatement (word : String) : (unknownStatement word).Opened :=
  opened_anyLexeme_bind fun _ => (barred_pure _).stable

theorem barred_ifAction {α : Type} {p : Reader α} (hp : p.Barred) : (ifAction p).Barred := by
  refine barred_next?.bind fun o => ?_
  cases o with
  | none => exact barred_pure _
  | some t =>
    change Barred (if startsAction t.token then _ else _)
    split
    · exact hp.bind fun _ => barred_pure _
    · exact barred_pure _

theorem barred_triggerClause : triggerClause.Barred :=
  (barred_keyword _).bind fun _ =>
    (barred_reference.separated (barred_keyword _)).bind fun _ =>
      (barred_ifAction barred_action).iterate.bind fun _ => barred_pure _

theorem barred_flowStatement (word : String) : (flowStatement word).Barred := by
  unfold flowStatement
  split
  · exact barred_triggerClause.map _
  · exact barred_chain.map _

theorem opened_outputStatement : outputStatement.Opened := by
  refine opened_anyLexeme_bind fun _ => barred_typedReference.bind_stable fun _ =>
    (barred_nextIs _).bind_stable fun b => ?_
  cases b with
  | true => exact stable_contract.bind_definite fun _ => definite_pure _
  | false => exact (barred_pure _).stable

theorem opened_special (k : Kind) (word : String) : (special k word).Opened := by
  unfold special
  split <;> first
    | exact opened_messageStatement _
    | exact opened_ownsStatement
    | exact opened_after _ _
    | exact (stable_parameter.map _).opened
    | exact opened_outputStatement
    | exact (barred_flowStatement _).stable.opened
    | exact opened_unknownStatement _
    | exact opened_anyLexeme_bind fun _ =>
        (barred_typedReference.bind fun _ => barred_pure _).stable
    | (split <;> first | exact opened_memberStatement _ | exact opened_unknownStatement _)

theorem opened_worded (k : Kind) (word : String) : (worded k word).Opened := by
  unfold worded
  split
  · exact opened_anyLexeme_bind fun _ => (barred_version.bind fun _ => barred_pure _).stable
  · split
    · exact opened_attributeStatement _ _
    · exact opened_special k word

theorem opened_startingWith (k : Kind) (t : Token) : (startingWith k t).Opened := by
  unfold startingWith
  split
  · exact (barred_note.map _).stable.opened
  · exact opened_worded k _
  · split
    · exact (barred_flowStatement _).stable.opened
    · exact (barred_fail _).stable.opened
  · exact (barred_fail _).stable.opened

/-- A statement of a block of any kind that is read from lexemes with a closing brace among them is
read alike with more lexemes behind them. -/
theorem stable_statement (k : Kind) : (statement k).Stable := by
  intro ts s rest h
  cases ts with
  | nil => cases h
  | cons t ts =>
    have hrun : ∀ ts, (statement k).run (t :: ts) = (startingWith k t.token).run (t :: ts) :=
      fun _ => rfl
    rw [hrun] at h
    have ht : t.token ≠ .rightBrace := by
      intro ht
      rw [ht] at h
      cases h
    obtain ⟨taken, hts, hstable⟩ := opened_startingWith k _ t ts s rest ht h
    exact ⟨taken, hts, fun hcloses more => (hrun _).trans (hstable hcloses more)⟩

end Statement

end EventCatalog.Syntax
