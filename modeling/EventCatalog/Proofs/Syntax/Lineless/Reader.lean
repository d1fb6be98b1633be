import EventCatalog.Syntax.Statement

/-! # Statements do not look at line starts

Apart from labels in flows, no phrase asks whether a lexeme starts a line.  So a reader of such
phrases gives the same value whatever the line starts are, and the same rest or failure but for
these (`Reader.Lineless`); so does every statement of a block that is no flow
(`Statement.lineless_statement`). -/

namespace EventCatalog

/-- A lexeme as if no line started with it. -/
def Lexeme.inline (t : Lexeme) : Lexeme := { t with startsLine := false }

@[simp] theorem Lexeme.token_inline (t : Lexeme) : t.inline.token = t.token := rfl

@[simp] theorem Lexeme.span_inline (t : Lexeme) : t.inline.span = t.span := rfl

theorem Lexeme.eq_of_inline {t u : Lexeme} (h : u.inline = t.inline) :
    u.token = t.token ∧ u.span = t.span :=
  ⟨(Lexeme.mk.inj h).1, (Lexeme.mk.inj h).2.1⟩

namespace Syntax

namespace Reader

variable {α β : Type}

/-- What a reader gives, with the line starts of what is left or was found forgotten. -/
def inlineResult : Except Failure (α × List Lexeme) → Except Failure (α × List Lexeme)
  | .ok (a, rest) => .ok (a, rest.map (·.inline))
  | .error e => .error { e with found := e.found.map (·.inline) }

/-- A reader that does not look at line starts. -/
def Lineless (p : Reader α) : Prop := ∀ ts, p.run (ts.map (·.inline)) = inlineResult (p.run ts)

/-- Lexemes that differ in line starts give the same value, and leave lexemes that differ in line
starts. -/
theorem Lineless.ok {p : Reader α} (hp : p.Lineless) {ts us rest : List Lexeme} {a : α}
    (hus : us.map (·.inline) = ts.map (·.inline)) (h : p.run ts = .ok (a, rest)) :
    ∃ rest', p.run us = .ok (a, rest') ∧ rest'.map (·.inline) = rest.map (·.inline) := by
  have hrun := hp us
  rw [hus, hp ts, h] at hrun
  cases hu : p.run us with
  | error e =>
    rw [hu] at hrun
    cases hrun
  | ok r =>
    rw [hu] at hrun
    obtain ⟨hvalue, hrest⟩ := Prod.mk.inj (Except.ok.inj hrun)
    exact ⟨r.2, by rw [hvalue], hrest.symm⟩

/-! ### Combinators -/

theorem lineless_pure (a : α) : (pure a : Reader α).Lineless := fun _ => rfl

theorem Lineless.bind {p : Reader α} {f : α → Reader β} (hp : p.Lineless)
    (hf : ∀ a, (f a).Lineless) : (p >>= f).Lineless := by
  intro ts
  change (p.bind f).run _ = inlineResult ((p.bind f).run ts)
  simp only [Reader.bind, hp ts]
  cases p.run ts with
  | error e => rfl
  | ok r => exact hf r.1 r.2

theorem Lineless.map {p : Reader α} (hp : p.Lineless) (f : α → β) : (f <$> p).Lineless :=
  hp.bind fun a => lineless_pure (f a)

theorem lineless_fail (expected : Expected) : (fail expected : Reader α).Lineless := by
  intro ts
  cases ts <;> rfl

/-- To look at the next lexeme is all right for what does not look at its line start. -/
theorem lineless_next?_bind {f : Option Lexeme → Reader α} (hf : ∀ o, (f o).Lineless)
    (hinline : ∀ t : Lexeme, f (some t.inline) = f (some t)) : (next? >>= f).Lineless := by
  intro ts
  cases ts with
  | nil => exact hf none []
  | cons t ts =>
    change (f (some t.inline)).run _ = inlineResult ((f (some t)).run _)
    rw [hinline]
    exact hf (some t) (t :: ts)

theorem lineless_nextIs (t : Token) : (nextIs t).Lineless := by
  intro ts
  cases ts <;> rfl

theorem lineless_token (expected : Expected) (value? : Token → Option α) :
    (token expected value?).Lineless := by
  intro ts
  cases ts with
  | nil => rfl
  | cons t ts =>
    simp only [token, List.map_cons, Lexeme.token_inline, Lexeme.span_inline]
    cases value? t.token <;> rfl

theorem Lineless.labelled {p : Reader α} (hp : p.Lineless) (expected : Expected) :
    (p.labelled expected).Lineless := by
  intro ts
  simp only [Reader.labelled, hp ts]
  cases p.run ts <;> rfl

theorem Lineless.optional {p : Reader α} (hp : p.Lineless) : (optional p).Lineless := by
  intro ts
  simp only [Reader.optional, hp ts]
  cases p.run ts <;> rfl

theorem Lineless.iterate {p : Reader (Option α)} (hp : p.Lineless) : (iterate p).Lineless := by
  intro ts
  change iterateRun p _ = inlineResult (iterateRun p ts)
  fun_induction iterateRun p ts with
  | case1 ts e h =>
    rw [iterateRun, hp ts, h]
    rfl
  | case2 ts rest h =>
    rw [iterateRun, hp ts, h]
    rfl
  | case3 ts a rest h hlt e hi ih | case4 ts a rest h hlt as last hi ih =>
    rw [iterateRun, hp ts, h]
    simp only [inlineResult, List.length_map, hlt, if_true]
    rw [ih, hi]
    rfl
  | case5 ts a rest h hlt =>
    rw [iterateRun, hp ts, h]
    simp only [inlineResult, List.length_map, hlt, if_false]

theorem Lineless.separated {p : Reader α} {s : Reader β} (hp : p.Lineless) (hs : s.Lineless) :
    (separated p s).Lineless :=
  hp.bind fun _ => (hs.bind fun _ => hp).optional.iterate.bind fun _ => lineless_pure _

theorem Lineless.separatedOrNone {p : Reader α} {s : Reader β} (hp : p.Lineless)
    (hs : s.Lineless) : (separatedOrNone p s).Lineless :=
  (hp.separated hs).optional.bind fun _ => lineless_pure _

end Reader

open Reader

/-! ### Phrases -/

namespace Phrase

theorem lineless_mark (t : Token) : (mark t).Lineless := (lineless_token _ _).map _

theorem lineless_keyword (word : String) : (keyword word).Lineless := (lineless_token _ _).map _

theorem lineless_values : values.Lineless :=
  (lineless_mark _).bind fun _ =>
    ((lineless_token _ _).separatedOrNone (lineless_mark _)).bind fun _ =>
      (lineless_mark _).optional.bind fun _ => (lineless_mark _).bind fun _ => lineless_pure _

theorem lineless_selector : selector.Lineless :=
  (lineless_token _ _).optional.bind fun o => by
    cases o with
    | some s => exact lineless_pure _
    | none =>
      exact ((lineless_mark _).bind fun _ => (lineless_token _ _).bind fun _ =>
        lineless_pure _).optional

theorem lineless_reference : reference.Lineless :=
  ((lineless_token _ _).labelled _).bind fun _ => lineless_selector.bind fun o => by
    cases o <;> exact lineless_pure _

theorem lineless_typedReference : typedReference.Lineless :=
  (lineless_token _ _).bind fun _ => lineless_reference.bind fun _ => lineless_pure _

theorem lineless_importedName : importedName.Lineless :=
  (lineless_token _ _).bind fun _ =>
    ((lineless_keyword _).bind fun _ => lineless_token _ _).optional.bind fun _ => lineless_pure _

theorem lineless_importStatement : importStatement.Lineless :=
  (lineless_keyword _).bind fun _ => (lineless_mark _).bind fun _ =>
    (lineless_importedName.separated (lineless_mark _)).bind fun _ =>
      (lineless_mark _).optional.bind fun _ => (lineless_mark _).bind fun _ =>
        (lineless_keyword _).bind fun _ => ((lineless_token _ _).labelled _).bind fun _ =>
          lineless_pure _

theorem lineless_argument : argument.Lineless :=
  ((lineless_token _ _).bind fun _ => (lineless_mark _).bind fun _ =>
    lineless_pure _).optional.bind fun _ => (lineless_token _ _).bind fun _ => lineless_pure _

theorem lineless_note : note.Lineless :=
  (lineless_mark _).bind fun _ => ((lineless_token _ _).labelled _).bind fun _ =>
    (lineless_mark _).optional.bind fun o => by
      cases o with
      | none => exact lineless_pure _
      | some s =>
        exact (lineless_argument.separatedOrNone (lineless_mark _)).bind fun _ =>
          (lineless_mark _).optional.bind fun _ => (lineless_mark _).bind fun _ => lineless_pure _

theorem lineless_parameterField : parameterField.Lineless :=
  (lineless_token _ _).bind fun _ => by
    split
    · exact lineless_values.bind fun _ => lineless_pure _
    · exact (lineless_token _ _).bind fun _ => lineless_pure _

theorem lineless_unlessClosed {α : Type} {p : Reader α} (hp : p.Lineless) :
    (unlessClosed p).Lineless :=
  (lineless_nextIs _).bind fun b => by
    cases b with
    | true => exact lineless_pure _
    | false => exact hp.bind fun _ => lineless_pure _

theorem lineless_parameter : parameter.Lineless :=
  (lineless_keyword _).bind fun _ => (lineless_token _ _).bind fun _ =>
    (lineless_mark _).optional.bind fun o => by
      cases o with
      | none => exact lineless_pure _
      | some s =>
        exact (lineless_unlessClosed lineless_parameterField).iterate.bind fun _ =>
          (lineless_mark _).bind fun _ => lineless_pure _

theorem lineless_contractField : contractField.Lineless :=
  ((lineless_token _ _).labelled _).bind fun _ => (lineless_token _ _).bind fun _ =>
    lineless_pure _

theorem lineless_contract : contract.Lineless :=
  (lineless_mark _).bind fun _ => (lineless_keyword _).bind fun _ => (lineless_mark _).bind fun _ =>
    (lineless_unlessClosed lineless_contractField).iterate.bind fun _ =>
      (lineless_mark _).bind fun _ => (lineless_mark _).bind fun _ => lineless_pure _

end Phrase

/-! ### Statements -/

namespace Statement

open Phrase

theorem lineless_anyLexeme : anyLexeme.Lineless := (lineless_token _ _).map _

theorem lineless_attributeStatement (word : String) (shape : AttributeShape) :
    (attributeStatement word shape).Lineless := by
  cases shape with
  | text | list key =>
    exact lineless_anyLexeme.bind fun _ => (lineless_token _ _).bind fun _ => lineless_pure _
  | flag =>
    refine lineless_anyLexeme.bind fun _ => (lineless_token _ _).optional.bind fun o => ?_
    cases o <;> exact lineless_pure _

theorem lineless_after (role : Role) (noise : Option String) : (after role noise).Lineless := by
  refine lineless_anyLexeme.bind fun _ => ?_
  cases noise with
  | some word =>
    exact (lineless_keyword word).optional.bind fun _ => lineless_reference.bind fun _ =>
      lineless_pure _
  | none => exact lineless_reference.bind fun _ => lineless_pure _

theorem lineless_ownsStatement : ownsStatement.Lineless :=
  lineless_anyLexeme.bind fun _ => lineless_typedReference.bind fun _ => lineless_pure _

theorem lineless_messageStatement (direction : Direction) :
    (messageStatement direction).Lineless := by
  refine lineless_anyLexeme.bind fun _ => (lineless_token _ _).bind fun _ =>
    lineless_reference.bind fun _ => (lineless_keyword _).optional.bind fun o => ?_
  cases o with
  | some s =>
    exact (lineless_reference.separated (lineless_mark _)).bind fun _ => lineless_pure _
  | none => exact lineless_pure _

theorem lineless_memberStatement (sort : Section) : (memberStatement sort).Lineless :=
  lineless_anyLexeme.bind fun _ => lineless_reference.bind fun _ => lineless_pure _

theorem lineless_unknownStatement (word : String) : (unknownStatement word).Lineless :=
  lineless_anyLexeme.bind fun _ => lineless_pure _

theorem lineless_inputStatement : Reader.Lineless (do
    let _ ← anyLexeme
    return Statement.input (← typedReference)) :=
  lineless_anyLexeme.bind fun _ => lineless_typedReference.bind fun _ => lineless_pure _

theorem lineless_outputStatement : outputStatement.Lineless := by
  refine lineless_anyLexeme.bind fun _ => lineless_typedReference.bind fun _ =>
    (lineless_nextIs _).bind fun b => ?_
  cases b with
  | true => exact lineless_contract.bind fun _ => lineless_pure _
  | false => exact lineless_pure _

/-- Only flows have labels, which stand on the line of what they label. -/
theorem lineless_special {k : Kind} (hk : k ≠ .flow) (word : String) :
    (special k word).Lineless := by
  unfold special
  split
  all_goals first
    | exact lineless_messageStatement _
    | exact lineless_ownsStatement
    | exact lineless_after _ _
    | exact lineless_parameter.map _
    | exact lineless_inputStatement
    | exact lineless_outputStatement
    | exact absurd rfl hk
    | exact lineless_unknownStatement _
    | (split <;> first | exact lineless_memberStatement _ | exact lineless_unknownStatement _)

theorem lineless_versionStatement : versionStatement.Lineless :=
  lineless_anyLexeme.bind fun _ => (lineless_token _ _).bind fun _ => lineless_pure _

theorem lineless_worded {k : Kind} (hk : k ≠ .flow) (word : String) : (worded k word).Lineless := by
  unfold worded
  split
  · exact lineless_versionStatement
  · split
    · exact lineless_attributeStatement _ _
    · exact lineless_special hk _

theorem lineless_startingWith {k : Kind} (hk : k ≠ .flow) (t : Token) :
    (startingWith k t).Lineless := by
  unfold startingWith
  split
  · exact lineless_note.map _
  · exact lineless_worded hk _
  · rw [if_neg hk]
    exact lineless_fail _
  · exact lineless_fail _

theorem lineless_statement {k : Kind} (hk : k ≠ .flow) : (statement k).Lineless := by
  refine lineless_next?_bind (fun o => ?_) fun t => rfl
  cases o with
  | none => exact lineless_fail _
  | some t => exact lineless_startingWith hk t.token

end Statement

end Syntax

end EventCatalog
