import EventCatalog.Syntax.Phrase
import EventCatalog.Syntax.Relabel

/-! # Readers commute with relabelling

A reader looks at tokens and line starts alone; spans only pass through it.  So relabelled lexemes
give the relabelled value, rest or failure (`Reader.Natural`), whatever the relabelling does, as
long as it respects how spans are put together (`Relabelling.Coherent`).

The closure lemmas for the combinators come first, then one lemma for each phrase. -/

namespace EventCatalog

open Syntax

namespace Relabelling

/-- A relabelling that treats all spans alike and respects what is done with spans and
identifiers. -/
structure Coherent (f : Relabelling) : Prop where
  located : ∀ s, f.located s = f.whole s
  union : ∀ s t, f.whole (s.union t) = (f.whole s).union (f.whole t)
  stop : ∀ s, f.whole ⟨s.stop, s.stop⟩ = ⟨(f.whole s).stop, (f.whole s).stop⟩
  succ : ∀ n, f.number (n + 1) = f.number n + 1

theorem coherent_forgetSpans : forgetSpans.Coherent :=
  ⟨fun _ => rfl, fun _ _ => rfl, fun _ => rfl, fun _ => rfl⟩

end Relabelling

/-- A lexeme with its span changed. -/
def Lexeme.relabel (f : Relabelling) (t : Lexeme) : Lexeme := { t with span := f.whole t.span }

namespace Lexeme

@[simp] theorem token_relabel (f : Relabelling) (t : Lexeme) : (t.relabel f).token = t.token := rfl

@[simp] theorem startsLine_relabel (f : Relabelling) (t : Lexeme) :
    (t.relabel f).startsLine = t.startsLine := rfl

end Lexeme

/-- A diagnostic with the spans of its labels changed. -/
def Diagnostic.relabel (f : Relabelling) (d : Diagnostic) : Diagnostic :=
  { d with labels := d.labels.map fun l => { l with span := f.whole l.span } }

namespace Syntax

/-- A failure with the span of what was found changed. -/
def Failure.relabel (f : Relabelling) (e : Failure) : Failure :=
  ⟨e.expected, e.found.map (·.relabel f)⟩

namespace Reader

variable {α β γ δ : Type} {f : Relabelling}

/-- What a reader gives, with the value and all spans changed. -/
def relabelResult (f : Relabelling) (g : α → β) :
    Except Failure (α × List Lexeme) → Except Failure (β × List Lexeme)
  | .ok (a, rest) => .ok (g a, rest.map (·.relabel f))
  | .error e => .error (e.relabel f)

/-- On relabelled lexemes the reader `q` gives what `p` gives, relabelled. -/
def Natural (f : Relabelling) (g : α → β) (p : Reader α) (q : Reader β) : Prop :=
  ∀ ts, q.run (ts.map (·.relabel f)) = relabelResult f g (p.run ts)

theorem Natural.error {g : α → β} {p : Reader α} {q : Reader β} (hp : Natural f g p q)
    {ts : List Lexeme} {e : Failure} (h : p.run ts = .error e) :
    q.run (ts.map (·.relabel f)) = .error (e.relabel f) := by
  rw [hp ts, h]
  rfl

theorem Natural.ok {g : α → β} {p : Reader α} {q : Reader β} (hp : Natural f g p q)
    {ts rest : List Lexeme} {a : α} (h : p.run ts = .ok (a, rest)) :
    q.run (ts.map (·.relabel f)) = .ok (g a, rest.map (·.relabel f)) := by
  rw [hp ts, h]
  rfl

/-! ### Combinators -/

theorem natural_pure {g : α → β} {a : α} {b : β} (h : b = g a) :
    Natural f g (pure a) (pure b) := by
  intro ts
  rw [h]
  rfl

theorem Natural.bind {g : α → β} {h : γ → δ} {p : Reader α} {q : Reader β}
    {k : α → Reader γ} {k' : β → Reader δ} (hp : Natural f g p q)
    (hk : ∀ a, Natural f h (k a) (k' (g a))) : Natural f h (p >>= k) (q >>= k') := by
  intro ts
  change (q.bind k').run _ = relabelResult f h ((p.bind k).run ts)
  simp only [Reader.bind, hp ts]
  cases p.run ts with
  | error e => rfl
  | ok r => exact hk r.1 r.2

theorem Natural.map {g : α → β} {h : γ → δ} {p : Reader α} {q : Reader β} {φ : α → γ}
    {ψ : β → δ} (hp : Natural f g p q) (hφ : ∀ a, ψ (g a) = h (φ a)) :
    Natural f h (φ <$> p) (ψ <$> q) :=
  hp.bind fun a => natural_pure (hφ a)

theorem natural_fail (g : α → β) (expected : Expected) :
    Natural f g (fail expected) (fail expected) := by
  intro ts
  cases ts <;> rfl

theorem natural_next? : Natural f (Option.map (·.relabel f)) next? next? := by
  intro ts
  cases ts <;> rfl

theorem natural_nextIs (t : Token) : Natural f id (nextIs t) (nextIs t) := by
  intro ts
  cases ts <;> rfl

theorem natural_token (hf : f.Coherent) (expected : Expected) (value? : Token → Option α) :
    Natural f (Located.relabel f) (token expected value?) (token expected value?) := by
  intro ts
  cases ts with
  | nil => rfl
  | cons t ts =>
    simp only [token, List.map_cons, Lexeme.relabel]
    cases value? t.token with
    | none => rfl
    | some a => simp [relabelResult, Located.relabel, hf.located, Lexeme.relabel]

theorem Natural.labelled {g : α → β} {p : Reader α} {q : Reader β} (hp : Natural f g p q)
    (expected : Expected) : Natural f g (p.labelled expected) (q.labelled expected) := by
  intro ts
  simp only [Reader.labelled, hp ts]
  cases p.run ts <;> rfl

theorem Natural.optional {g : α → β} {p : Reader α} {q : Reader β} (hp : Natural f g p q) :
    Natural f (Option.map g) (optional p) (optional q) := by
  intro ts
  simp only [Reader.optional, hp ts]
  cases p.run ts <;> rfl

theorem Natural.iterate {g : α → β} {p : Reader (Option α)} {q : Reader (Option β)}
    (hp : Natural f (Option.map g) p q) : Natural f (List.map g) (iterate p) (iterate q) := by
  intro ts
  change iterateRun q _ = relabelResult f _ (iterateRun p ts)
  fun_induction iterateRun p ts with
  | case1 ts e h =>
    rw [iterateRun, hp ts, h]
    rfl
  | case2 ts rest h =>
    rw [iterateRun, hp ts, h]
    rfl
  | case3 ts a rest h hlt e hi ih =>
    rw [iterateRun, hp ts, h]
    simp only [relabelResult, Option.map_some, List.length_map, hlt, if_true]
    rw [ih, hi]
    rfl
  | case4 ts a rest h hlt as last hi ih =>
    rw [iterateRun, hp ts, h]
    simp only [relabelResult, Option.map_some, List.length_map, hlt, if_true]
    rw [ih, hi]
    rfl
  | case5 ts a rest h hlt =>
    rw [iterateRun, hp ts, h]
    simp only [relabelResult, Option.map_some, List.length_map, hlt, if_false]
    rfl

theorem Natural.separated {g : α → β} {h : γ → δ} {p : Reader α} {q : Reader β}
    {s : Reader γ} {s' : Reader δ} (hp : Natural f g p q) (hs : Natural f h s s') :
    Natural f (List.map g) (separated p s) (separated q s') :=
  hp.bind fun _ => (hs.bind fun _ => hp).optional.iterate.bind fun _ => natural_pure rfl

theorem Natural.separatedOrNone {g : α → β} {h : γ → δ} {p : Reader α} {q : Reader β}
    {s : Reader γ} {s' : Reader δ} (hp : Natural f g p q) (hs : Natural f h s s') :
    Natural f (List.map g) (separatedOrNone p s) (separatedOrNone q s') :=
  (hp.separated hs).optional.bind fun o => natural_pure (by cases o <;> rfl)

end Reader

/-! ### Phrases -/

namespace Phrase

open Reader

variable {f : Relabelling} (hf : f.Coherent)

include hf

theorem natural_mark (t : Token) : Natural f f.whole (mark t) (mark t) :=
  (natural_token hf _ _).map fun x => hf.located x.span

theorem natural_keyword (word : String) : Natural f f.whole (keyword word) (keyword word) :=
  (natural_token hf _ _).map fun x => hf.located x.span

theorem natural_identifier : Natural f (Located.relabel f) identifier identifier :=
  natural_token hf _ _

theorem natural_stringLiteral : Natural f (Located.relabel f) stringLiteral stringLiteral :=
  natural_token hf _ _

theorem natural_name : Natural f (Located.relabel f) name name := natural_token hf _ _

theorem natural_value : Natural f (Located.relabel f) value value := natural_token hf _ _

theorem natural_version : Natural f (Located.relabel f) version version := natural_token hf _ _

theorem natural_boolean : Natural f (Located.relabel f) boolean boolean := natural_token hf _ _

theorem natural_kind : Natural f (Located.relabel f) kind kind := natural_token hf _ _

theorem natural_messageKind : Natural f (Located.relabel f) messageKind messageKind :=
  natural_token hf _ _

theorem natural_values : Natural f id values values :=
  (natural_mark hf _).bind fun _ =>
    ((natural_value hf).separatedOrNone (natural_mark hf _)).bind fun items =>
      (natural_mark hf _).optional.bind fun _ => (natural_mark hf _).bind fun _ =>
        natural_pure (by simp [Located.relabel, Function.comp_def])

theorem natural_selector : Natural f (Option.map (Located.relabel f)) selector selector :=
  (natural_token hf _ _).optional.bind fun o => by
    cases o with
    | some s => exact natural_pure rfl
    | none =>
      exact Natural.optional <| (natural_mark hf _).bind fun sign =>
        (natural_stringLiteral hf).bind fun text =>
          natural_pure (by simp [Located.relabel, hf.located, hf.union])

theorem natural_reference : Natural f (Reference.relabel f) reference reference :=
  ((natural_name hf).labelled _).bind fun name => (natural_selector hf).bind fun o => by
    cases o with
    | some s => exact natural_pure (by simp [Reference.relabel, Located.relabel, hf.located])
    | none => exact natural_pure rfl

theorem natural_typedReference :
    Natural f (TypedReference.relabel f) typedReference typedReference :=
  (natural_kind hf).bind fun _ => (natural_reference hf).bind fun _ => natural_pure rfl

/-- An imported name with its spans changed. -/
theorem natural_importedName :
    Natural f (fun n => ⟨n.name.relabel f, n.renamed.map (·.relabel f)⟩)
      importedName importedName :=
  (natural_name hf).bind fun _ =>
    ((natural_keyword hf _).bind fun _ => natural_name hf).optional.bind fun _ => natural_pure rfl

theorem natural_importStatement :
    Natural f (Import.relabel f) importStatement importStatement :=
  (natural_keyword hf _).bind fun start => (natural_mark hf _).bind fun _ =>
    ((natural_importedName hf).separated (natural_mark hf _)).bind fun names =>
      (natural_mark hf _).optional.bind fun _ => (natural_mark hf _).bind fun _ =>
        (natural_keyword hf _).bind fun _ => ((natural_stringLiteral hf).labelled _).bind
          fun source => natural_pure (by
            simp [Import.relabel, Located.relabel, hf.located, hf.union])

theorem natural_key : Natural f id
    (do let key ← identifier; let _ ← mark .colon; return key.value)
    (do let key ← identifier; let _ ← mark .colon; return key.value) :=
  (natural_identifier hf).bind fun _ => (natural_mark hf _).bind fun _ => natural_pure rfl

theorem natural_argument : Natural f id argument argument :=
  (natural_key hf).optional.bind fun o => (natural_value hf).bind fun _ =>
    natural_pure (by simp [Located.relabel])

theorem natural_note : Natural f (Note.relabel f) note note :=
  (natural_mark hf _).bind fun start => ((natural_identifier hf).labelled _).bind fun name =>
    (natural_mark hf _).optional.bind fun o => by
      have hspan : (f.whole start).union (name.relabel f).span =
          f.whole (start.union name.span) := by
        rw [hf.union, Located.relabel, hf.located]
      cases o with
      | none => exact natural_pure (by simp [Note.relabel, hspan])
      | some s =>
        exact ((natural_argument hf).separatedOrNone (natural_mark hf _)).bind fun arguments =>
          (natural_mark hf _).optional.bind fun _ => (natural_mark hf _).bind fun close =>
            natural_pure (by simp [Note.relabel, hspan, hf.union])

theorem natural_parameterField : Natural f id parameterField parameterField :=
  (natural_token hf _ _).bind fun field => by
    change Natural f id _ (if field.value = "enum" ∨ field.value = "examples" then _ else _)
    split
    · exact (natural_values hf).bind fun _ => natural_pure rfl
    · exact (natural_value hf).bind fun _ => natural_pure rfl

omit hf in
theorem natural_unlessClosed {α β : Type} {g : α → β} {p : Reader α} {q : Reader β}
    (hp : Natural f g p q) : Natural f (Option.map g) (unlessClosed p) (unlessClosed q) :=
  (natural_nextIs _).bind fun b => by
    cases b with
    | true => exact natural_pure rfl
    | false => exact hp.bind fun _ => natural_pure rfl

theorem natural_parameter : Natural f (Parameter.relabel f) parameter parameter :=
  (natural_keyword hf _).bind fun start => (natural_name hf).bind fun name =>
    (natural_mark hf _).optional.bind fun o => by
      have hspan : (f.whole start).union (name.relabel f).span =
          f.whole (start.union name.span) := by
        rw [hf.union, Located.relabel, hf.located]
      cases o with
      | none => exact natural_pure (by simp [Parameter.relabel, hspan])
      | some s =>
        exact (natural_unlessClosed (natural_parameterField hf)).iterate.bind fun fields =>
          (natural_mark hf _).bind fun close =>
            natural_pure (by simp [Parameter.relabel, hspan, hf.union])

theorem natural_contractField : Natural f id contractField contractField :=
  ((natural_identifier hf).labelled _).bind fun _ => (natural_value hf).bind fun _ =>
    natural_pure rfl

theorem natural_contract : Natural f id contract contract :=
  (natural_mark hf _).bind fun _ => (natural_keyword hf _).bind fun _ =>
    (natural_mark hf _).bind fun _ =>
      (natural_unlessClosed (natural_contractField hf)).iterate.bind fun _ =>
        (natural_mark hf _).bind fun _ => (natural_mark hf _).bind fun _ =>
          natural_pure (by simp)

theorem natural_sameLineLabel :
    Natural f (Option.map (Located.relabel f)) sameLineLabel sameLineLabel :=
  natural_next?.bind fun o => by
    cases o with
    | none => exact natural_pure rfl
    | some t =>
      simp only [Option.map_some, Lexeme.relabel]
      split
      · exact natural_pure rfl
      · exact (natural_stringLiteral hf).optional

theorem natural_step : Natural f (Step.relabel f) step step :=
  (natural_stringLiteral hf).optional.bind fun o => by
    cases o with
    | some label => exact natural_pure rfl
    | none =>
      exact ((natural_reference hf).labelled _).bind fun _ =>
        (natural_sameLineLabel hf).bind fun _ => natural_pure rfl

theorem natural_afterArrow {α β : Type} {g : α → β} {p : Reader α} {q : Reader β}
    (hp : Natural f g p q) : Natural f (Option.map g) (afterArrow p) (afterArrow q) :=
  (natural_mark hf _).optional.bind fun o => by
    cases o with
    | none => exact natural_pure rfl
    | some s => exact hp.bind fun _ => natural_pure rfl

theorem natural_chain : Natural f (List.map (Step.relabel f)) chain chain :=
  (natural_step hf).bind fun _ =>
    (natural_afterArrow hf (natural_step hf)).iterate.bind fun _ => natural_pure rfl

theorem natural_outputLabel : Natural f (Located.relabel f)
    (do let label ← stringLiteral; let _ ← mark .colon; return label)
    (do let label ← stringLiteral; let _ ← mark .colon; return label) :=
  (natural_stringLiteral hf).bind fun _ => (natural_mark hf _).bind fun _ => natural_pure rfl

theorem natural_output : Natural f (Output.relabel f) output output :=
  (natural_outputLabel hf).optional.bind fun _ => (natural_reference hf).bind fun _ =>
    natural_pure rfl

theorem natural_action : Natural f (Action.relabel f) action action :=
  ((natural_reference hf).labelled _).bind fun _ => (natural_sameLineLabel hf).bind fun _ =>
    (natural_afterArrow hf (natural_output hf)).iterate.bind fun _ => natural_pure rfl

end Phrase

end Syntax

end EventCatalog
