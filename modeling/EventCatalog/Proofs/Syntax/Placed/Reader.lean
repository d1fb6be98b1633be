import EventCatalog.Proofs.Syntax.Barred.Reader
import EventCatalog.Proofs.Token.Places

/-! # Readers stay in the text

What a reader gives was written somewhere in the text that its lexemes come from, it leaves lexemes of
that text, and where it fails it stumbles over one of them (`Reader.Gives`).  The property of the
values says as much of their places as diagnostics need: names stand where they were read
(`Located.Reads`), and all spans of references lie within the text (`Reference.Placed`).

The closure lemmas for the combinators come first, then one lemma for each phrase. -/

namespace EventCatalog

open Syntax

/-- The lexeme is a token of a text. -/
def Lexeme.StandsIn (t : Lexeme) (text : String) : Prop :=
  (⟨t.token, t.span⟩ : Located Token) ∈ (tokenize text).1

/-- All of the lexemes are tokens of a text. -/
def Lexeme.AllIn (ts : List Lexeme) (text : String) : Prop := ∀ t ∈ ts, t.StandsIn text

/-- The value was read from a token of a text. -/
def Located.Reads {α : Type} (x : Located α) (value? : Token → Option α) (text : String) : Prop :=
  ∃ token, (⟨token, x.span⟩ : Located Token) ∈ (tokenize text).1 ∧ value? token = some x.value

variable {text : String}

theorem Lexeme.StandsIn.within {t : Lexeme} (h : t.StandsIn text) : t.span.Within text :=
  within_of_mem_tokenize h

theorem Located.Reads.within {α : Type} {x : Located α} {value? : Token → Option α}
    (h : x.Reads value? text) : x.span.Within text := by
  obtain ⟨token, htoken, -⟩ := h
  exact within_of_mem_tokenize htoken

namespace Lexeme

variable {t : Lexeme} {ts : List Lexeme}

theorem AllIn.head (h : AllIn (t :: ts) text) : t.StandsIn text := h t List.mem_cons_self

theorem AllIn.tail (h : AllIn (t :: ts) text) : AllIn ts text :=
  fun u hu => h u (List.mem_cons_of_mem _ hu)

theorem AllIn.of_suffix {us : List Lexeme} (h : AllIn ts text) (hus : us <:+ ts) : AllIn us text :=
  fun u hu => h u (hus.mem hu)

theorem AllIn.head? (h : AllIn ts text) : ∀ t ∈ ts.head?, t.StandsIn text := by
  intro t ht
  cases ts with
  | nil => cases ht
  | cons u ts =>
    cases ht
    exact h.head

end Lexeme

namespace Syntax

namespace Reader

variable {α β : Type} {Q : α → Prop} {R : β → Prop}

/-- On lexemes of a text the reader gives values with a property and leaves lexemes of the text, and
what it finds where it fails is one of them. -/
structure Gives (text : String) (Q : α → Prop) (p : Reader α) : Prop where
  value : ∀ {ts a rest}, Lexeme.AllIn ts text → p.run ts = .ok (a, rest) →
    Q a ∧ Lexeme.AllIn rest text
  found : ∀ {ts e}, Lexeme.AllIn ts text → p.run ts = .error e →
    ∀ t ∈ e.found, t.StandsIn text

/-! ### Combinators -/

theorem Gives.mono {p : Reader α} {Q' : α → Prop} (hp : p.Gives text Q) (h : ∀ a, Q a → Q' a) :
    p.Gives text Q' where
  value hts hrun := (hp.value hts hrun).imp_left (h _)
  found := hp.found

/-- The reader stays in the text, whatever it gives. -/
theorem Gives.any {p : Reader α} (hp : p.Gives text Q) : p.Gives text fun _ => True :=
  hp.mono fun _ _ => trivial

theorem gives_pure {a : α} (h : Q a) : (pure a : Reader α).Gives text Q where
  value hts hrun := by
    cases hrun
    exact ⟨h, hts⟩
  found _ hrun := by cases hrun

theorem gives_none : (pure none : Reader (Option α)).Gives text fun o => ∀ a ∈ o, Q a :=
  gives_pure (by rintro _ ⟨⟩)

theorem gives_some {a : α} (h : Q a) :
    (pure (some a) : Reader (Option α)).Gives text fun o => ∀ a ∈ o, Q a :=
  gives_pure fun b hb => by
    cases hb
    exact h

theorem Gives.bind {p : Reader α} {f : α → Reader β} (hp : p.Gives text Q)
    (hf : ∀ a, Q a → (f a).Gives text R) : (p >>= f).Gives text R where
  value hts hrun := by
    obtain ⟨a, mid, ha, hb⟩ := run_bind_eq_ok hrun
    obtain ⟨hQ, hmid⟩ := hp.value hts ha
    exact (hf a hQ).value hmid hb
  found {ts e} hts hrun := by
    change (p.bind f).run ts = _ at hrun
    simp only [Reader.bind] at hrun
    split at hrun
    · cases hrun
      exact hp.found hts ‹_›
    · obtain ⟨hQ, hmid⟩ := hp.value hts ‹_›
      exact (hf _ hQ).found hmid hrun

theorem Gives.map {p : Reader α} {φ : α → β} (hp : p.Gives text Q) (h : ∀ a, Q a → R (φ a)) :
    (φ <$> p).Gives text R :=
  hp.bind fun a ha => gives_pure (h a ha)

theorem gives_fail (expected : Expected) : (fail expected : Reader α).Gives text Q where
  value _ hrun := by cases hrun
  found hts hrun := by
    cases hrun
    exact hts.head?

theorem gives_next? : next?.Gives text fun _ => True where
  value hts hrun := by
    cases hrun
    exact ⟨trivial, hts⟩
  found _ hrun := by cases hrun

theorem gives_nextIs (t : Token) : (nextIs t).Gives text fun _ => True where
  value hts hrun := by
    cases hrun
    exact ⟨trivial, hts⟩
  found _ hrun := by cases hrun

theorem gives_token (expected : Expected) (value? : Token → Option α) :
    (token expected value?).Gives text (·.Reads value? text) where
  value hts hrun := by
    obtain ⟨t, rfl, hvalue, hspan⟩ := run_token_eq_ok hrun
    exact ⟨⟨t.token, hspan ▸ hts.head, hvalue⟩, hts.tail⟩
  found {ts e} hts hrun := by
    cases ts with
    | nil =>
      cases hrun
      exact hts.head?
    | cons t ts =>
      simp only [token] at hrun
      split at hrun
      · cases hrun
      · cases hrun
        exact hts.head?

theorem Gives.labelled {p : Reader α} (hp : p.Gives text Q) (expected : Expected) :
    (p.labelled expected).Gives text Q where
  value hts hrun := by
    simp only [Reader.labelled] at hrun
    split at hrun
    · cases hrun
    · cases hrun
      exact hp.value hts ‹_›
  found hts hrun := by
    simp only [Reader.labelled] at hrun
    split at hrun
    · rename_i e he
      cases hrun
      have hfound := hp.found hts he
      exact hfound
    · cases hrun

theorem Gives.optional {p : Reader α} (hp : p.Gives text Q) :
    (optional p).Gives text fun o => ∀ a ∈ o, Q a where
  value hts hrun := by
    simp only [Reader.optional] at hrun
    split at hrun
    · cases hrun
      exact ⟨by rintro _ ⟨⟩, hts⟩
    · cases hrun
      obtain ⟨ha, hrest⟩ := hp.value hts ‹_›
      refine ⟨fun b hb => ?_, hrest⟩
      cases hb
      exact ha
  found hts hrun := by
    simp only [Reader.optional] at hrun
    split at hrun <;> cases hrun

/-- What holds of each turn holds of all values. -/
theorem Gives.iterate {p : Reader (Option α)} (hp : p.Gives text fun o => ∀ a ∈ o, Q a) :
    (iterate p).Gives text fun as => ∀ a ∈ as, Q a where
  value {ts as rest} hts hrun := by
    change iterateRun p ts = _ at hrun
    fun_induction iterateRun p ts generalizing as rest with
    | case1 => cases hrun
    | case2 ts rest h =>
      cases hrun
      exact ⟨List.forall_mem_nil _, (hp.value hts h).2⟩
    | case3 => cases hrun
    | case4 ts a mid h hlt as last hlast ih =>
      cases hrun
      obtain ⟨ha, hmid⟩ := hp.value hts h
      obtain ⟨has, hrest⟩ := ih hmid hlast
      exact ⟨List.forall_mem_cons.mpr ⟨ha a rfl, has⟩, hrest⟩
    | case5 ts a rest h hlt =>
      cases hrun
      obtain ⟨ha, hrest⟩ := hp.value hts h
      exact ⟨List.forall_mem_singleton.mpr (ha a rfl), hrest⟩
  found {ts e} hts hrun := by
    change iterateRun p ts = _ at hrun
    fun_induction iterateRun p ts with
    | case1 ts e h =>
      cases hrun
      exact hp.found hts h
    | case2 => cases hrun
    | case3 ts a mid h hlt e hmid ih =>
      cases hrun
      exact ih (hp.value hts h).2 hmid
    | case4 => cases hrun
    | case5 => cases hrun

theorem Gives.separated {p : Reader α} {s : Reader β} (hp : p.Gives text Q)
    (hs : s.Gives text R) : (separated p s).Gives text fun as => ∀ a ∈ as, Q a :=
  hp.bind fun _ hfirst => (hs.bind fun _ _ => hp).optional.iterate.bind fun _ hothers =>
    gives_pure (List.forall_mem_cons.mpr ⟨hfirst, hothers⟩)

theorem Gives.separatedOrNone {p : Reader α} {s : Reader β} (hp : p.Gives text Q)
    (hs : s.Gives text R) : (separatedOrNone p s).Gives text fun _ => True :=
  (hp.separated hs).optional.bind fun _ _ => gives_pure trivial

end Reader

/-! ### What has a place -/

/-- The name of a reference was read in a text, and its selector stands there. -/
structure Reference.Placed (r : Reference) (text : String) : Prop where
  name : r.name.Reads Phrase.name? text
  selector : ∀ s ∈ r.selectorSpan, s.Within text

theorem Reference.Placed.span {r : Reference} (h : r.Placed text) : r.span.Within text := by
  unfold Reference.span
  cases hselector : r.selectorSpan with
  | none => exact h.name.within
  | some s => exact h.name.within.union (h.selector s hselector)

/-- The names and the source of an import stand in a text. -/
structure Import.Placed (i : Import) (text : String) : Prop where
  names : ∀ n ∈ i.names, n.name.span.Within text
  source : i.source.span.Within text

/-- The reference that a step makes, if it makes one. -/
def Step.references : Step → List Reference
  | .reference target _ => [target]
  | .node _ => []

/-- The references of an action: its target, and what it leads to. -/
def Action.references (a : Action) : List Reference := a.target :: a.outputs.map (·.target)

/-! ### Phrases -/

namespace Phrase

open Reader

variable (text : String)

theorem gives_mark (t : Token) : (mark t).Gives text (·.Within text) :=
  (gives_token _ _).map fun _ h => h.within

theorem gives_keyword (word : String) : (keyword word).Gives text (·.Within text) :=
  (gives_token _ _).map fun _ h => h.within

theorem gives_identifier : identifier.Gives text (·.Reads Token.identifier? text) :=
  gives_token _ _

theorem gives_stringLiteral : stringLiteral.Gives text (·.Reads literal? text) := gives_token _ _

theorem gives_name : name.Gives text (·.Reads name? text) := gives_token _ _

theorem gives_value : value.Gives text (·.Reads value? text) := gives_token _ _

theorem gives_version : version.Gives text (·.Reads version? text) := gives_token _ _

theorem gives_values : values.Gives text fun _ => True :=
  (gives_mark text _).bind fun _ _ =>
    ((gives_value text).separatedOrNone (gives_mark text _)).bind fun _ _ =>
      (gives_mark text _).optional.bind fun _ _ => (gives_mark text _).bind fun _ _ =>
        gives_pure trivial

theorem gives_selector : selector.Gives text fun o => ∀ s ∈ o, s.span.Within text :=
  (gives_token _ _).optional.bind fun o ho => by
    cases o with
    | some s => exact gives_some (ho s rfl).within
    | none =>
      exact Gives.optional <| (gives_mark text _).bind fun _ hsign =>
        (gives_stringLiteral text).bind fun _ hliteral =>
          gives_pure (hsign.union hliteral.within)

theorem gives_reference : reference.Gives text (·.Placed text) :=
  ((gives_name text).labelled _).bind fun _ hname => (gives_selector text).bind fun o ho => by
    cases o with
    | some s =>
      refine gives_pure ⟨hname, fun s' hs' => ?_⟩
      cases hs'
      exact ho s rfl
    | none => exact gives_pure ⟨hname, by rintro _ ⟨⟩⟩

theorem gives_typedReference : typedReference.Gives text (·.target.Placed text) :=
  (gives_token _ _).bind fun _ _ => (gives_reference text).bind fun _ h => gives_pure h

theorem gives_importedName : importedName.Gives text (·.name.span.Within text) :=
  (gives_name text).bind fun _ hname =>
    ((gives_keyword text _).bind fun _ _ => gives_name text).optional.bind fun _ _ =>
      gives_pure hname.within

theorem gives_importStatement : importStatement.Gives text (·.Placed text) :=
  (gives_keyword text _).bind fun _ _ => (gives_mark text _).bind fun _ _ =>
    ((gives_importedName text).separated (gives_mark text _)).bind fun _ hnames =>
      (gives_mark text _).optional.bind fun _ _ => (gives_mark text _).bind fun _ _ =>
        (gives_keyword text _).bind fun _ _ => ((gives_stringLiteral text).labelled _).bind
          fun _ hsource => gives_pure ⟨hnames, hsource.within⟩

theorem gives_argument : argument.Gives text fun _ => True :=
  ((gives_identifier text).bind fun _ _ => (gives_mark text _).bind fun _ _ =>
    gives_pure trivial).optional.bind fun _ (_ : ∀ _ ∈ _, True) =>
      (gives_value text).bind fun _ _ => gives_pure trivial

theorem gives_note : note.Gives text fun _ => True :=
  (gives_mark text _).bind fun _ _ => ((gives_identifier text).labelled _).bind fun _ _ =>
    (gives_mark text _).optional.bind fun o _ => by
      cases o with
      | none => exact gives_pure trivial
      | some _ =>
        exact ((gives_argument text).separatedOrNone (gives_mark text _)).bind fun _ _ =>
          (gives_mark text _).optional.bind fun _ _ => (gives_mark text _).bind fun _ _ =>
            gives_pure trivial

theorem gives_parameterField : parameterField.Gives text fun _ => True :=
  (gives_token _ _).bind fun field _ => by
    split
    · exact (gives_values text).bind fun _ _ => gives_pure trivial
    · exact (gives_value text).bind fun _ _ => gives_pure trivial

theorem gives_unlessClosed {α : Type} {Q : α → Prop} {p : Reader α} (hp : p.Gives text Q) :
    (unlessClosed p).Gives text fun o => ∀ a ∈ o, Q a :=
  (gives_nextIs _).bind fun closed _ => by
    split
    · exact gives_none
    · exact hp.bind fun _ => gives_some

theorem gives_parameter : parameter.Gives text fun _ => True :=
  (gives_keyword text _).bind fun _ _ => (gives_name text).bind fun _ _ =>
    (gives_mark text _).optional.bind fun o _ => by
      cases o with
      | none => exact gives_pure trivial
      | some _ =>
        exact (gives_unlessClosed text (gives_parameterField text)).iterate.bind fun _ _ =>
          (gives_mark text _).bind fun _ _ => gives_pure trivial

theorem gives_contractField : contractField.Gives text fun _ => True :=
  ((gives_identifier text).labelled _).bind fun _ _ => (gives_value text).bind fun _ _ =>
    gives_pure trivial

theorem gives_contract : contract.Gives text fun _ => True :=
  (gives_mark text _).bind fun _ _ => (gives_keyword text _).bind fun _ _ =>
    (gives_mark text _).bind fun _ _ =>
      (gives_unlessClosed text (gives_contractField text)).iterate.bind fun _ _ =>
        (gives_mark text _).bind fun _ _ => (gives_mark text _).bind fun _ _ => gives_pure trivial

theorem gives_sameLineLabel : sameLineLabel.Gives text fun _ => True :=
  gives_next?.bind fun o _ => by
    cases o with
    | none => exact gives_pure trivial
    | some t =>
      simp only
      split
      · exact gives_pure trivial
      · exact (gives_stringLiteral text).optional.any

theorem gives_step : step.Gives text fun s => ∀ r ∈ s.references, r.Placed text :=
  (gives_stringLiteral text).optional.bind fun o _ => by
    cases o with
    | some label => exact gives_pure (List.forall_mem_nil _)
    | none =>
      exact ((gives_reference text).labelled _).bind fun _ h =>
        (gives_sameLineLabel text).bind fun _ _ => gives_pure (List.forall_mem_singleton.mpr h)

theorem gives_afterArrow {α : Type} {Q : α → Prop} {p : Reader α} (hp : p.Gives text Q) :
    (afterArrow p).Gives text fun o => ∀ a ∈ o, Q a :=
  (gives_mark text _).optional.bind fun o _ => by
    cases o with
    | none => exact gives_none
    | some _ => exact hp.bind fun _ => gives_some

theorem gives_chain : chain.Gives text fun steps =>
    ∀ s ∈ steps, ∀ r ∈ s.references, r.Placed text :=
  (gives_step text).bind fun _ hfirst =>
    (gives_afterArrow text (gives_step text)).iterate.bind fun _ hothers =>
      gives_pure (List.forall_mem_cons.mpr ⟨hfirst, hothers⟩)

theorem gives_output : output.Gives text (·.target.Placed text) :=
  ((gives_stringLiteral text).bind fun _ _ => (gives_mark text _).bind fun _ _ =>
    gives_pure trivial).optional.bind fun _ (_ : ∀ _ ∈ _, True) =>
      (gives_reference text).bind fun _ h => gives_pure h

theorem gives_action : action.Gives text fun a => ∀ r ∈ a.references, r.Placed text :=
  ((gives_reference text).labelled _).bind fun _ htarget =>
    (gives_sameLineLabel text).bind fun _ _ =>
      (gives_afterArrow text (gives_output text)).iterate.bind fun _ houtputs =>
        gives_pure (List.forall_mem_cons.mpr ⟨htarget, List.forall_mem_map.mpr houtputs⟩)

end Phrase

end Syntax

end EventCatalog
