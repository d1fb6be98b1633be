import EventCatalog.Syntax.Phrase

/-! # A closing brace stops readers

What a reader gives may change when lexemes are added behind the last one, as it may take them as
well.  Three predicates tell which readers do not see them:

* `Reader.Barred p`: the reader takes no closing brace and does not look behind one.  Nearly all
  phrases are of this kind.
* `Reader.Definite p`: what a success takes decides it, whatever follows.
* `Reader.Stable p`: a success on lexemes with a closing brace among them stays the same.  This is
  what is left for parameters and contracts, which have braces of their own.

The closure lemmas for the combinators come first, then one lemma for each phrase. -/

namespace EventCatalog.Syntax

/-- Whether there is a closing brace among some lexemes. -/
def Closes (ts : List Lexeme) : Prop := ∃ t ∈ ts, t.token = .rightBrace

namespace Closes

variable {ts us : List Lexeme}

theorem append_right (h : Closes us) (ts : List Lexeme) : Closes (ts ++ us) := by
  obtain ⟨t, ht, hbrace⟩ := h
  exact ⟨t, List.mem_append_right ts ht, hbrace⟩

theorem of_append (h : Closes (ts ++ us)) (hts : ¬ Closes ts) : Closes us := by
  obtain ⟨t, ht, hbrace⟩ := h
  exact ⟨t, (List.mem_append.mp ht).resolve_left fun ht => hts ⟨t, ht, hbrace⟩, hbrace⟩

end Closes

theorem not_closes_nil : ¬ Closes [] := by
  rintro ⟨t, ht, -⟩
  cases ht

theorem not_closes_append {ts us : List Lexeme} (hts : ¬ Closes ts) (hus : ¬ Closes us) :
    ¬ Closes (ts ++ us) := fun h => hus (h.of_append hts)

theorem not_closes_singleton {t : Lexeme} (h : t.token ≠ .rightBrace) : ¬ Closes [t] := by
  rintro ⟨u, hu, hbrace⟩
  obtain rfl := List.mem_singleton.mp hu
  exact h hbrace

namespace Reader

variable {α β : Type}

/-- What a reader gives, with more lexemes behind the rest. -/
def behind (more : List Lexeme) :
    Except Failure (α × List Lexeme) → Except Failure (α × List Lexeme)
  | .ok (a, rest) => .ok (a, rest ++ more)
  | .error e => .error e

/-- The reader takes no closing brace and does not look behind one. -/
structure Barred (p : Reader α) : Prop where
  taken : ∀ {ts a rest}, p.run ts = .ok (a, rest) → ∃ taken, ts = taken ++ rest ∧ ¬ Closes taken
  run_append : ∀ {ts}, Closes ts → ∀ more, p.run (ts ++ more) = behind more (p.run ts)

/-- What a success takes decides it. -/
def Definite (p : Reader α) : Prop :=
  ∀ ts a rest, p.run ts = .ok (a, rest) →
    ∃ taken, ts = taken ++ rest ∧ ∀ more, p.run (taken ++ more) = .ok (a, more)

/-- A success on lexemes with a closing brace among them is not changed by more lexemes. -/
def Stable (p : Reader α) : Prop :=
  ∀ ts a rest, p.run ts = .ok (a, rest) → ∃ taken, ts = taken ++ rest ∧
    (Closes ts → ∀ more, p.run (ts ++ more) = .ok (a, rest ++ more))

/-- A success takes a closing brace. -/
def Closing (p : Reader α) : Prop := ∀ ts a rest, p.run ts = .ok (a, rest) → Closes ts

theorem run_bind_ok {p : Reader α} {f : α → Reader β} {ts rest : List Lexeme} {a : α}
    (h : p.run ts = .ok (a, rest)) : (p >>= f).run ts = (f a).run rest := by
  change (p.bind f).run ts = _
  simp only [Reader.bind, h]

theorem run_map (f : α → β) (p : Reader α) (ts : List Lexeme) :
    (f <$> p).run ts = (p.run ts).map fun (a, rest) => (f a, rest) := by
  change (p.bind fun a => pure (f a)).run ts = _
  simp only [Reader.bind]
  cases p.run ts <;> rfl

theorem run_bind_eq_ok {p : Reader α} {f : α → Reader β} {ts : List Lexeme} {b : β}
    {rest : List Lexeme} (h : (p >>= f).run ts = .ok (b, rest)) :
    ∃ a mid, p.run ts = .ok (a, mid) ∧ (f a).run mid = .ok (b, rest) := by
  change (p.bind f).run ts = _ at h
  simp only [Reader.bind] at h
  split at h
  · cases h
  · exact ⟨_, _, ‹_›, h⟩

theorem run_bind_of_ok {p : Reader α} {ts mid : List Lexeme} {a : α}
    (h : p.run ts = .ok (a, mid)) (f : α → Reader β) : (p >>= f).run ts = (f a).run mid := by
  change (p.bind f).run ts = _
  simp only [Reader.bind, h]

theorem run_of_take {p : Reader α} {hp : p.Strict} {ts : List Lexeme} {x : Taken α ts}
    (h : p.take hp ts = .ok x) : p.run ts = .ok (x.value, x.rest) := by
  unfold take at h
  split at h
  · cases h
  · rename_i hrun
    cases h
    exact hrun

/-! ### Readers that a closing brace stops -/

theorem Barred.closes_rest {p : Reader α} (hp : p.Barred) {ts rest : List Lexeme} {a : α}
    (h : p.run ts = .ok (a, rest)) (hts : Closes ts) : Closes rest := by
  obtain ⟨taken, rfl, htaken⟩ := hp.taken h
  exact hts.of_append htaken

theorem barred_pure (a : α) : (pure a : Reader α).Barred where
  taken h := by
    cases h
    exact ⟨[], rfl, not_closes_nil⟩
  run_append _ _ := rfl

theorem Barred.bind {p : Reader α} {f : α → Reader β} (hp : p.Barred)
    (hf : ∀ a, (f a).Barred) : (p >>= f).Barred where
  taken h := by
    obtain ⟨a, mid, ha, hb⟩ := run_bind_eq_ok h
    obtain ⟨taken, rfl, htaken⟩ := hp.taken ha
    obtain ⟨taken', rfl, htaken'⟩ := (hf a).taken hb
    exact ⟨taken ++ taken', (List.append_assoc ..).symm, not_closes_append htaken htaken'⟩
  run_append {ts} hts more := by
    change (p.bind f).run (ts ++ more) = behind more ((p.bind f).run ts)
    simp only [Reader.bind, hp.run_append hts more]
    cases h : p.run ts with
    | error e => rfl
    | ok r => exact (hf r.1).run_append (hp.closes_rest h hts) more

theorem Barred.map {p : Reader α} (hp : p.Barred) (f : α → β) : (f <$> p).Barred :=
  hp.bind fun a => barred_pure (f a)

theorem head?_append_of_closes {ts : List Lexeme} (h : Closes ts) (more : List Lexeme) :
    (ts ++ more).head? = ts.head? := by
  cases ts with
  | nil => exact absurd h not_closes_nil
  | cons t ts => rfl

theorem barred_fail (expected : Expected) : (fail expected : Reader α).Barred where
  taken h := by cases h
  run_append h more := by
    simp only [fail, behind, head?_append_of_closes h]

theorem barred_next? : next?.Barred where
  taken h := by
    cases h
    exact ⟨[], rfl, not_closes_nil⟩
  run_append h more := by simp only [next?, behind, head?_append_of_closes h]

theorem barred_nextIs (t : Token) : (nextIs t).Barred where
  taken h := by
    cases h
    exact ⟨[], rfl, not_closes_nil⟩
  run_append h more := by simp only [nextIs, behind, head?_append_of_closes h]

theorem run_token_eq_ok {expected : Expected} {value? : Token → Option α} {ts rest : List Lexeme}
    {x : Located α} (h : (token expected value?).run ts = .ok (x, rest)) :
    ∃ t, ts = t :: rest ∧ value? t.token = some x.value ∧ x.span = t.span := by
  cases ts with
  | nil => cases h
  | cons t ts =>
    simp only [token] at h
    split at h
    · rename_i a ha
      cases h
      exact ⟨t, rfl, ha, rfl⟩
    · cases h

theorem barred_token (expected : Expected) {value? : Token → Option α}
    (h : value? .rightBrace = none) : (token expected value?).Barred where
  taken hrun := by
    obtain ⟨t, rfl, ht, -⟩ := run_token_eq_ok hrun
    refine ⟨[t], rfl, not_closes_singleton fun hbrace => ?_⟩
    rw [hbrace, h] at ht
    cases ht
  run_append {ts} hts more := by
    cases ts with
    | nil => exact absurd hts not_closes_nil
    | cons t ts =>
      simp only [List.cons_append, token]
      cases value? t.token <;> rfl

theorem Barred.labelled {p : Reader α} (hp : p.Barred) (expected : Expected) :
    (p.labelled expected).Barred where
  taken h := by
    simp only [Reader.labelled] at h
    split at h
    · cases h
    · cases h
      exact hp.taken ‹_›
  run_append {ts} hts more := by
    simp only [Reader.labelled, hp.run_append hts more]
    cases p.run ts <;> rfl

theorem Barred.optional {p : Reader α} (hp : p.Barred) : (optional p).Barred where
  taken h := by
    simp only [Reader.optional] at h
    split at h
    · cases h
      exact ⟨[], rfl, not_closes_nil⟩
    · cases h
      exact hp.taken ‹_›
  run_append {ts} hts more := by
    simp only [Reader.optional, hp.run_append hts more]
    cases p.run ts <;> rfl

theorem Barred.iterate {p : Reader (Option α)} (hp : p.Barred) : (iterate p).Barred where
  taken {ts as rest} h := by
    change iterateRun p ts = _ at h
    fun_induction iterateRun p ts generalizing as rest with
    | case1 => cases h
    | case2 ts rest hrun =>
      cases h
      exact hp.taken hrun
    | case3 => cases h
    | case4 ts a mid hrun hlt as last hlast ih =>
      cases h
      obtain ⟨taken, rfl, htaken⟩ := hp.taken hrun
      obtain ⟨taken', rfl, htaken'⟩ := ih hlast
      exact ⟨taken ++ taken', (List.append_assoc ..).symm, not_closes_append htaken htaken'⟩
    | case5 ts a rest hrun hlt =>
      cases h
      exact hp.taken hrun
  run_append {ts} hts more := by
    change iterateRun p (ts ++ more) = behind more (iterateRun p ts)
    fun_induction iterateRun p ts with
    | case1 ts e h =>
      rw [iterateRun, hp.run_append hts, h]
      rfl
    | case2 ts rest h =>
      rw [iterateRun, hp.run_append hts, h]
      rfl
    | case3 ts a rest h hlt e hi ih =>
      rw [iterateRun, hp.run_append hts, h]
      simp only [behind, List.length_append, Nat.add_lt_add_iff_right, hlt, if_true]
      rw [ih (hp.closes_rest h hts), hi]
      rfl
    | case4 ts a rest h hlt as last hi ih =>
      rw [iterateRun, hp.run_append hts, h]
      simp only [behind, List.length_append, Nat.add_lt_add_iff_right, hlt, if_true]
      rw [ih (hp.closes_rest h hts), hi]
      rfl
    | case5 ts a rest h hlt =>
      rw [iterateRun, hp.run_append hts, h]
      simp only [behind, List.length_append, Nat.add_lt_add_iff_right, hlt, if_false]

theorem Barred.separated {p : Reader α} {s : Reader β} (hp : p.Barred) (hs : s.Barred) :
    (separated p s).Barred :=
  hp.bind fun _ => (hs.bind fun _ => hp).optional.iterate.bind fun _ => barred_pure _

theorem Barred.separatedOrNone {p : Reader α} {s : Reader β} (hp : p.Barred) (hs : s.Barred) :
    (separatedOrNone p s).Barred :=
  (hp.separated hs).optional.bind fun _ => barred_pure _

/-! ### Readers that what they take decides -/

theorem Definite.run_append {p : Reader α} (hp : p.Definite) {ts rest : List Lexeme} {a : α}
    (h : p.run ts = .ok (a, rest)) (more : List Lexeme) :
    p.run (ts ++ more) = .ok (a, rest ++ more) := by
  obtain ⟨taken, rfl, hrun⟩ := hp _ _ _ h
  rw [List.append_assoc, hrun]

theorem definite_pure (a : α) : (pure a : Reader α).Definite := by
  intro ts b rest h
  cases h
  exact ⟨[], rfl, fun more => rfl⟩

theorem Definite.bind {p : Reader α} {f : α → Reader β} (hp : p.Definite)
    (hf : ∀ a, (f a).Definite) : (p >>= f).Definite := by
  intro ts b rest h
  obtain ⟨a, mid, ha, hb⟩ := run_bind_eq_ok h
  obtain ⟨taken, rfl, htaken⟩ := hp _ _ _ ha
  obtain ⟨taken', rfl, htaken'⟩ := hf a _ _ _ hb
  refine ⟨taken ++ taken', (List.append_assoc ..).symm, fun more => ?_⟩
  rw [List.append_assoc, run_bind_of_ok (htaken _), htaken']

theorem definite_token (expected : Expected) (value? : Token → Option α) :
    (token expected value?).Definite := by
  intro ts x rest h
  obtain ⟨t, rfl, ht, hspan⟩ := run_token_eq_ok h
  refine ⟨[t], rfl, fun more => ?_⟩
  simp only [List.singleton_append, token, ht, ← hspan]

theorem Definite.labelled {p : Reader α} (hp : p.Definite) (expected : Expected) :
    (p.labelled expected).Definite := by
  intro ts a rest h
  simp only [Reader.labelled] at h
  split at h
  · cases h
  · cases h
    obtain ⟨taken, rfl, htaken⟩ := hp _ _ _ ‹_›
    exact ⟨taken, rfl, fun more => by simp only [Reader.labelled, htaken]⟩

/-! ### Readers whose success stays -/

theorem Barred.stable {p : Reader α} (hp : p.Barred) : p.Stable := by
  intro ts a rest h
  obtain ⟨taken, htaken, -⟩ := hp.taken h
  refine ⟨taken, htaken, fun hts more => ?_⟩
  rw [hp.run_append hts, h]
  rfl

theorem Definite.stable {p : Reader α} (hp : p.Definite) : p.Stable := by
  intro ts a rest h
  obtain ⟨taken, htaken, -⟩ := hp _ _ _ h
  exact ⟨taken, htaken, fun _ more => hp.run_append h more⟩

theorem Barred.bind_stable {p : Reader α} {f : α → Reader β} (hp : p.Barred)
    (hf : ∀ a, (f a).Stable) : (p >>= f).Stable := by
  intro ts b rest h
  obtain ⟨a, mid, ha, hb⟩ := run_bind_eq_ok h
  obtain ⟨taken', hmid, hstable⟩ := hf a _ _ _ hb
  obtain ⟨taken, hts, -⟩ := hp.taken ha
  refine ⟨taken ++ taken', by rw [hts, hmid, List.append_assoc], fun hcloses more => ?_⟩
  have ha' : p.run (ts ++ more) = .ok (a, mid ++ more) := by
    rw [hp.run_append hcloses, ha]
    rfl
  rw [run_bind_of_ok ha', hstable (hp.closes_rest ha hcloses)]

theorem Stable.bind_definite {p : Reader α} {f : α → Reader β} (hp : p.Stable)
    (hf : ∀ a, (f a).Definite) : (p >>= f).Stable := by
  intro ts b rest h
  obtain ⟨a, mid, ha, hb⟩ := run_bind_eq_ok h
  obtain ⟨taken, hts, hstable⟩ := hp _ _ _ ha
  obtain ⟨taken', hmid, -⟩ := hf a _ _ _ hb
  refine ⟨taken ++ taken', by rw [hts, hmid, List.append_assoc], fun hcloses more => ?_⟩
  rw [run_bind_of_ok (hstable hcloses more), (hf a).run_append hb]

theorem Stable.map {p : Reader α} (hp : p.Stable) (f : α → β) : (f <$> p).Stable :=
  hp.bind_definite fun a => definite_pure (f a)

theorem Barred.bind_closing {p : Reader α} {f : α → Reader β} (hp : p.Barred)
    (hf : ∀ a, (f a).Closing) : (p >>= f).Closing := by
  intro ts b rest h
  obtain ⟨a, mid, ha, hb⟩ := run_bind_eq_ok h
  obtain ⟨taken, rfl, -⟩ := hp.taken ha
  exact (hf a _ _ _ hb).append_right taken

end Reader

/-! ### Phrases -/

namespace Phrase

open Reader

theorem barred_mark {t : Token} (h : t ≠ .rightBrace) : (mark t).Barred :=
  (barred_token _ (if_neg h.symm)).map _

theorem definite_mark (t : Token) : (mark t).Definite :=
  (definite_token _ _).bind fun _ => definite_pure _

theorem barred_keyword (word : String) : (keyword word).Barred := (barred_token _ rfl).map _

theorem definite_keyword (word : String) : (keyword word).Definite :=
  (definite_token _ _).bind fun _ => definite_pure _

theorem barred_identifier : identifier.Barred := barred_token _ rfl

theorem barred_stringLiteral : stringLiteral.Barred := barred_token _ rfl

theorem barred_name : name.Barred := barred_token _ rfl

theorem barred_value : value.Barred := barred_token _ rfl

theorem barred_version : version.Barred := barred_token _ rfl

theorem barred_boolean : boolean.Barred := barred_token _ rfl

theorem barred_kind : kind.Barred := barred_token _ rfl

theorem barred_messageKind : messageKind.Barred := barred_token _ rfl

theorem barred_comma : (mark .comma).Barred := barred_mark (by decide)

theorem barred_values : values.Barred :=
  (barred_mark (by decide)).bind fun _ =>
    (barred_value.separatedOrNone barred_comma).bind fun _ => barred_comma.optional.bind fun _ =>
      (barred_mark (by decide)).bind fun _ => barred_pure _

theorem barred_selector : selector.Barred := by
  refine Barred.bind (Barred.optional (barred_token _ rfl)) fun o => ?_
  cases o with
  | some s => exact barred_pure _
  | none =>
    exact Barred.optional <| (barred_mark (by decide)).bind fun _ =>
      barred_stringLiteral.bind fun _ => barred_pure _

theorem barred_reference : reference.Barred := by
  refine (barred_name.labelled _).bind fun _ => barred_selector.bind fun o => ?_
  cases o <;> exact barred_pure _

theorem barred_typedReference : typedReference.Barred :=
  barred_kind.bind fun _ => barred_reference.bind fun _ => barred_pure _

theorem barred_importedName : importedName.Barred :=
  barred_name.bind fun _ =>
    ((barred_keyword _).bind fun _ => barred_name).optional.bind fun _ => barred_pure _

theorem barred_argument : argument.Barred :=
  (barred_identifier.bind fun _ => (barred_mark (by decide)).bind fun _ =>
    barred_pure _).optional.bind fun _ => barred_value.bind fun _ => barred_pure _

theorem barred_note : note.Barred := by
  refine (barred_mark (by decide)).bind fun _ => (barred_identifier.labelled _).bind fun _ =>
    (barred_mark (by decide)).optional.bind fun o => ?_
  cases o with
  | none => exact barred_pure _
  | some s =>
    exact (barred_argument.separatedOrNone barred_comma).bind fun _ =>
      barred_comma.optional.bind fun _ => (barred_mark (by decide)).bind fun _ => barred_pure _

theorem barred_parameterField : parameterField.Barred := by
  refine Barred.bind (barred_token _ rfl) fun field => ?_
  split
  · exact barred_values.bind fun _ => barred_pure _
  · exact barred_value.bind fun _ => barred_pure _

theorem barred_unlessClosed {α : Type} {p : Reader α} (hp : p.Barred) :
    (unlessClosed p).Barred := by
  refine (barred_nextIs _).bind fun b => ?_
  cases b with
  | true => exact barred_pure _
  | false => exact hp.bind fun _ => barred_pure _

theorem barred_contractField : contractField.Barred :=
  (barred_identifier.labelled _).bind fun _ => barred_value.bind fun _ => barred_pure _

theorem barred_sameLineLabel : sameLineLabel.Barred := by
  refine barred_next?.bind fun o => ?_
  cases o with
  | none => exact barred_pure _
  | some t =>
    change Barred (if t.startsLine then pure none else Reader.optional stringLiteral)
    split
    · exact barred_pure _
    · exact barred_stringLiteral.optional

theorem barred_step : step.Barred := by
  refine barred_stringLiteral.optional.bind fun o => ?_
  cases o with
  | some label => exact barred_pure _
  | none =>
    exact (barred_reference.labelled _).bind fun _ => barred_sameLineLabel.bind fun _ =>
      barred_pure _

theorem barred_afterArrow {α : Type} {p : Reader α} (hp : p.Barred) : (afterArrow p).Barred := by
  refine (barred_mark (by decide)).optional.bind fun o => ?_
  cases o with
  | none => exact barred_pure _
  | some s => exact hp.bind fun _ => barred_pure _

theorem barred_chain : chain.Barred :=
  barred_step.bind fun _ => (barred_afterArrow barred_step).iterate.bind fun _ => barred_pure _

theorem barred_output : output.Barred :=
  (barred_stringLiteral.bind fun _ => (barred_mark (by decide)).bind fun _ =>
    barred_pure _).optional.bind fun _ => barred_reference.bind fun _ => barred_pure _

theorem barred_action : action.Barred :=
  (barred_reference.labelled _).bind fun _ => barred_sameLineLabel.bind fun _ =>
    (barred_afterArrow barred_output).iterate.bind fun _ => barred_pure _

/-! ### Phrases with braces of their own -/

theorem stable_parameter : parameter.Stable := by
  refine (barred_keyword _).bind_stable fun _ => barred_name.bind_stable fun _ =>
    (barred_mark (by decide)).optional.bind_stable fun o => ?_
  cases o with
  | none => exact (definite_pure _).stable
  | some s =>
    exact (barred_unlessClosed barred_parameterField).iterate.bind_stable fun _ =>
      ((definite_mark _).bind fun _ => definite_pure _).stable

theorem stable_contract : contract.Stable :=
  (barred_mark (by decide)).bind_stable fun _ => (barred_keyword _).bind_stable fun _ =>
    (barred_mark (by decide)).bind_stable fun _ =>
      (barred_unlessClosed barred_contractField).iterate.bind_stable fun _ =>
        ((definite_mark _).bind fun _ => (definite_mark _).bind fun _ => definite_pure _).stable

theorem closing_mark_bind {α : Type} (f : Span → Reader α) :
    (mark .rightBrace >>= f).Closing := by
  intro ts a rest h
  obtain ⟨s, mid, hmark, -⟩ := run_bind_eq_ok h
  obtain ⟨x, mid', hbrace, -⟩ := run_bind_eq_ok hmark
  obtain ⟨t, rfl, ht, -⟩ := run_token_eq_ok hbrace
  exact ⟨t, List.mem_cons_self, (Option.ite_none_right_eq_some.mp ht).1⟩

theorem closing_importStatement : importStatement.Closing :=
  (barred_keyword _).bind_closing fun _ => (barred_mark (by decide)).bind_closing fun _ =>
    (barred_importedName.separated barred_comma).bind_closing fun _ =>
      barred_comma.optional.bind_closing fun _ => closing_mark_bind _

theorem stable_importStatement : importStatement.Stable :=
  (barred_keyword _).bind_stable fun _ => (barred_mark (by decide)).bind_stable fun _ =>
    (barred_importedName.separated barred_comma).bind_stable fun _ =>
      barred_comma.optional.bind_stable fun _ =>
        ((definite_mark _).bind fun _ => (definite_keyword _).bind fun _ =>
          ((definite_token _ _).labelled _).bind fun _ => definite_pure _).stable

end Phrase

end EventCatalog.Syntax
