import EventCatalog.Proofs.Syntax.Barred.Reader
import EventCatalog.Syntax.Statement

/-! # Braces in what is read

Every reader takes each closing brace behind its opening one (`Shuts 0`), and all but those of
imports, parameters and contracts take no brace at all (`Flat`).  `Reader.Takes` says what a success
has taken; the closure lemmas for the combinators come first, then one lemma for each phrase. -/

namespace EventCatalog

/-- Whether the lexeme is a brace. -/
def Lexeme.isBrace (t : Lexeme) : Bool := t.token == .leftBrace || t.token == .rightBrace

namespace Syntax

/-- There is no brace among the lexemes. -/
def Flat (ts : List Lexeme) : Prop := ∀ t ∈ ts, t.isBrace = false

/-- The closing braces among the lexemes belong to the opening ones among them, but for so many that
belong to braces opened before. -/
inductive Shuts : Nat → List Lexeme → Prop
  | nil : Shuts 0 []
  | lexeme {k : Nat} {t : Lexeme} {ts : List Lexeme} (ht : t.isBrace = false) (h : Shuts k ts) :
      Shuts k (t :: ts)
  | opening {k : Nat} {t : Lexeme} {ts : List Lexeme} (ht : t.token = .leftBrace)
      (h : Shuts (k + 1) ts) : Shuts k (t :: ts)
  | closing {k : Nat} {t : Lexeme} {ts : List Lexeme} (ht : t.token = .rightBrace)
      (h : Shuts k ts) : Shuts (k + 1) (t :: ts)

variable {ts us : List Lexeme} {t : Lexeme} {k l : Nat}

theorem flat_nil : Flat [] := List.forall_mem_nil _

theorem Flat.append (hts : Flat ts) (hus : Flat us) : Flat (ts ++ us) :=
  List.forall_mem_append.mpr ⟨hts, hus⟩

theorem Flat.cons (h : t.isBrace = false) (hts : Flat ts) : Flat (t :: ts) :=
  List.forall_mem_cons.mpr ⟨h, hts⟩

theorem flat_singleton (h : t.isBrace = false) : Flat [t] := flat_nil.cons h

theorem Flat.shuts (h : Flat ts) : Shuts 0 ts := by
  induction ts with
  | nil => exact .nil
  | cons t ts ih =>
    obtain ⟨ht, hts⟩ := List.forall_mem_cons.mp h
    exact .lexeme ht (ih hts)

theorem Shuts.append (hts : Shuts k ts) (hus : Shuts l us) : Shuts (k + l) (ts ++ us) := by
  induction hts with
  | nil =>
    rw [Nat.zero_add]
    exact hus
  | lexeme ht _ ih => exact .lexeme ht ih
  | opening ht _ ih =>
    rw [Nat.add_right_comm] at ih
    exact .opening ht ih
  | closing ht _ ih =>
    rw [Nat.add_right_comm]
    exact .closing ht ih

theorem Flat.append_shuts (hts : Flat ts) (hus : Shuts k us) : Shuts k (ts ++ us) := by
  have h := hts.shuts.append hus
  rw [Nat.zero_add] at h
  exact h

theorem isBrace_of_token {α : Type} (value? : Token → Option α) {a : α}
    (hopen : value? .leftBrace = none) (hclose : value? .rightBrace = none)
    (h : value? t.token = some a) : t.isBrace = false := by
  unfold Lexeme.isBrace
  rw [Bool.or_eq_false_iff, beq_eq_false_iff_ne, beq_eq_false_iff_ne]
  constructor
  · intro ht
    rw [ht, hopen] at h
    cases h
  · intro ht
    rw [ht, hclose] at h
    cases h

namespace Reader

variable {α β : Type} {expected : Expected}

/-- What a success has taken, together with its value. -/
def Takes (P : α → List Lexeme → Prop) (p : Reader α) : Prop :=
  ∀ ts a rest, p.run ts = .ok (a, rest) → ∃ used, ts = used ++ rest ∧ P a used

/-- A success has taken no brace. -/
def TakesFlat (p : Reader α) : Prop := p.Takes fun _ => Flat

/-- A success has taken so many more closing braces than opening ones. -/
def TakesShut (k : Nat) (p : Reader α) : Prop := p.Takes fun _ => Shuts k

variable {P : α → List Lexeme → Prop} {Q R : β → List Lexeme → Prop} {p : Reader α}
  {f : α → Reader β}

/-! ### Combinators -/

theorem Takes.bind (hp : p.Takes P) (hf : ∀ a, (f a).Takes Q)
    (h : ∀ a b us vs, P a us → Q b vs → R b (us ++ vs)) : (p >>= f).Takes R := by
  intro ts b rest hrun
  obtain ⟨a, mid, ha, hb⟩ := run_bind_eq_ok hrun
  obtain ⟨us, rfl, hus⟩ := hp _ _ _ ha
  obtain ⟨vs, rfl, hvs⟩ := hf a _ _ _ hb
  exact ⟨us ++ vs, (List.append_assoc ..).symm, h a b us vs hus hvs⟩

theorem takes_pure {a : α} (h : P a []) : (pure a : Reader α).Takes P := by
  intro ts b rest hrun
  cases hrun
  exact ⟨[], rfl, h⟩

theorem takesFlat_pure (a : α) : (pure a : Reader α).TakesFlat := takes_pure flat_nil

theorem TakesFlat.bind (hp : p.TakesFlat) (hf : ∀ a, (f a).TakesFlat) : (p >>= f).TakesFlat :=
  Takes.bind hp hf fun _ _ _ _ hus hvs => hus.append hvs

theorem TakesFlat.map (hp : p.TakesFlat) (φ : α → β) : (φ <$> p).TakesFlat :=
  hp.bind fun _ => takesFlat_pure _

theorem takesFlat_next? : next?.TakesFlat := by
  intro ts a rest hrun
  cases hrun
  exact ⟨[], rfl, flat_nil⟩

theorem takesFlat_nextIs (t : Token) : (nextIs t).TakesFlat := by
  intro ts a rest hrun
  cases hrun
  exact ⟨[], rfl, flat_nil⟩

theorem takesFlat_token (expected : Expected) {value? : Token → Option α}
    (hopen : value? .leftBrace = none) (hclose : value? .rightBrace = none) :
    (token expected value?).TakesFlat := by
  intro ts a rest hrun
  obtain ⟨t, rfl, hvalue, -⟩ := run_token_eq_ok hrun
  exact ⟨[t], rfl, flat_singleton (isBrace_of_token value? hopen hclose hvalue)⟩

theorem run_labelled_eq_ok {ts rest : List Lexeme} {a : α}
    (h : (p.labelled expected).run ts = .ok (a, rest)) : p.run ts = .ok (a, rest) := by
  simp only [Reader.labelled] at h
  split at h
  · cases h
  · rename_i hok
    cases h
    exact hok

theorem TakesFlat.labelled (hp : p.TakesFlat) (expected : Expected) :
    (p.labelled expected).TakesFlat :=
  fun _ _ _ hrun => hp _ _ _ (run_labelled_eq_ok hrun)

theorem TakesFlat.optional (hp : p.TakesFlat) : (optional p).TakesFlat := by
  intro ts a rest hrun
  simp only [Reader.optional] at hrun
  split at hrun
  · cases hrun
    exact ⟨[], rfl, flat_nil⟩
  · rename_i hok
    cases hrun
    exact hp _ _ _ hok

theorem TakesFlat.iterate {p : Reader (Option α)} (hp : p.TakesFlat) : (iterate p).TakesFlat := by
  intro ts as rest hrun
  change iterateRun p ts = .ok (as, rest) at hrun
  fun_induction iterateRun p ts generalizing as rest with
  | case1 => cases hrun
  | case2 ts last hok =>
    cases hrun
    exact hp _ _ _ hok
  | case3 => cases hrun
  | case4 ts a mid hok hlt as' last hi ih =>
    cases hrun
    obtain ⟨us, rfl, hus⟩ := hp _ _ _ hok
    obtain ⟨vs, rfl, hvs⟩ := ih _ _ hi
    exact ⟨us ++ vs, (List.append_assoc ..).symm, hus.append hvs⟩
  | case5 ts a mid hok hlt =>
    cases hrun
    exact hp _ _ _ hok

theorem TakesFlat.separated {s : Reader β} (hp : p.TakesFlat) (hs : s.TakesFlat) :
    (separated p s).TakesFlat :=
  hp.bind fun _ => (hs.bind fun _ => hp).optional.iterate.bind fun _ => takesFlat_pure _

theorem TakesFlat.separatedOrNone {s : Reader β} (hp : p.TakesFlat) (hs : s.TakesFlat) :
    (separatedOrNone p s).TakesFlat :=
  (hp.separated hs).optional.bind fun _ => takesFlat_pure _

/-! ### Readers that take braces -/

theorem takesShut_pure (a : α) : (pure a : Reader α).TakesShut 0 := takes_pure .nil

theorem TakesFlat.bindShut (hp : p.TakesFlat) (hf : ∀ a, (f a).TakesShut k) :
    (p >>= f).TakesShut k :=
  Takes.bind hp hf fun _ _ _ _ hus hvs => hus.append_shuts hvs

theorem TakesFlat.takesShut (hp : p.TakesFlat) : p.TakesShut 0 := by
  intro ts a rest hrun
  obtain ⟨used, hused, hflat⟩ := hp _ _ _ hrun
  exact ⟨used, hused, hflat.shuts⟩

end Reader

/-! ### Phrases -/

namespace Phrase

open Reader

variable {α : Type}

theorem takesFlat_mark {t : Token} (hopen : t ≠ .leftBrace) (hclose : t ≠ .rightBrace) :
    (mark t).TakesFlat :=
  (takesFlat_token _ (if_neg hopen.symm) (if_neg hclose.symm)).map _

theorem takesFlat_comma : (mark .comma).TakesFlat := takesFlat_mark (by decide) (by decide)

theorem takesFlat_keyword (word : String) : (keyword word).TakesFlat :=
  (takesFlat_token _ rfl rfl).map _

theorem takesFlat_identifier : identifier.TakesFlat := takesFlat_token _ rfl rfl

theorem takesFlat_stringLiteral : stringLiteral.TakesFlat := takesFlat_token _ rfl rfl

theorem takesFlat_name : name.TakesFlat := takesFlat_token _ rfl rfl

theorem takesFlat_value : value.TakesFlat := takesFlat_token _ rfl rfl

theorem takesFlat_version : version.TakesFlat := takesFlat_token _ rfl rfl

theorem takesFlat_boolean : boolean.TakesFlat := takesFlat_token _ rfl rfl

theorem takesFlat_kind : kind.TakesFlat := takesFlat_token _ rfl rfl

theorem takesFlat_values : values.TakesFlat :=
  (takesFlat_mark (by decide) (by decide)).bind fun _ =>
    (takesFlat_value.separatedOrNone takesFlat_comma).bind fun _ =>
      takesFlat_comma.optional.bind fun _ =>
        (takesFlat_mark (by decide) (by decide)).bind fun _ => takesFlat_pure _

theorem takesFlat_selector : selector.TakesFlat := by
  refine TakesFlat.bind (takesFlat_token _ rfl rfl).optional fun o => ?_
  cases o with
  | some s => exact takesFlat_pure _
  | none =>
    exact TakesFlat.optional <| (takesFlat_mark (by decide) (by decide)).bind fun _ =>
      takesFlat_stringLiteral.bind fun _ => takesFlat_pure _

theorem takesFlat_reference : reference.TakesFlat := by
  refine (takesFlat_name.labelled _).bind fun _ => takesFlat_selector.bind fun o => ?_
  cases o <;> exact takesFlat_pure _

theorem takesFlat_typedReference : typedReference.TakesFlat :=
  takesFlat_kind.bind fun _ => takesFlat_reference.bind fun _ => takesFlat_pure _

theorem takesFlat_importedName : importedName.TakesFlat :=
  takesFlat_name.bind fun _ =>
    ((takesFlat_keyword _).bind fun _ => takesFlat_name).optional.bind fun _ => takesFlat_pure _

theorem takesFlat_argument : argument.TakesFlat :=
  (takesFlat_identifier.bind fun _ => (takesFlat_mark (by decide) (by decide)).bind fun _ =>
    takesFlat_pure _).optional.bind fun _ => takesFlat_value.bind fun _ => takesFlat_pure _

theorem takesFlat_note : note.TakesFlat := by
  refine (takesFlat_mark (by decide) (by decide)).bind fun _ =>
    (takesFlat_identifier.labelled _).bind fun _ =>
      (takesFlat_mark (by decide) (by decide)).optional.bind fun o => ?_
  cases o with
  | none => exact takesFlat_pure _
  | some s =>
    exact (takesFlat_argument.separatedOrNone takesFlat_comma).bind fun _ =>
      takesFlat_comma.optional.bind fun _ =>
        (takesFlat_mark (by decide) (by decide)).bind fun _ => takesFlat_pure _

theorem takesFlat_parameterField : parameterField.TakesFlat := by
  refine TakesFlat.bind (takesFlat_token _ rfl rfl) fun field => ?_
  split
  · exact takesFlat_values.bind fun _ => takesFlat_pure _
  · exact takesFlat_value.bind fun _ => takesFlat_pure _

theorem takesFlat_unlessClosed {p : Reader α} (hp : p.TakesFlat) : (unlessClosed p).TakesFlat := by
  refine (takesFlat_nextIs _).bind fun b => ?_
  cases b with
  | true => exact takesFlat_pure _
  | false => exact hp.bind fun _ => takesFlat_pure _

theorem takesFlat_contractField : contractField.TakesFlat :=
  (takesFlat_identifier.labelled _).bind fun _ => takesFlat_value.bind fun _ => takesFlat_pure _

theorem takesFlat_sameLineLabel : sameLineLabel.TakesFlat := by
  refine takesFlat_next?.bind fun o => ?_
  cases o with
  | none => exact takesFlat_pure _
  | some t =>
    change TakesFlat (if t.startsLine then pure none else Reader.optional stringLiteral)
    split
    · exact takesFlat_pure _
    · exact takesFlat_stringLiteral.optional

theorem takesFlat_step : step.TakesFlat := by
  refine takesFlat_stringLiteral.optional.bind fun o => ?_
  cases o with
  | some label => exact takesFlat_pure _
  | none =>
    exact (takesFlat_reference.labelled _).bind fun _ => takesFlat_sameLineLabel.bind fun _ =>
      takesFlat_pure _

theorem takesFlat_afterArrow {p : Reader α} (hp : p.TakesFlat) : (afterArrow p).TakesFlat := by
  refine (takesFlat_mark (by decide) (by decide)).optional.bind fun o => ?_
  cases o with
  | none => exact takesFlat_pure _
  | some s => exact hp.bind fun _ => takesFlat_pure _

theorem takesFlat_chain : chain.TakesFlat :=
  takesFlat_step.bind fun _ =>
    (takesFlat_afterArrow takesFlat_step).iterate.bind fun _ => takesFlat_pure _

theorem takesFlat_output : output.TakesFlat :=
  (takesFlat_stringLiteral.bind fun _ => (takesFlat_mark (by decide) (by decide)).bind fun _ =>
    takesFlat_pure _).optional.bind fun _ => takesFlat_reference.bind fun _ => takesFlat_pure _

theorem takesFlat_action : action.TakesFlat :=
  (takesFlat_reference.labelled _).bind fun _ => takesFlat_sameLineLabel.bind fun _ =>
    (takesFlat_afterArrow takesFlat_output).iterate.bind fun _ => takesFlat_pure _

/-! ### Phrases with braces of their own -/

theorem exists_of_run_mark {t : Token} {s : Span} {ts rest : List Lexeme}
    (h : (mark t).run ts = .ok (s, rest)) : ∃ x, ts = x :: rest ∧ x.token = t := by
  obtain ⟨a, mid, hrun, hpure⟩ := run_bind_eq_ok h
  obtain ⟨x, rfl, hvalue, -⟩ := run_token_eq_ok hrun
  cases hpure
  exact ⟨x, rfl, (Option.ite_none_right_eq_some.mp hvalue).1⟩

theorem takesShut_opening_bind {f : Span → Reader α} {k : Nat} (hf : ∀ s, (f s).TakesShut (k + 1)) :
    (mark .leftBrace >>= f).TakesShut k := by
  intro ts a rest hrun
  obtain ⟨s, mid, hmark, hrest⟩ := run_bind_eq_ok hrun
  obtain ⟨x, rfl, hx⟩ := exists_of_run_mark hmark
  obtain ⟨used, rfl, hused⟩ := hf s _ _ _ hrest
  exact ⟨x :: used, rfl, .opening hx hused⟩

theorem takesShut_closing_bind {f : Span → Reader α} {k : Nat} (hf : ∀ s, (f s).TakesShut k) :
    (mark .rightBrace >>= f).TakesShut (k + 1) := by
  intro ts a rest hrun
  obtain ⟨s, mid, hmark, hrest⟩ := run_bind_eq_ok hrun
  obtain ⟨x, rfl, hx⟩ := exists_of_run_mark hmark
  obtain ⟨used, rfl, hused⟩ := hf s _ _ _ hrest
  exact ⟨x :: used, rfl, .closing hx hused⟩

theorem takesShut_optional_opening_bind {f : Option Span → Reader α} {k : Nat}
    (hnone : (f none).TakesShut k) (hsome : ∀ s, (f (some s)).TakesShut (k + 1)) :
    (optional (mark .leftBrace) >>= f).TakesShut k := by
  intro ts a rest hrun
  obtain ⟨o, mid, hoption, hrest⟩ := run_bind_eq_ok hrun
  simp only [Reader.optional] at hoption
  split at hoption
  · cases hoption
    exact hnone _ _ _ hrest
  · rename_i hmark
    cases hoption
    obtain ⟨x, rfl, hx⟩ := exists_of_run_mark hmark
    obtain ⟨used, rfl, hused⟩ := hsome _ _ _ _ hrest
    exact ⟨x :: used, rfl, .opening hx hused⟩

theorem takesShut_parameter : parameter.TakesShut 0 :=
  (takesFlat_keyword _).bindShut fun _ => takesFlat_name.bindShut fun _ =>
    takesShut_optional_opening_bind (takesShut_pure _) fun _ =>
      (takesFlat_unlessClosed takesFlat_parameterField).iterate.bindShut fun _ =>
        takesShut_closing_bind fun _ => takesShut_pure _

theorem takesShut_contract : contract.TakesShut 0 :=
  takesShut_opening_bind fun _ => (takesFlat_keyword _).bindShut fun _ =>
    takesShut_opening_bind fun _ =>
      (takesFlat_unlessClosed takesFlat_contractField).iterate.bindShut fun _ =>
        takesShut_closing_bind fun _ => takesShut_closing_bind fun _ => takesShut_pure _

theorem takesShut_importStatement : importStatement.TakesShut 0 :=
  (takesFlat_keyword _).bindShut fun _ => takesShut_opening_bind fun _ =>
    (takesFlat_importedName.separated takesFlat_comma).bindShut fun _ =>
      takesFlat_comma.optional.bindShut fun _ => takesShut_closing_bind fun _ =>
        (takesFlat_keyword _).bindShut fun _ =>
          (takesFlat_stringLiteral.labelled _).bindShut fun _ => takesShut_pure _

end Phrase

end Syntax

end EventCatalog
