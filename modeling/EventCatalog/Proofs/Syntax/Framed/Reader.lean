import EventCatalog.Proofs.Syntax.Barred.Reader
import EventCatalog.Proofs.Token.Coverage

/-! # Readers keep to the order of the text

Lexemes stand one behind the other (`Lexeme.Row`), so what a reader puts together stands between the
offset that it starts from and the one that it gets to.  `Reader.Gathers` says so of a reader behind
spans that are already known to stand between two offsets: what is made of these and of what is
read stands between the first of them and the place that the reader gets to.

The functions called `spans` list the spans stored in the parts of a tree.  The closure lemmas for
the combinators come first, then one lemma for each phrase. -/

namespace EventCatalog

open Text

/-! ### Spans between two offsets -/

namespace Span

/-- The span covers characters of a text between two offsets. -/
structure Between (s : Span) (t : Text) (lo hi : Nat) : Prop where
  le_start : lo ≤ s.start
  start_lt : s.start < s.stop
  stop_le : s.stop ≤ hi
  slices : s.Slices t

/-- All of the spans cover characters of a text between two offsets. -/
def AllBetween (spans : List Span) (t : Text) (lo hi : Nat) : Prop :=
  ∀ s ∈ spans, s.Between t lo hi

variable {s u : Span} {spans spans' : List Span} {t : Text} {lo hi lo' hi' : Nat}

theorem Slices.union (hs : s.Slices t) (hu : u.Slices t) : (s.union u).Slices t := by
  have hstart : t.Boundary (min s.start u.start) := by
    rcases Nat.le_total s.start u.start with h | h
    · rw [Nat.min_eq_left h]
      exact hs.start
    · rw [Nat.min_eq_right h]
      exact hu.start
  have hstop : t.Boundary (max s.stop u.stop) := by
    rcases Nat.le_total s.stop u.stop with h | h
    · rw [Nat.max_eq_right h]
      exact hu.stop
    · rw [Nat.max_eq_left h]
      exact hs.stop
  have hle := hs.start_le
  rw [union_eq hle]
  exact ⟨by simp only; omega, hstart, hstop⟩

theorem Between.mono (h : s.Between t lo hi) (hlo : lo' ≤ lo) (hhi : hi ≤ hi') :
    s.Between t lo' hi' :=
  ⟨Nat.le_trans hlo h.le_start, h.start_lt, Nat.le_trans h.stop_le hhi, h.slices⟩

theorem Between.union (hs : s.Between t lo hi) (hu : u.Between t lo hi) :
    (s.union u).Between t lo hi := by
  have hlt := hs.start_lt
  have hslices := hs.slices.union hu.slices
  rw [union_eq (Nat.le_of_lt hlt)] at hslices ⊢
  refine ⟨?_, ?_, ?_, hslices⟩
  · exact Nat.le_min.mpr ⟨hs.le_start, hu.le_start⟩
  · simp only
    omega
  · exact Nat.max_le.mpr ⟨hs.stop_le, hu.stop_le⟩

/-- The union of two spans of which the second one begins and ends behind the first one. -/
theorem union_of_le (hs : s.start ≤ s.stop) (hstart : s.start ≤ u.start) (hstop : s.stop ≤ u.stop) :
    s.union u = ⟨s.start, u.stop⟩ := by
  rw [union_eq hs, Nat.min_eq_left hstart, Nat.max_eq_right hstop]

theorem Between.lt (h : s.Between t lo hi) : lo < hi :=
  Nat.lt_of_le_of_lt h.le_start (Nat.lt_of_lt_of_le h.start_lt h.stop_le)

@[simp] theorem allBetween_nil : AllBetween [] t lo hi := List.forall_mem_nil _

@[simp] theorem allBetween_cons :
    AllBetween (s :: spans) t lo hi ↔ s.Between t lo hi ∧ AllBetween spans t lo hi :=
  List.forall_mem_cons

@[simp] theorem allBetween_append :
    AllBetween (spans ++ spans') t lo hi ↔ AllBetween spans t lo hi ∧ AllBetween spans' t lo hi :=
  List.forall_mem_append

theorem AllBetween.mono (h : AllBetween spans t lo hi) (hlo : lo' ≤ lo) (hhi : hi ≤ hi') :
    AllBetween spans t lo' hi' :=
  fun s hs => (h s hs).mono hlo hhi

end Span

open EventCatalog.Span

/-- Lexemes of a text from an offset on, one behind the other, if the last one of the text has the
span `last`. -/
def Lexeme.Row (t : Text) (last : Span) : Nat → List Lexeme → Prop
  | lo, [] => lo ≤ last.stop
  | lo, x :: xs =>
    x.span.Between t lo last.stop ∧ x.span.start ≤ last.start ∧ Row t last x.span.stop xs

namespace Lexeme

variable {t : Text} {last : Span} {lo lo' : Nat} {ts : List Lexeme} {x : Lexeme}

theorem Row.mono (h : Row t last lo ts) (hle : lo' ≤ lo) : Row t last lo' ts := by
  cases ts with
  | nil => exact Nat.le_trans hle h
  | cons x ts => exact ⟨h.1.mono hle (Nat.le_refl _), h.2⟩

theorem Row.le_stop (h : Row t last lo ts) : lo ≤ last.stop := by
  cases ts with
  | nil => exact h
  | cons x ts => exact Nat.le_of_lt h.1.lt

/-- A lexeme may be passed over. -/
theorem Row.tail (h : Row t last lo (x :: ts)) : Row t last lo ts :=
  h.2.2.mono (Nat.le_trans h.1.le_start (Nat.le_of_lt h.1.start_lt))

theorem Row.of_suffix {us : List Lexeme} (h : Row t last lo ts) (hus : us <:+ ts) :
    Row t last lo us := by
  obtain ⟨dropped, rfl⟩ := hus
  induction dropped with
  | nil => exact h
  | cons x dropped ih => exact ih h.tail

end Lexeme

namespace Syntax

namespace Reader

open Lexeme

variable {α β γ : Type} {known : List Span} {spans : α → List Span} {expected : Expected}

/-- Behind known spans, which begin behind a first offset, the reader gets to a further one, and
what it gives has a property that speaks of the two. -/
structure Gathers (known : List Span) (Q : Text → Nat → Nat → α → Prop) (p : Reader α) :
    Prop where
  value : ∀ {t last lo mid ts a rest}, lo ≤ mid → AllBetween known t lo mid → Row t last mid ts →
    p.run ts = .ok (a, rest) → ∃ hi, mid ≤ hi ∧ Q t lo hi a ∧ Row t last hi rest

/-- The spans of a value stand between two offsets. -/
def Spread (spans : α → List Span) (t : Text) (lo hi : Nat) (a : α) : Prop :=
  AllBetween (spans a) t lo hi

/-- The spans of the value come to those that are known. -/
def Adds (spans : α → List Span) (p : Reader α) : Prop :=
  ∀ known, p.Gathers known (Spread fun a => spans a ++ known)

/-- A success takes one lexeme, which has the span of the value. -/
structure TakesOne (span : α → Span) (p : Reader α) : Prop where
  lexeme : ∀ {ts a rest}, p.run ts = .ok (a, rest) → ∃ x, ts = x :: rest ∧ span a = x.span

/-! ### Combinators -/

section Combinators

variable {Q : Text → Nat → Nat → α → Prop} {R : Text → Nat → Nat → β → Prop} {p : Reader α}

theorem Gathers.mono {Q' : Text → Nat → Nat → α → Prop} (hp : p.Gathers known Q)
    (h : ∀ t lo hi a, Q t lo hi a → Q' t lo hi a) : p.Gathers known Q' := by
  constructor
  intro t last lo mid ts a rest hle hknown hrow hrun
  obtain ⟨hi, hhi, ha, hrest⟩ := hp.value hle hknown hrow hrun
  exact ⟨hi, hhi, h _ _ _ _ ha, hrest⟩

theorem gathers_pure {a : α} (h : ∀ t lo hi, AllBetween known t lo hi → Q t lo hi a) :
    (pure a : Reader α).Gathers known Q := by
  constructor
  intro t last lo mid ts b rest _ hknown hrow hrun
  cases hrun
  exact ⟨mid, Nat.le_refl _, h _ _ _ hknown, hrow⟩

theorem Gathers.bind {f : α → Reader β} (hp : p.Gathers known (Spread spans))
    (hf : ∀ a, (f a).Gathers (spans a) R) : (p >>= f).Gathers known R := by
  constructor
  intro t last lo mid ts b rest hle hknown hrow hrun
  obtain ⟨a, us, ha, hb⟩ := run_bind_eq_ok hrun
  obtain ⟨mid', hmid, hspans, hrow'⟩ := hp.value hle hknown hrow ha
  obtain ⟨hi, hhi, hQ, hrest⟩ := (hf a).value (Nat.le_trans hle hmid) hspans hrow' hb
  exact ⟨hi, Nat.le_trans hmid hhi, hQ, hrest⟩

theorem Gathers.map {φ : α → β} (hp : p.Gathers known Q)
    (h : ∀ t lo hi a, Q t lo hi a → R t lo hi (φ a)) : (φ <$> p).Gathers known R := by
  constructor
  intro t last lo mid ts b rest hle hknown hrow hrun
  obtain ⟨a, us, ha, hb⟩ := run_bind_eq_ok hrun
  cases hb
  obtain ⟨hi, hhi, hQ, hrest⟩ := hp.value hle hknown hrow ha
  exact ⟨hi, hhi, h _ _ _ _ hQ, hrest⟩

theorem gathers_fail : (fail expected : Reader α).Gathers known Q := by
  constructor
  intro t last lo mid ts a rest _ _ _ hrun
  cases hrun

theorem adds_next? : next?.Adds fun _ => [] := by
  intro known
  constructor
  intro t last lo mid ts a rest _ hknown hrow hrun
  cases hrun
  exact ⟨mid, Nat.le_refl _, hknown, hrow⟩

theorem adds_nextIs (x : Token) : (nextIs x).Adds fun _ => [] := by
  intro known
  constructor
  intro t last lo mid ts a rest _ hknown hrow hrun
  cases hrun
  exact ⟨mid, Nat.le_refl _, hknown, hrow⟩

/-! ### Readers that add spans -/

theorem Adds.mono {spans' : α → List Span} (hp : p.Adds spans)
    (h : ∀ t lo hi a, AllBetween (spans a) t lo hi → AllBetween (spans' a) t lo hi) :
    p.Adds spans' := by
  intro known
  refine (hp known).mono ?_
  intro t lo hi a hspans
  obtain ⟨ha, hknown⟩ := allBetween_append.mp hspans
  exact allBetween_append.mpr ⟨h t lo hi a ha, hknown⟩

/-- What is read need not be looked at. -/
theorem Adds.passes (hp : p.Adds spans) : p.Adds fun _ => [] :=
  hp.mono fun _ _ _ _ _ => allBetween_nil

theorem Adds.labelled (hp : p.Adds spans) (expected : Expected) :
    (p.labelled expected).Adds spans := by
  intro known
  constructor
  intro t last lo mid ts a rest hle hknown hrow hrun
  simp only [Reader.labelled] at hrun
  split at hrun
  · cases hrun
  · rename_i hp'
    cases hrun
    exact (hp known).value hle hknown hrow hp'

theorem Adds.optional (hp : p.Adds spans) :
    (optional p).Adds fun o => o.elim [] spans := by
  intro known
  constructor
  intro t last lo mid ts o rest hle hknown hrow hrun
  simp only [Reader.optional] at hrun
  split at hrun
  · cases hrun
    exact ⟨mid, Nat.le_refl _, hknown, hrow⟩
  · rename_i hp'
    cases hrun
    exact (hp known).value hle hknown hrow hp'

/-- The spans of all turns are added, one turn behind the other. -/
theorem Adds.iterate {p : Reader (Option α)} (hp : p.Adds fun o => o.elim [] spans) :
    (iterate p).Adds (·.flatMap spans) := by
  intro known
  constructor
  intro t last lo mid ts as rest hle hknown hrow hrun
  change iterateRun p ts = _ at hrun
  simp only [Spread, allBetween_append]
  fun_induction iterateRun p ts generalizing mid as rest with
  | case1 => cases hrun
  | case2 ts rest h =>
    cases hrun
    obtain ⟨hi, hhi, hspans, hrest⟩ := (hp known).value hle hknown hrow h
    exact ⟨hi, hhi, ⟨allBetween_nil, hspans⟩, hrest⟩
  | case3 => cases hrun
  | case4 ts a us h hlt as last' hlast ih =>
    cases hrun
    obtain ⟨mid', hmid, hspans, hrow'⟩ := (hp known).value hle hknown hrow h
    obtain ⟨ha, hknown'⟩ := allBetween_append.mp hspans
    obtain ⟨hi, hhi, ⟨has, hknown''⟩, hrest⟩ := ih (Nat.le_trans hle hmid) hknown' hrow' hlast
    refine ⟨hi, Nat.le_trans hmid hhi, ⟨?_, hknown''⟩, hrest⟩
    rw [List.flatMap_cons]
    exact allBetween_append.mpr ⟨ha.mono (Nat.le_refl _) hhi, has⟩
  | case5 ts a rest h hlt =>
    cases hrun
    obtain ⟨hi, hhi, hspans, hrest⟩ := (hp known).value hle hknown hrow h
    obtain ⟨ha, hknown'⟩ := allBetween_append.mp hspans
    rw [List.flatMap_singleton]
    exact ⟨hi, hhi, ⟨ha, hknown'⟩, hrest⟩

theorem Adds.separated {s : Reader β} (hp : p.Adds spans) (hs : s.Adds fun _ => []) :
    (separated p s).Adds (·.flatMap spans) := by
  have hother : (s >>= fun _ => p).Adds spans := by
    intro known
    exact (hs known).bind fun _ => hp known
  intro known
  refine (hp known).bind fun first => ?_
  refine (hother.optional.iterate _).bind fun others => gathers_pure ?_
  intro t lo hi h
  simp only [Spread, allBetween_append, List.flatMap_cons] at h ⊢
  exact ⟨⟨h.2.1, h.1⟩, h.2.2⟩

theorem Adds.separatedOrNone {s : Reader β} (hp : p.Adds spans) (hs : s.Adds fun _ => []) :
    (separatedOrNone p s).Adds fun _ => [] := by
  intro known
  exact ((hp.separated hs).passes.optional.passes known).bind fun _ => gathers_pure fun _ _ _ h => h

/-! ### Readers of one lexeme -/

theorem takesOne_token (expected : Expected) (value? : Token → Option α) :
    (token expected value?).TakesOne (·.span) := by
  constructor
  intro ts a rest hrun
  obtain ⟨x, hx, -, hspan⟩ := run_token_eq_ok hrun
  exact ⟨x, hx, hspan⟩

theorem TakesOne.labelled {span : α → Span} (hp : p.TakesOne span) (expected : Expected) :
    (p.labelled expected).TakesOne span := by
  constructor
  intro ts a rest hrun
  simp only [Reader.labelled] at hrun
  split at hrun
  · cases hrun
  · rename_i hp'
    cases hrun
    exact hp.lexeme hp'

theorem TakesOne.map {span : α → Span} {span' : β → Span} {φ : α → β} (hp : p.TakesOne span)
    (h : ∀ a, span' (φ a) = span a) : (φ <$> p).TakesOne span' := by
  constructor
  intro ts b rest hrun
  obtain ⟨a, us, ha, hb⟩ := run_bind_eq_ok hrun
  cases hb
  obtain ⟨x, hx, hspan⟩ := hp.lexeme ha
  exact ⟨x, hx, (h a).trans hspan⟩

/-- One lexeme stands behind all that is known, and its end is what the reader gets to. -/
theorem TakesOne.gathers {span : α → Span} (hp : p.TakesOne span)
    (h : ∀ t lo mid a, AllBetween known t lo mid → lo ≤ mid →
      (span a).Between t mid (span a).stop → Q t lo (span a).stop a) : p.Gathers known Q := by
  constructor
  intro t last lo mid ts a rest hle hknown hrow hrun
  obtain ⟨x, rfl, hspan⟩ := hp.lexeme hrun
  obtain ⟨hx, -, hrest⟩ := hrow
  rw [← hspan] at hx hrest
  have hbetween : (span a).Between t mid (span a).stop :=
    ⟨hx.le_start, hx.start_lt, Nat.le_refl _, hx.slices⟩
  exact ⟨(span a).stop, Nat.le_of_lt hbetween.lt, h _ _ _ _ hknown hle hbetween, hrest⟩

/-- What ends with a lexeme ends where the lexeme does. -/
theorem TakesOne.bind_last {span : α → Span} {φ : α → β} (hp : p.TakesOne span)
    (h : ∀ t lo mid a, AllBetween known t lo mid → lo ≤ mid →
      (span a).Between t mid (span a).stop → R t lo (span a).stop (φ a)) :
    (p >>= fun a => pure (φ a)).Gathers known R := by
  have hp' : p.Gathers known fun t lo hi a => R t lo hi (φ a) := hp.gathers h
  exact hp'.map fun _ _ _ _ ha => ha

theorem TakesOne.adds {span : α → Span} (hp : p.TakesOne span) : p.Adds fun a => [span a] := by
  intro known
  refine hp.gathers ?_
  intro t lo mid a hknown hle hspan
  refine allBetween_cons.mpr ⟨hspan.mono hle (Nat.le_refl _), ?_⟩
  exact hknown.mono (Nat.le_refl _) (Nat.le_of_lt hspan.lt)

/-- What begins with a lexeme stands behind the start of the lexeme. -/
theorem TakesOne.bind_first {span : α → Span} {f : α → Reader β} (hp : p.TakesOne span)
    (hf : ∀ a, (f a).Gathers [span a] fun t lo hi b => lo = (span a).start →
      ∀ lo', lo' ≤ lo → R t lo' hi b) : (p >>= f).Gathers known R := by
  constructor
  intro t last lo mid ts b rest hle hknown hrow hrun
  obtain ⟨a, us, ha, hb⟩ := run_bind_eq_ok hrun
  obtain ⟨x, rfl, hspan⟩ := hp.lexeme ha
  obtain ⟨hx, -, hrest⟩ := hrow
  rw [← hspan] at hx hrest
  have hfirst : AllBetween [span a] t (span a).start (span a).stop :=
    List.forall_mem_singleton.mpr ⟨Nat.le_refl _, hx.start_lt, Nat.le_refl _, hx.slices⟩
  obtain ⟨hi, hhi, hR, hrow'⟩ := (hf a).value (Nat.le_of_lt hx.start_lt) hfirst hrest hb
  have hmid : mid ≤ hi :=
    Nat.le_trans hx.le_start (Nat.le_trans (Nat.le_of_lt hx.start_lt) hhi)
  exact ⟨hi, hmid, hR rfl lo (Nat.le_trans hle hx.le_start), hrow'⟩

end Combinators

end Reader

/-! ### The spans of phrases -/

/-- The spans of a reference: all of it, its name and its selector. -/
def Reference.spans (r : Reference) : List Span := r.span :: r.name.span :: r.selectorSpan.toList

/-- The spans of a reference with a kind. -/
def TypedReference.spans (r : TypedReference) : List Span := r.kind.span :: r.target.spans

/-- The spans of an imported name and of the name that it is given. -/
def ImportedName.spans (n : ImportedName) : List Span :=
  n.name.span :: n.renamed.toList.map (·.span)

/-- The spans of an annotation. -/
def Note.spans (a : Note) : List Span := [a.span, a.name.span]

/-- The spans of a parameter. -/
def Parameter.spans (p : Parameter) : List Span := [p.span, p.name.span]

/-- The spans of a step: all of it, its reference and its label. -/
def Step.spans (s : Step) : List Span :=
  s.span :: (match s with
    | .reference target label => target.spans ++ label.toList.map (·.span)
    | .node label => [label.span])

/-- The spans of what an action leads to. -/
def Output.spans (o : Output) : List Span := o.label.toList.map (·.span) ++ o.target.spans

/-- The spans of an action. -/
def Action.spans (a : Action) : List Span :=
  a.target.spans ++ a.label.toList.map (·.span) ++ a.outputs.flatMap Output.spans

/-- The names and the source of an import stand inside it, and it stands between two offsets. -/
structure Import.Framed (t : Text) (lo hi : Nat) (i : Import) : Prop where
  span : i.span.Between t lo hi
  names : AllBetween (i.names.flatMap ImportedName.spans) t i.span.start i.span.stop
  source : i.source.span.Between t i.span.start i.span.stop

/-! ### Phrases -/

namespace Phrase

open Reader

theorem takesOne_mark (x : Token) : (mark x).TakesOne id :=
  (takesOne_token _ _).map fun _ => rfl

theorem takesOne_keyword (word : String) : (keyword word).TakesOne id :=
  (takesOne_token _ _).map fun _ => rfl

theorem takesOne_stringLiteral : stringLiteral.TakesOne (·.span) := takesOne_token _ _

theorem takesOne_name : name.TakesOne (·.span) := takesOne_token _ _

theorem takesOne_value : value.TakesOne (·.span) := takesOne_token _ _

theorem adds_values : values.Adds fun _ => [] := by
  intro known
  refine ((takesOne_mark _).adds.passes known).bind fun _ => ?_
  refine (takesOne_value.adds.separatedOrNone (takesOne_mark _).adds.passes _).bind fun _ => ?_
  refine ((takesOne_mark _).adds.optional.passes _).bind fun _ => ?_
  refine ((takesOne_mark _).adds.passes _).bind fun _ => gathers_pure ?_
  exact fun _ _ _ h => h

/-- A selector in two lexemes. -/
theorem adds_signed : (mark .atSign >>= fun sign => stringLiteral >>= fun text =>
    (pure ⟨text.value, sign.union text.span⟩ : Reader (Located String))).Adds
      fun s => [s.span] := by
  intro known
  refine ((takesOne_mark _).adds known).bind fun sign => ?_
  refine (takesOne_stringLiteral.adds _).bind fun text => gathers_pure ?_
  intro t lo hi h
  simp only [Spread, allBetween_append, allBetween_cons, id] at h ⊢
  obtain ⟨⟨htext, -⟩, ⟨hsign, -⟩, hknown⟩ := h
  exact ⟨⟨hsign.union htext, allBetween_nil⟩, hknown⟩

theorem adds_selector : selector.Adds fun o => o.toList.map (·.span) := by
  intro known
  refine ((takesOne_token _ _).adds.optional known).bind fun o => ?_
  cases o with
  | some s => exact gathers_pure fun _ _ _ h => h
  | none =>
    refine (adds_signed.optional.mono ?_) known
    intro t lo hi o h
    cases o <;> exact h

theorem adds_reference : reference.Adds Reference.spans := by
  intro known
  refine ((takesOne_name.labelled _).adds known).bind fun name => ?_
  refine (adds_selector _).bind fun o => ?_
  cases o with
  | some s =>
    refine gathers_pure ?_
    intro t lo hi h
    simp only [Spread, allBetween_append, allBetween_cons, Reference.spans, Reference.span,
      Option.toList_some, List.map_cons, List.map_nil] at h ⊢
    obtain ⟨⟨hs, hnil⟩, ⟨hname, -⟩, hknown⟩ := h
    exact ⟨⟨hname.union hs, hname, hs, hnil⟩, hknown⟩
  | none =>
    refine gathers_pure ?_
    intro t lo hi h
    simp only [Spread, allBetween_append, allBetween_cons, Reference.spans, Reference.span,
      Option.toList_none, List.map_nil] at h ⊢
    obtain ⟨hnil, ⟨hname, -⟩, hknown⟩ := h
    exact ⟨⟨hname, hname, hnil⟩, hknown⟩

theorem adds_typedReference : typedReference.Adds TypedReference.spans := by
  intro known
  refine ((takesOne_token _ _).adds known).bind fun kind => ?_
  refine (adds_reference _).bind fun target => gathers_pure ?_
  intro t lo hi h
  simp only [Spread, allBetween_append, allBetween_cons, TypedReference.spans] at h ⊢
  obtain ⟨htarget, ⟨hkind, -⟩, hknown⟩ := h
  exact ⟨⟨hkind, htarget⟩, hknown⟩

theorem adds_importedName : importedName.Adds ImportedName.spans := by
  intro known
  have hrenamed : (keyword "as" >>= fun _ => name).Adds fun n => [n.span] := by
    intro known
    exact ((takesOne_keyword _).adds.passes known).bind fun _ => takesOne_name.adds _
  refine (takesOne_name.adds known).bind fun exported => ?_
  refine (hrenamed.optional _).bind fun o => gathers_pure ?_
  intro t lo hi h
  simp only [Spread, allBetween_append, allBetween_cons, ImportedName.spans] at h ⊢
  obtain ⟨hrenamed, ⟨hname, -⟩, hknown⟩ := h
  cases o with
  | some n => exact ⟨⟨hname, hrenamed⟩, hknown⟩
  | none => exact ⟨⟨hname, allBetween_nil⟩, hknown⟩

theorem gathers_importStatement : importStatement.Gathers [] Import.Framed := by
  refine (takesOne_keyword _).bind_first fun start => ?_
  refine ((takesOne_mark _).adds.passes _).bind fun _ => ?_
  refine ((adds_importedName.separated (takesOne_mark _).adds.passes) _).bind fun names => ?_
  refine ((takesOne_mark _).adds.optional.passes _).bind fun _ => ?_
  refine ((takesOne_mark _).adds.passes _).bind fun _ => ?_
  refine ((takesOne_keyword _).adds.passes _).bind fun _ => ?_
  -- The source is the last lexeme of the statement, and all else stands before it.
  have hsource : (stringLiteral.labelled .importPath).TakesOne (·.span) :=
    takesOne_stringLiteral.labelled _
  refine hsource.bind_last ?_
  intro t lo mid source hknown hle hspan hlo lo' hlo'
  simp only [allBetween_append, allBetween_cons, id] at hknown hlo
  obtain ⟨-, -, -, hnames, -, hstart, -⟩ := hknown
  have hmid : mid ≤ source.span.start := hspan.le_start
  have hlt := hspan.start_lt
  have hunion : start.union source.span = ⟨lo, source.span.stop⟩ := by
    have hbefore := hstart.stop_le
    have hlt' := hstart.start_lt
    rw [union_of_le (by omega) (by omega) (by omega), hlo]
  constructor
  · simp only [hunion]
    exact ⟨hlo', by simp only; omega, Nat.le_refl _, by
      simp only; omega, hlo ▸ hstart.slices.start, hspan.slices.stop⟩
  · simp only [hunion]
    exact hnames.mono (Nat.le_refl _) (by omega)
  · simp only [hunion]
    exact hspan.mono (by omega) (Nat.le_refl _)

/-- The key of an argument. -/
theorem adds_key : (identifier >>= fun key => mark .colon >>= fun _ =>
    (pure key.value : Reader String)).Adds fun _ => [] := by
  intro known
  refine ((takesOne_token _ _).adds.passes known).bind fun _ => ?_
  exact ((takesOne_mark _).adds.passes _).bind fun _ => gathers_pure fun _ _ _ h => h

theorem adds_argument : argument.Adds fun _ => [] := by
  intro known
  refine (adds_key.optional.passes known).bind fun _ => ?_
  exact (takesOne_value.adds.passes _).bind fun _ => gathers_pure fun _ _ _ h => h

theorem adds_note : note.Adds Note.spans := by
  intro known
  refine ((takesOne_mark _).adds known).bind fun start => ?_
  refine (((takesOne_token _ _).labelled _).adds _).bind fun name => ?_
  refine ((takesOne_mark _).adds.optional.passes _).bind fun o => ?_
  cases o with
  | none =>
    refine gathers_pure ?_
    intro t lo hi h
    simp only [Spread, allBetween_append, allBetween_cons, Note.spans, id] at h ⊢
    obtain ⟨hnil, ⟨hname, -⟩, ⟨hstart, -⟩, hknown⟩ := h
    exact ⟨⟨hstart.union hname, hname, hnil⟩, hknown⟩
  | some _ =>
    refine (adds_argument.separatedOrNone (takesOne_mark _).adds.passes _).bind fun _ => ?_
    refine ((takesOne_mark _).adds.optional.passes _).bind fun _ => ?_
    refine ((takesOne_mark _).adds _).bind fun close => gathers_pure ?_
    intro t lo hi h
    simp only [Spread, allBetween_append, allBetween_cons, Note.spans, id] at h ⊢
    obtain ⟨⟨hclose, hnil⟩, -, -, -, ⟨hname, -⟩, ⟨hstart, -⟩, hknown⟩ := h
    exact ⟨⟨(hstart.union hname).union hclose, hname, hnil⟩, hknown⟩

theorem adds_parameterField : parameterField.Adds fun _ => [] := by
  intro known
  refine ((takesOne_token _ _).adds.passes known).bind fun field => ?_
  split
  · exact (adds_values _).bind fun _ => gathers_pure fun _ _ _ h => h
  · exact (takesOne_value.adds.passes _).bind fun _ => gathers_pure fun _ _ _ h => h

theorem adds_unlessClosed {α : Type} {spans : α → List Span} {p : Reader α} (hp : p.Adds spans) :
    (unlessClosed p).Adds fun o => o.elim [] spans := by
  intro known
  refine (adds_nextIs _ known).bind fun closed => ?_
  split
  · exact gathers_pure fun _ _ _ h => h
  · exact (hp _).bind fun _ => gathers_pure fun _ _ _ h => h

theorem adds_parameter : parameter.Adds Parameter.spans := by
  intro known
  refine ((takesOne_keyword _).adds known).bind fun start => ?_
  refine (takesOne_name.adds _).bind fun name => ?_
  refine ((takesOne_mark _).adds.optional.passes _).bind fun o => ?_
  cases o with
  | none =>
    refine gathers_pure ?_
    intro t lo hi h
    simp only [Spread, allBetween_append, allBetween_cons, Parameter.spans, id] at h ⊢
    obtain ⟨hnil, ⟨hname, -⟩, ⟨hstart, -⟩, hknown⟩ := h
    exact ⟨⟨hstart.union hname, hname, hnil⟩, hknown⟩
  | some _ =>
    refine ((adds_unlessClosed adds_parameterField).iterate.passes _).bind fun _ => ?_
    refine ((takesOne_mark _).adds _).bind fun close => gathers_pure ?_
    intro t lo hi h
    simp only [Spread, allBetween_append, allBetween_cons, Parameter.spans, id] at h ⊢
    obtain ⟨⟨hclose, hnil⟩, -, -, ⟨hname, -⟩, ⟨hstart, -⟩, hknown⟩ := h
    exact ⟨⟨(hstart.union hname).union hclose, hname, hnil⟩, hknown⟩

theorem adds_contractField : contractField.Adds fun _ => [] := by
  intro known
  refine (((takesOne_token _ _).labelled _).adds.passes known).bind fun _ => ?_
  exact (takesOne_value.adds.passes _).bind fun _ => gathers_pure fun _ _ _ h => h

theorem adds_contract : contract.Adds fun _ => [] := by
  intro known
  refine ((takesOne_mark _).adds.passes known).bind fun _ => ?_
  refine ((takesOne_keyword _).adds.passes _).bind fun _ => ?_
  refine ((takesOne_mark _).adds.passes _).bind fun _ => ?_
  refine ((adds_unlessClosed adds_contractField).iterate.passes _).bind fun _ => ?_
  refine ((takesOne_mark _).adds.passes _).bind fun _ => ?_
  exact ((takesOne_mark _).adds.passes _).bind fun _ => gathers_pure fun _ _ _ h => h

theorem adds_sameLineLabel : sameLineLabel.Adds fun o => o.toList.map (·.span) := by
  intro known
  refine (adds_next? known).bind fun o => ?_
  cases o with
  | none => exact gathers_pure fun _ _ _ h => h
  | some x =>
    simp only
    split
    · exact gathers_pure fun _ _ _ h => h
    · refine takesOne_stringLiteral.adds.optional.mono ?_ _
      intro t lo hi o h
      cases o <;> exact h

theorem adds_step : step.Adds Step.spans := by
  intro known
  refine (takesOne_stringLiteral.adds.optional known).bind fun o => ?_
  cases o with
  | some label =>
    refine gathers_pure ?_
    intro t lo hi h
    exact allBetween_cons.mpr ⟨(allBetween_cons.mp h).1, h⟩
  | none =>
    refine (adds_reference.labelled _ _).bind fun target => ?_
    refine (adds_sameLineLabel _).bind fun label => gathers_pure ?_
    intro t lo hi h
    obtain ⟨hlabel, h⟩ := allBetween_append.mp h
    obtain ⟨htarget, hknown⟩ := allBetween_append.mp h
    have hspan := (allBetween_cons.mp htarget).1
    simp only [Spread, allBetween_append, allBetween_cons, Step.spans, Step.span]
    refine ⟨⟨?_, htarget, hlabel⟩, hknown⟩
    cases label with
    | none => exact hspan
    | some label => exact hspan.union (allBetween_cons.mp hlabel).1

theorem adds_afterArrow {α : Type} {spans : α → List Span} {p : Reader α} (hp : p.Adds spans) :
    (afterArrow p).Adds fun o => o.elim [] spans := by
  intro known
  refine ((takesOne_mark _).adds.optional.passes known).bind fun o => ?_
  cases o with
  | none => exact gathers_pure fun _ _ _ h => h
  | some _ => exact (hp _).bind fun _ => gathers_pure fun _ _ _ h => h

theorem adds_chain : chain.Adds (·.flatMap Step.spans) := by
  intro known
  refine (adds_step known).bind fun first => ?_
  refine ((adds_afterArrow adds_step).iterate _).bind fun others => gathers_pure ?_
  intro t lo hi h
  simp only [Spread, allBetween_append, List.flatMap_cons] at h ⊢
  exact ⟨⟨h.2.1, h.1⟩, h.2.2⟩

/-- The label of what an action leads to. -/
theorem adds_outputLabel : (stringLiteral >>= fun label => mark .colon >>= fun _ =>
    (pure label : Reader (Located String))).Adds fun label => [label.span] := by
  intro known
  refine (takesOne_stringLiteral.adds known).bind fun label => ?_
  exact ((takesOne_mark _).adds.passes _).bind fun _ => gathers_pure fun _ _ _ h => h

theorem adds_output : output.Adds Output.spans := by
  intro known
  refine (adds_outputLabel.optional known).bind fun label => ?_
  refine (adds_reference _).bind fun target => gathers_pure ?_
  intro t lo hi h
  simp only [Spread, allBetween_append, Output.spans] at h ⊢
  obtain ⟨htarget, hlabel, hknown⟩ := h
  refine ⟨⟨?_, htarget⟩, hknown⟩
  cases label <;> exact hlabel

theorem adds_action : action.Adds Action.spans := by
  intro known
  refine (adds_reference.labelled _ known).bind fun target => ?_
  refine (adds_sameLineLabel _).bind fun label => ?_
  refine ((adds_afterArrow adds_output).iterate _).bind fun outputs => gathers_pure ?_
  intro t lo hi h
  simp only [Spread, allBetween_append, Action.spans] at h ⊢
  obtain ⟨houtputs, hlabel, htarget, hknown⟩ := h
  exact ⟨⟨⟨htarget, hlabel⟩, houtputs⟩, hknown⟩

end Phrase

end Syntax

end EventCatalog
