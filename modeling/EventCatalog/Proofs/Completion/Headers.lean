import EventCatalog.Completion.Site
import EventCatalog.Proofs.Syntax.Bracing

/-! # Headers of blocks

What stands before the brace of a definition tells completion the kind of that definition
(`Heads`).  At the top it is a kind and a name, in a block it is a whole statement, and of the
statements only those of members and messages may be followed by a block
(`Statement.braced_statement`). -/

namespace EventCatalog.Completion

open Syntax Reader Phrase

variable {t u : Lexeme} {ts us used : List Lexeme} {k m : Kind} {word : String}

/-- How many lexemes stand before the keyword of a definition in its header: inside another one, the
direction of a message comes before its kind. -/
def leadOf (inner : Bool) (k : Kind) : Nat := if inner && k.isMessage then 1 else 0

/-- The lexemes are the header of a definition of a kind, in a block of the kind of its parent. -/
structure Heads (parent : Option Kind) (k : Kind) (keyword : Span) (used : List Lexeme) : Prop where
  flat : Flat used
  opened : Enclosure.opened (parent.map .definition) (used.map (·.token)) = .definition k
  keyword : used[leadOf parent.isSome k]?.map (·.span) = some keyword

/-! ### Words that open blocks -/

theorem not_isBrace_of_identifier (ht : t.token = .identifier word) : t.isBrace = false := by
  unfold Lexeme.isBrace
  rw [ht]
  rfl

/-- At the top of a document the first word is the keyword of the kind. -/
theorem heads_definition (ht : kind? t.token = some k) (hu : Flat us) :
    Heads none k t.span (t :: us) := by
  obtain ⟨word, hword, hk⟩ := Option.bind_eq_some_iff.mp ht
  obtain ⟨text, hlexeme⟩ : ∃ text, t.token = .identifier text := by
    cases htoken : t.token <;> rw [htoken] at hword <;> first
      | exact ⟨_, rfl⟩
      | cases hword
  have htext : text = word := by
    rw [hlexeme] at hword
    exact Option.some.inj hword
  subst htext
  refine ⟨hu.cons (not_isBrace_of_identifier hlexeme), ?_, rfl⟩
  have hne : text ≠ "import" := by
    rintro rfl
    cases hk
  simp [Enclosure.opened, hlexeme, Token.identifier?, hk]

/-- In a domain the first word says which section a member belongs to, which decides its kind. -/
theorem heads_member {sort : Section} (ht : t.token = .identifier word)
    (hword : Section.ofKeyword? word = some sort) (hu : Flat us) :
    Heads (some .domain) sort.kind t.span (t :: us) := by
  refine ⟨hu.cons (not_isBrace_of_identifier ht), ?_, ?_⟩
  · rw [List.map_cons, ht]
    unfold Section.ofKeyword? at hword
    split at hword <;> cases hword <;> rfl
  · cases sort <;> rfl

/-- The second word of a message statement is the kind of the message. -/
theorem heads_message (hk : k = .domain ∨ k = .service) (hword : word = "sends" ∨ word = "receives")
    (ht : t.token = .identifier word) (hkind : (kind? u.token).filter Kind.isMessage = some m)
    (hu : u.isBrace = false) (hus : Flat us) : Heads (some k) m u.span (t :: u :: us) := by
  obtain ⟨-, hmessage⟩ := Option.filter_eq_some_iff.mp hkind
  refine ⟨(hus.cons hu).cons (not_isBrace_of_identifier ht), ?_, ?_⟩
  · have hopened : Enclosure.opened (some (.definition k))
        (.identifier word :: u.token :: us.map (·.token)) =
          (((kind? u.token).filter Kind.isMessage).map .definition).getD .other := by
      rcases hk with rfl | rfl <;> rcases hword with rfl | rfl <;> rfl
    rw [List.map_cons, List.map_cons, ht, Option.map_some, hopened, hkind]
    rfl
  · rw [leadOf, hmessage]
    rfl

end EventCatalog.Completion

namespace EventCatalog.Syntax

open Reader Phrase Completion

variable {α : Type} {t : Lexeme} {k : Kind} {word : String}

/-! ### Statements -/

namespace Statement

/-- What has been taken for a statement in a block of a kind has balanced braces, and it is the
header of the definition that a block behind it belongs to. -/
structure Braced (k : Kind) (s : Statement) (used : List Lexeme) : Prop where
  shuts : Shuts 0 used
  heads : ∀ o, s.opening? = some o → Heads (some k) o.kind o.keyword used

end Statement

namespace Reader

open Statement

variable {P : α → List Lexeme → Prop} {p : Reader α} {f : α → Reader Statement}

/-- What a success has taken of lexemes that begin with a given one, together with its value. -/
def TakesFrom (t : Lexeme) (P : α → List Lexeme → Prop) (p : Reader α) : Prop :=
  ∀ ts a rest, p.run (t :: ts) = .ok (a, rest) → ∃ used, t :: ts = used ++ rest ∧ P a used

/-- A success has taken balanced braces for a statement that no block belongs to. -/
def TakesPlain (p : Reader Statement) : Prop :=
  p.Takes fun s used => Shuts 0 used ∧ s.opening? = none

theorem takesPlain_pure {s : Statement} (h : s.opening? = none) :
    (pure s : Reader Statement).TakesPlain := takes_pure ⟨.nil, h⟩

theorem TakesFlat.bindPlain (hp : p.TakesFlat) (hf : ∀ a, (f a).TakesPlain) :
    (p >>= f).TakesPlain :=
  Takes.bind hp hf fun _ _ _ _ hus hvs => ⟨hus.append_shuts hvs.1, hvs.2⟩

theorem TakesShut.mapPlain {φ : α → Statement} (hp : p.TakesShut 0)
    (hφ : ∀ a, (φ a).opening? = none) : (φ <$> p).TakesPlain :=
  Takes.bind hp (fun a => takesPlain_pure (hφ a)) fun _ _ _ _ hus hvs =>
    ⟨hus.append hvs.1, hvs.2⟩

theorem braced_of_plain {s : Statement} {used : List Lexeme} (h : Shuts 0 used)
    (hs : s.opening? = none) : s.Braced k used := by
  refine ⟨h, fun o ho => ?_⟩
  rw [hs] at ho
  cases ho

theorem TakesPlain.braced {p : Reader Statement} (hp : p.TakesPlain) :
    p.TakesFrom t (Braced k) := by
  intro ts s rest hrun
  obtain ⟨used, hused, hshuts, hs⟩ := hp _ _ _ hrun
  exact ⟨used, hused, braced_of_plain hshuts hs⟩

end Reader

namespace Statement

/-- Most statements begin by taking a lexeme, whatever it is; it is known to be no brace. -/
theorem braced_anyLexeme_bind {f : Span → Reader Statement} (ht : t.isBrace = false)
    (hf : ∀ s, (f s).TakesPlain) : (anyLexeme >>= f).TakesFrom t (Braced k) := by
  intro ts s rest hrun
  have hrest : (f t.span).run ts = .ok (s, rest) := hrun
  obtain ⟨used, rfl, hshuts, hs⟩ := hf _ _ _ _ hrest
  exact ⟨t :: used, rfl, braced_of_plain (.lexeme ht hshuts) hs⟩

theorem braced_attributeStatement (ht : t.isBrace = false) (word : String)
    (shape : AttributeShape) : (attributeStatement word shape).TakesFrom t (Braced k) := by
  cases shape with
  | text =>
    exact braced_anyLexeme_bind ht fun _ => takesFlat_value.bindPlain fun _ => takesPlain_pure rfl
  | flag =>
    refine braced_anyLexeme_bind ht fun _ => takesFlat_boolean.optional.bindPlain fun o => ?_
    cases o <;> exact takesPlain_pure rfl
  | list key =>
    exact braced_anyLexeme_bind ht fun _ => takesFlat_value.bindPlain fun _ => takesPlain_pure rfl

theorem braced_after (ht : t.isBrace = false) (role : Role) (noise : Option String) :
    (after role noise).TakesFrom t (Braced k) := by
  refine braced_anyLexeme_bind ht fun _ => ?_
  cases noise with
  | some word =>
    exact (takesFlat_keyword word).optional.bindPlain fun _ =>
      takesFlat_reference.bindPlain fun _ => takesPlain_pure rfl
  | none => exact takesFlat_reference.bindPlain fun _ => takesPlain_pure rfl

theorem braced_ownsStatement (ht : t.isBrace = false) :
    ownsStatement.TakesFrom t (Braced k) :=
  braced_anyLexeme_bind ht fun _ =>
    takesFlat_typedReference.bindPlain fun _ => takesPlain_pure rfl

theorem braced_unknownStatement (ht : t.isBrace = false) (word : String) :
    (unknownStatement word).TakesFrom t (Braced k) :=
  braced_anyLexeme_bind ht fun _ => takesPlain_pure rfl

theorem braced_outputStatement (ht : t.isBrace = false) :
    outputStatement.TakesFrom t (Braced k) := by
  refine braced_anyLexeme_bind ht fun _ => takesFlat_typedReference.bindPlain fun _ =>
    (takesFlat_nextIs _).bindPlain fun b => ?_
  cases b with
  | true => exact takesShut_contract.mapPlain fun _ => rfl
  | false => exact takesPlain_pure rfl

theorem takesFlat_ifAction {p : Reader α} (hp : p.TakesFlat) : (ifAction p).TakesFlat := by
  refine takesFlat_next?.bind fun o => ?_
  cases o with
  | none => exact takesFlat_pure _
  | some u =>
    change TakesFlat (if startsAction u.token then _ else _)
    split
    · exact hp.bind fun _ => takesFlat_pure _
    · exact takesFlat_pure _

theorem takesFlat_triggerClause : triggerClause.TakesFlat :=
  (takesFlat_keyword _).bind fun _ =>
    (takesFlat_reference.separated (takesFlat_keyword _)).bind fun _ =>
      (takesFlat_ifAction takesFlat_action).iterate.bind fun _ => takesFlat_pure _

theorem braced_flowStatement (word : String) : (flowStatement word).TakesFrom t (Braced k) := by
  refine TakesPlain.braced ?_
  unfold flowStatement
  split
  · exact takesFlat_triggerClause.takesShut.mapPlain fun _ => rfl
  · exact takesFlat_chain.takesShut.mapPlain fun _ => rfl

/-! ### Members and messages -/

theorem braced_memberStatement {sort : Section} (ht : t.token = .identifier word)
    (hword : Section.ofKeyword? word = some sort) :
    (memberStatement sort).TakesFrom t (Braced .domain) := by
  intro ts s rest hrun
  obtain ⟨r, mid, hreference, hpure⟩ := run_bind_eq_ok (p := Phrase.reference)
    (f := fun r => pure (member sort t.span r none)) hrun
  obtain ⟨used, rfl, hflat⟩ := takesFlat_reference _ _ _ hreference
  cases hpure
  have hheads := heads_member ht hword hflat
  refine ⟨t :: used, rfl, hheads.flat.shuts, ?_⟩
  intro o ho
  cases ho
  exact hheads

theorem braced_messageStatement (hk : k = .domain ∨ k = .service)
    (hword : word = "sends" ∨ word = "receives") (ht : t.token = .identifier word)
    (direction : Direction) : (messageStatement direction).TakesFrom t (Braced k) := by
  intro ts s rest hrun
  obtain ⟨kind, mid, hkind, hrun⟩ := run_bind_eq_ok (p := messageKind) hrun
  obtain ⟨target, mid', htarget, hrun⟩ := run_bind_eq_ok hrun
  obtain ⟨o, mid'', hover, hrun⟩ := run_bind_eq_ok hrun
  obtain ⟨u, rfl, hvalue, hspan⟩ := run_token_eq_ok hkind
  obtain ⟨us, rfl, hus⟩ := takesFlat_reference _ _ _ htarget
  obtain ⟨vs, rfl, hvs⟩ := (takesFlat_keyword _).optional _ _ _ hover
  -- The channels of the message stand in its header with it.
  obtain ⟨ws, rfl, hws, hs⟩ : ∃ ws, mid'' = ws ++ rest ∧ Flat ws ∧
      s.opening? = some ⟨kind.value, kind.span, target⟩ := by
    cases o with
    | none =>
      cases hrun
      exact ⟨[], rfl, flat_nil, rfl⟩
    | some _ =>
      obtain ⟨channels, last, hchannels, hpure⟩ := run_bind_eq_ok hrun
      cases hpure
      obtain ⟨ws, hws, hflat⟩ := (takesFlat_reference.separated takesFlat_comma) _ _ _ hchannels
      exact ⟨ws, hws, hflat, rfl⟩
  have hu : u.isBrace = false :=
    isBrace_of_token (fun t => (kind? t).filter Kind.isMessage) rfl rfl hvalue
  have hheads := heads_message hk hword ht hvalue hu (hus.append (hvs.append hws))
  refine ⟨t :: u :: (us ++ (vs ++ ws)), by simp, hheads.flat.shuts, ?_⟩
  intro o ho
  rw [hs] at ho
  cases ho
  rw [hspan]
  exact hheads

/-! ### Statements of any kind of block -/

theorem braced_special (k : Kind) (ht : t.token = .identifier word) :
    (special k word).TakesFrom t (Braced k) := by
  have hbrace := not_isBrace_of_identifier ht
  unfold special
  split <;> first
    | exact braced_messageStatement (.inl rfl) (.inl rfl) ht _
    | exact braced_messageStatement (.inl rfl) (.inr rfl) ht _
    | exact braced_messageStatement (.inr rfl) (.inl rfl) ht _
    | exact braced_messageStatement (.inr rfl) (.inr rfl) ht _
    | exact braced_ownsStatement hbrace
    | exact braced_after hbrace _ _
    | exact (takesShut_parameter.mapPlain fun _ => rfl).braced
    | exact braced_outputStatement hbrace
    | exact braced_flowStatement _
    | exact braced_unknownStatement hbrace _
    | exact braced_anyLexeme_bind hbrace fun _ =>
        takesFlat_typedReference.bindPlain fun _ => takesPlain_pure rfl
    | (split <;> first
        | exact braced_memberStatement ht ‹_›
        | exact braced_unknownStatement hbrace _)

theorem braced_worded (k : Kind) (ht : t.token = .identifier word) :
    (worded k word).TakesFrom t (Braced k) := by
  have hbrace := not_isBrace_of_identifier ht
  unfold worded
  split
  · exact braced_anyLexeme_bind hbrace fun _ =>
      takesFlat_version.bindPlain fun _ => takesPlain_pure rfl
  · split
    · exact braced_attributeStatement hbrace _ _
    · exact braced_special k ht

theorem braced_startingWith (k : Kind) (t : Lexeme) :
    (startingWith k t.token).TakesFrom t (Braced k) := by
  unfold startingWith
  split
  · exact (takesFlat_note.takesShut.mapPlain fun _ => rfl).braced
  · exact braced_worded k ‹_›
  · split
    · exact braced_flowStatement _
    · exact fun _ _ _ h => nomatch h
  · exact fun _ _ _ h => nomatch h

/-- What is taken for a statement of a block of any kind has balanced braces, and it is the header
of the definition that a block behind it belongs to. -/
theorem braced_statement {ts rest : List Lexeme} {s : Statement}
    (h : (statement k).run ts = .ok (s, rest)) : ∃ used, ts = used ++ rest ∧ s.Braced k used := by
  cases ts with
  | nil => cases h
  | cons t ts => exact braced_startingWith k t ts s rest h

end Statement

end EventCatalog.Syntax
